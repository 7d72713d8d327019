import FragmentLisp.Proofs.Reader.Acceptance

/-!
Reading undoes rendering. Nodes whose symbols can be told from numbers have renderings, and the reader
takes each rendering back to the nodes, with the spans at which it holds them.
-/

open String (utf8Len)

namespace FragmentLisp
namespace Reader

def Lexical (node : Node) : Prop :=
  ∀ name span, node.Contains (.symbol name span) → Symbolic name.toList

/-- A text renders nodes: it spells nodes that are the same but for their spans, which are the ranges of
bytes at which they stand in the text. -/
def Renders (text : List Char) (nodes placed : List Node) : Prop :=
  Spells 0 text placed ∧ placed.map Node.bare = nodes.map Node.bare

theorem Lexical.of_contains {outer inner : Node} (lexical : Lexical outer)
    (within : outer.Contains inner) : Lexical inner :=
  fun name span inside => lexical name span (within.trans inside)

theorem lexical_of_items {node : Node} (own : ∀ name span, node ≠ .symbol name span)
    (items : ∀ item ∈ node.items, Lexical item) : Lexical node := by
  intro name span within
  rcases Node.contains_iff.mp within with same | ⟨item, member, inner⟩
  · exact absurd same.symm (own name span)
  · exact items item member name span inner

theorem lexical_symbol {name : String} {span : Span} (symbolic : Symbolic name.toList) :
    Lexical (.symbol name span) := by
  intro other place within
  rcases Node.contains_iff.mp within with same | ⟨item, member, _⟩
  · cases same
    exact symbolic
  · cases member

/-- A text that begins with neither a digit nor a sign is no number. -/
theorem symbolic_of_first {first : Char} {rest : List Char} (noDigit : ¬first.isDigit = true)
    (noPlus : first ≠ '+') (noMinus : first ≠ '-')
    (plain : ∀ character ∈ first :: rest, character ∉ delimiters) : Symbolic (first :: rest) := by
  refine ⟨List.cons_ne_nil _ _, plain, fun value decimal => ?_, ?_, ?_⟩
  · rcases decimal.shape with digital | plus | ⟨digits, minus, _⟩
    · exact noDigit digital.head_isDigit
    · exact noPlus (Option.some.inj plus)
    · exact noMinus (List.cons.inj minus).1
  · exact fun digital => noDigit digital.head_isDigit
  · exact fun digits minus _ => noMinus (List.cons.inj minus).1

theorem digits_toDigits (value : Nat) : Digits (Nat.toDigits 10 value) :=
  ⟨Nat.toDigits_ne_nil, fun _ member => Nat.isDigit_of_mem_toDigits (by decide) (by decide) member⟩

theorem decimal_toString (value : Int) : Decimal (toString value).toList value := by
  have natural (magnitude : Nat) : (Nat.repr magnitude).toList = Nat.toDigits 10 magnitude := by
    rw [Nat.repr_eq_ofList_toDigits, String.toList_ofList]
  cases value with
  | ofNat magnitude =>
      have written : (toString (Int.ofNat magnitude)).toList = Nat.toDigits 10 magnitude :=
        natural magnitude
      have decimal := Decimal.unsigned (digits_toDigits magnitude)
      rw [Nat.ofDigitChars_ten_toDigits] at decimal
      rw [written]
      exact decimal
  | negSucc below =>
      have written : (toString (Int.negSucc below)).toList =
          '-' :: Nat.toDigits 10 (below + 1) := by
        rw [← natural]
        exact String.toList_append
      have decimal := Decimal.negative (digits_toDigits (below + 1))
      rw [Nat.ofDigitChars_ten_toDigits] at decimal
      rw [written]
      exact decimal

theorem exists_quoted (meant : List Char) : ∃ written, Quoted meant written := by
  induction meant with
  | nil => exact ⟨[], .nothing⟩
  | cons character meant inductionHypothesis =>
      obtain ⟨written, quoted⟩ := inductionHypothesis
      by_cases quote : character = '"'
      · subst quote
        exact ⟨_, .escaped .quote quoted⟩
      · by_cases backslash : character = '\\'
        · subst backslash
          exact ⟨_, .escaped .backslash quoted⟩
        · exact ⟨_, .plain quote backslash quoted⟩

def Writable (node : Node) : Prop :=
  ∀ start, ∃ token placed, Written start token placed ∧ placed.bare = node.bare

theorem exists_spelling {nodes : List Node} (writable : ∀ node ∈ nodes, Writable node)
    (start : Nat) :
    ∃ text placed, Spells start text placed ∧ placed.map Node.bare = nodes.map Node.bare := by
  induction nodes generalizing start with
  | nil => exact ⟨[], [], .nothing, rfl⟩
  | cons node nodes inductionHypothesis =>
      obtain ⟨first, others⟩ := List.forall_mem_cons.mp writable
      obtain ⟨token, placed, written, same⟩ := first start
      obtain ⟨text, later, spells, rest⟩ :=
        inductionHypothesis others (start + utf8Len token + 1)
      -- A blank behind each node keeps it apart from the next one.
      have blank : ' ' ∈ blanks := by decide
      refine ⟨token ++ ' ' :: text, placed :: later, ?_, ?_⟩
      · exact written.prepend (.cons (delimiter_of_blank blank)) (.blank blank spells)
      · rw [List.map_cons, List.map_cons, same, rest]

theorem writable_of_items {bracket : Bracket} {items : List Node} {span : Span}
    (writable : ∀ item ∈ items, Writable item) : Writable (bracket.node items span) := by
  intro start
  obtain ⟨inside, placed, spells, same⟩ := exists_spelling writable (start + 1)
  refine ⟨_, _, .form bracket spells, ?_⟩
  rw [Node.bare, Bracket.respan_node, Bracket.respan_node]
  exact congrArg (bracket.node · _) same

theorem writable_of_lexical {node : Node} (lexical : Lexical node) : Writable node := by
  induction node using Node.sizeInduction with
  | step node smaller =>
      cases node with
      | list items span =>
          refine @writable_of_items .round items span fun item member => ?_
          exact smaller item (Node.size_of_item member) (lexical.of_contains (.list .self member))
      | vector items span =>
          refine @writable_of_items .square items span fun item member => ?_
          exact smaller item (Node.size_of_vector_item member)
            (lexical.of_contains (.vector .self member))
      | number value span =>
          exact fun start => ⟨_, _, .atom (.number (decimal_toString value.toInt)), rfl⟩
      | string value span =>
          intro start
          obtain ⟨written, quoted⟩ := exists_quoted value.toList
          refine ⟨_, _, .string quoted, ?_⟩
          rw [String.ofList_toList]
          rfl
      | symbol name span =>
          intro start
          refine ⟨_, _, .atom (.symbol (lexical name span .self)), ?_⟩
          rw [String.ofList_toList]
          rfl

/-- Nodes that are not too deep have renderings, and each of them is read as the nodes. -/
theorem reading_undoes_rendering {nodes : List Node} {limit : Nat}
    (lexical : ∀ node ∈ nodes, Lexical node) (shallow : ∀ node ∈ nodes, node.depth ≤ limit) :
    (∃ text placed, Renders text nodes placed) ∧
      ∀ text placed ending, Renders text nodes placed → LastComment ending →
        read (String.ofList (text ++ ending)) limit = .ok placed := by
  refine ⟨?_, ?_⟩
  · exact exists_spelling (fun node member => writable_of_lexical (lexical node member)) 0
  · rintro text placed ending ⟨spells, same⟩ last
    refine read_of_spells (String.toList_ofList ..) spells last fun node member => ?_
    have bare : node.bare ∈ nodes.map Node.bare := same ▸ List.mem_map_of_mem member
    obtain ⟨original, listed, differs⟩ := List.mem_map.mp bare
    rw [← Node.depth_of_bare differs]
    exact shallow original listed

def pairNodes : List Node :=
  [.list [.symbol "a" ⟨0, 0⟩, .number (-7) ⟨0, 0⟩] ⟨0, 0⟩, .string "é\n" ⟨0, 0⟩]

theorem pair_is_read_back :
    (∀ node ∈ pairNodes, Lexical node) ∧ (∀ node ∈ pairNodes, node.depth ≤ 1) ∧
      read "(a, -7)\"é\\n\";end" 1 =
        .ok [.list [.symbol "a" ⟨1, 1⟩, .number (-7) ⟨4, 2⟩] ⟨0, 7⟩, .string "é\n" ⟨7, 6⟩] := by
  have symbolic : Symbolic ['a'] :=
    symbolic_of_first (by decide) (by decide) (by decide)
      (List.forall_mem_singleton.mpr (by decide))
  have lexical : ∀ node ∈ pairNodes, Lexical node := by
    refine List.forall_mem_cons.mpr ⟨lexical_of_items nofun ?_, List.forall_mem_singleton.mpr ?_⟩
    · refine List.forall_mem_cons.mpr ⟨lexical_symbol symbolic, List.forall_mem_singleton.mpr ?_⟩
      exact lexical_of_items nofun (List.forall_mem_nil _)
    · exact lexical_of_items nofun (List.forall_mem_nil _)
  have shallow : ∀ node ∈ pairNodes, node.depth ≤ 1 := by
    simp [pairNodes, Node.depth_eq_nesting, Node.nesting, Node.nestingAll]
  have decimal : Decimal ['-', '7'] (-7 : Int64).toInt :=
    .negative ⟨List.cons_ne_nil _ _, List.forall_mem_singleton.mpr rfl⟩
  have quoted : Quoted ['é', '\n'] ['é', '\\', 'n'] :=
    .plain (by decide) (by decide) (.escaped .newline .nothing)
  have within : Spells 1 ['a', ',', ' ', '-', '7']
      [.symbol "a" ⟨1, 1⟩, .number (-7) ⟨4, 2⟩] :=
    @Spells.atom 1 ['a'] _ _ _ (.symbol symbolic) (.cons (by decide))
      (.blank (by decide) (.blank (by decide)
        (@Spells.atom 4 ['-', '7'] [] _ _ (.number decimal) .nil .nothing)))
  have rendered : Renders ['(', 'a', ',', ' ', '-', '7', ')', '"', 'é', '\\', 'n', '"'] pairNodes
      [.list [.symbol "a" ⟨1, 1⟩, .number (-7) ⟨4, 2⟩] ⟨0, 7⟩, .string "é\n" ⟨7, 6⟩] :=
    ⟨@Spells.form 0 .round ['a', ',', ' ', '-', '7'] _ _ _ within
      (@Spells.string 7 ['é', '\n'] ['é', '\\', 'n'] [] _ quoted .nothing), rfl⟩
  have last : LastComment [';', 'e', 'n', 'd'] := .inr ⟨['e', 'n', 'd'], rfl, by decide⟩
  have source : "(a, -7)\"é\\n\";end" =
      String.ofList (['(', 'a', ',', ' ', '-', '7', ')', '"', 'é', '\\', 'n', '"'] ++
        [';', 'e', 'n', 'd']) := rfl
  rw [source]
  exact ⟨lexical, shallow, (reading_undoes_rendering lexical shallow).2 _ _ _ rendered last⟩

end Reader
end FragmentLisp
