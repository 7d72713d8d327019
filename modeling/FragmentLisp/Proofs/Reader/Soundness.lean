import FragmentLisp.Proofs.Reader.Acceptance

/-!
Every source that the reader takes spells the nodes that it returns. What the reader holds halfway says
what the rest of the source has to be: the end of the token it is in the middle of, the rest of the
innermost open level, its closing bracket, and so on outward. This is shown from the end of the source
backwards, one character at a time.
-/

open String (utf8Len)

namespace FragmentLisp
namespace Reader

/-- What is still ahead between two tokens makes the forms read so far into the forms of the source. -/
def Closes (limit : Nat) (nodes : List Node) :
    Nat → Nat → List Node → List OpenForm → List Char → Prop
  | offset, depth, level, [], ahead =>
      ∃ text ending items, ahead = text ++ ending ∧ Spells offset text items ∧
        LastComment ending ∧ (∀ item ∈ items, depth + item.nesting ≤ limit) ∧
        nodes = level.reverse ++ items
  | offset, depth, level, innermost :: enclosing, ahead =>
      ∃ inside after items, ahead = inside ++ innermost.bracket.closing :: after ∧
        Spells offset inside items ∧ (∀ item ∈ items, depth + item.nesting ≤ limit) ∧
        Closes limit nodes (offset + (utf8Len inside + 1)) (depth - 1)
          (innermost.bracket.node (level.reverse ++ items)
            ⟨innermost.start, offset + (utf8Len inside + 1) - innermost.start⟩ :: innermost.before)
          enclosing after

def Completes (limit : Nat) (nodes : List Node) : Progress → List Char → Prop
  | ⟨offset, depth, level, enclosing, .nothing⟩, ahead =>
      Closes limit nodes offset depth level enclosing ahead
  | ⟨offset, depth, level, enclosing, .comment⟩, ahead =>
      (∃ body after, ahead = body ++ '\n' :: after ∧ '\n' ∉ body ∧
        Closes limit nodes (offset + (utf8Len body + 1)) depth level enclosing after) ∨
      ('\n' ∉ ahead ∧ enclosing = [] ∧ nodes = level.reverse)
  | ⟨offset, depth, level, enclosing, .atom start characters⟩, ahead =>
      ∃ text after node, ahead = text ++ after ∧ (∀ character ∈ text, character ∉ delimiters) ∧
        Ends after ∧
        (Atom.ofText (characters.reverse ++ text)).node? ⟨start, offset + utf8Len text - start⟩ =
          some node ∧
        Closes limit nodes (offset + utf8Len text) depth (node :: level) enclosing after
  | ⟨offset, depth, level, enclosing, .string start characters⟩, ahead =>
      ∃ meant written after, ahead = written ++ '"' :: after ∧ Quoted meant written ∧
        Closes limit nodes (offset + (utf8Len written + 1)) depth
          (.string (String.ofList (characters.reverse ++ meant))
            ⟨start, offset + (utf8Len written + 1) - start⟩ :: level) enclosing after
  | ⟨offset, depth, level, enclosing, .escape start characters⟩, ahead =>
      ∃ character mark meant written after, ahead = mark :: (written ++ '"' :: after) ∧
        Escape character mark ∧ Quoted meant written ∧
        Closes limit nodes (offset + (utf8Len written + 2)) depth
          (.string (String.ofList (characters.reverse ++ character :: meant))
            ⟨start, offset + (utf8Len written + 2) - start⟩ :: level) enclosing after

/-- A token may be put before what is still ahead, if it may be put before every text there. -/
theorem Closes.prepend {limit offset depth : Nat} {nodes level : List Node}
    {enclosing : List OpenForm} {after : List Char} (token : List Char) (placed : List Node)
    (closes : Closes limit nodes (offset + utf8Len token) depth (placed.reverse ++ level) enclosing
      after)
    (leads : ∀ rest items, rest <+: after → Spells (offset + utf8Len token) rest items →
      Spells offset (token ++ rest) (placed ++ items))
    (shallow : ∀ node ∈ placed, depth + node.nesting ≤ limit) :
    Closes limit nodes offset depth level enclosing (token ++ after) := by
  cases enclosing with
  | nil =>
      obtain ⟨text, ending, items, rfl, spells, last, itemsShallow, rfl⟩ := closes
      refine ⟨token ++ text, ending, placed ++ items, (List.append_assoc ..).symm,
        leads text items (List.prefix_append ..) spells, last,
        List.forall_mem_append.mpr ⟨shallow, itemsShallow⟩, ?_⟩
      rw [List.reverse_append, List.reverse_reverse, List.append_assoc]
  | cons innermost enclosing =>
      obtain ⟨inside, after, items, rfl, spells, itemsShallow, outward⟩ := closes
      refine ⟨token ++ inside, after, placed ++ items, (List.append_assoc ..).symm,
        leads inside items (List.prefix_append ..) spells,
        List.forall_mem_append.mpr ⟨shallow, itemsShallow⟩, ?_⟩
      rw [List.reverse_append, List.reverse_reverse, List.append_assoc, Nat.add_assoc offset] at outward
      rw [String.utf8Len_append, Nat.add_assoc (utf8Len token)]
      exact outward

theorem Closes.prependEnclosed {limit offset depth : Nat} {nodes level : List Node}
    {enclosing : List OpenForm} {left right : Char} (leftSize : left.utf8Size = 1)
    (rightSize : right.utf8Size = 1) (inside : List Char) {after : List Char} (placed : List Node)
    (closes : Closes limit nodes (offset + (utf8Len inside + 2)) depth (placed.reverse ++ level)
      enclosing after)
    (leads : ∀ rest items, Spells (offset + (utf8Len inside + 2)) rest items →
      Spells offset (left :: (inside ++ right :: rest)) (placed ++ items))
    (shallow : ∀ node ∈ placed, depth + node.nesting ≤ limit) :
    Closes limit nodes offset depth level enclosing (left :: (inside ++ right :: after)) := by
  have length := utf8Len_enclosed leftSize rightSize inside
  have parts (rest : List Char) :
      left :: (inside ++ right :: rest) = left :: (inside ++ [right]) ++ rest := by
    rw [List.cons_append, List.append_assoc, List.singleton_append]
  rw [← length] at closes leads
  rw [parts]
  refine Closes.prepend _ placed closes (fun rest items _ spells => ?_) shallow
  rw [← parts]
  exact leads rest items spells

section
variable {limit offset depth start : Nat} {nodes level : List Node} {enclosing : List OpenForm}
  {character : Char} {characters rest : List Char}

/-! Back over one character within a token. -/

theorem completes_in_comment (line : character ≠ '\n')
    (completes : Completes limit nodes
      ⟨offset + character.utf8Size, depth, level, enclosing, .comment⟩ rest) :
    Completes limit nodes ⟨offset, depth, level, enclosing, .comment⟩ (character :: rest) := by
  rcases completes with ⟨body, after, rfl, noLine, closes⟩ | ⟨noLine, outermost, all⟩
  · refine .inl ⟨character :: body, after, rfl, ?_, ?_⟩
    · exact fun member => (List.mem_cons.mp member).elim (fun same => line same.symm) noLine
    · have stop : offset + character.utf8Size + (utf8Len body + 1) =
          offset + (utf8Len (character :: body) + 1) := by
        rw [String.utf8Len_cons]
        omega
      rw [← stop]
      exact closes
  · refine .inr ⟨?_, outermost, all⟩
    exact fun member => (List.mem_cons.mp member).elim (fun same => line same.symm) noLine

theorem completes_at_line_feed (closes : Closes limit nodes (offset + 1) depth level enclosing rest) :
    Completes limit nodes ⟨offset, depth, level, enclosing, .comment⟩ ('\n' :: rest) :=
  .inl ⟨[], rest, rfl, List.not_mem_nil, closes⟩

theorem completes_in_atom (plain : character ∉ delimiters)
    (completes : Completes limit nodes
      ⟨offset + character.utf8Size, depth, level, enclosing, .atom start (character :: characters)⟩
      rest) :
    Completes limit nodes ⟨offset, depth, level, enclosing, .atom start characters⟩
      (character :: rest) := by
  obtain ⟨text, after, node, rfl, others, ends, taken, closes⟩ := completes
  have stop : offset + character.utf8Size + utf8Len text = offset + utf8Len (character :: text) := by
    rw [String.utf8Len_cons]
    omega
  refine ⟨character :: text, after, node, rfl, List.forall_mem_cons.mpr ⟨plain, others⟩, ends, ?_, ?_⟩
  · rw [List.reverse_cons, List.append_assoc, List.singleton_append, stop] at taken
    exact taken
  · rw [← stop]
    exact closes

theorem completes_in_string (noQuote : character ≠ '"') (noBackslash : character ≠ '\\')
    (completes : Completes limit nodes
      ⟨offset + character.utf8Size, depth, level, enclosing, .string start (character :: characters)⟩
      rest) :
    Completes limit nodes ⟨offset, depth, level, enclosing, .string start characters⟩
      (character :: rest) := by
  obtain ⟨meant, written, after, rfl, quoted, closes⟩ := completes
  have stop : offset + character.utf8Size + (utf8Len written + 1) =
      offset + (utf8Len (character :: written) + 1) := by
    rw [String.utf8Len_cons]
    omega
  refine ⟨character :: meant, character :: written, after, rfl,
    .plain noQuote noBackslash quoted, ?_⟩
  rw [List.reverse_cons, List.append_assoc, List.singleton_append, stop] at closes
  exact closes

theorem completes_at_closing_quote
    (closes : Closes limit nodes (offset + 1) depth
      (.string (String.ofList characters.reverse) ⟨start, offset + 1 - start⟩ :: level) enclosing
      rest) :
    Completes limit nodes ⟨offset, depth, level, enclosing, .string start characters⟩
      ('"' :: rest) := by
  refine ⟨[], [], rest, rfl, .nothing, ?_⟩
  rw [List.append_nil]
  exact closes

theorem completes_at_backslash
    (completes : Completes limit nodes
      ⟨offset + 1, depth, level, enclosing, .escape start characters⟩ rest) :
    Completes limit nodes ⟨offset, depth, level, enclosing, .string start characters⟩
      ('\\' :: rest) := by
  obtain ⟨meantFirst, mark, meant, written, after, rfl, escape, quoted, closes⟩ := completes
  have stop : offset + 1 + (utf8Len written + 2) =
      offset + (utf8Len ('\\' :: mark :: written) + 1) := by
    rw [String.utf8Len_cons, String.utf8Len_cons, utf8Size_of_escape escape]
    exact (Nat.add_assoc ..).trans (congrArg (offset + ·) (Nat.add_comm ..))
  refine ⟨meantFirst :: meant, '\\' :: mark :: written, after, rfl, .escaped escape quoted, ?_⟩
  rw [← stop]
  exact closes

theorem completes_at_escape {meantFirst : Char} (escape : Escape meantFirst character)
    (completes : Completes limit nodes
      ⟨offset + 1, depth, level, enclosing, .string start (meantFirst :: characters)⟩ rest) :
    Completes limit nodes ⟨offset, depth, level, enclosing, .escape start characters⟩
      (character :: rest) := by
  obtain ⟨meant, written, after, rfl, quoted, closes⟩ := completes
  have stop : offset + 1 + (utf8Len written + 1) = offset + (utf8Len written + 2) := by omega
  refine ⟨meantFirst, character, meant, written, after, rfl, escape, quoted, ?_⟩
  rw [List.reverse_cons, List.append_assoc, List.singleton_append, stop] at closes
  exact closes

/-! Back over the first character of a token. -/

theorem closes_at_blank (blank : character ∈ blanks)
    (closes : Closes limit nodes (offset + 1) depth level enclosing rest) :
    Closes limit nodes offset depth level enclosing (character :: rest) := by
  have length : utf8Len [character] = 1 := utf8Len_of_blank blank []
  refine Closes.prepend [character] [] (by rw [length]; exact closes) ?_ (List.forall_mem_nil _)
  intro text items _ spells
  rw [length] at spells
  exact .blank blank spells

theorem closes_at_semicolon
    (completes : Completes limit nodes ⟨offset + 1, depth, level, enclosing, .comment⟩ rest) :
    Closes limit nodes offset depth level enclosing (';' :: rest) := by
  rcases completes with ⟨body, after, rfl, line, closes⟩ | ⟨line, rfl, rfl⟩
  · have stop : offset + 1 + (utf8Len body + 1) = offset + (utf8Len body + 2) := by omega
    rw [stop] at closes
    exact Closes.prependEnclosed rfl rfl body [] closes (fun _ _ => .comment line)
      (List.forall_mem_nil _)
  · exact ⟨[], ';' :: rest, [], rfl, .nothing, .inr ⟨rest, rfl, line⟩, List.forall_mem_nil _,
      (List.append_nil _).symm⟩

theorem closes_at_quote (bounded : depth ≤ limit)
    (completes : Completes limit nodes ⟨offset + 1, depth, level, enclosing, .string offset []⟩
      rest) :
    Closes limit nodes offset depth level enclosing ('"' :: rest) := by
  obtain ⟨meant, written, after, rfl, quoted, closes⟩ := completes
  have stop : offset + 1 + (utf8Len written + 1) = offset + (utf8Len written + 2) := by omega
  rw [stop, Nat.add_sub_cancel_left] at closes
  refine Closes.prependEnclosed rfl rfl written [_] closes (fun _ _ => .string quoted) ?_
  rw [List.forall_mem_singleton, Node.nesting]
  exact bounded

theorem closes_at_plain (bounded : depth ≤ limit) (plain : character ∉ delimiters)
    (completes : Completes limit nodes
      ⟨offset + character.utf8Size, depth, level, enclosing, .atom offset [character]⟩ rest) :
    Closes limit nodes offset depth level enclosing (character :: rest) := by
  obtain ⟨text, after, node, rfl, others, ends, taken, closes⟩ := completes
  have length : offset + character.utf8Size + utf8Len text =
      offset + utf8Len (character :: text) := by
    rw [String.utf8Len_cons]
    omega
  rw [length, Nat.add_sub_cancel_left] at taken
  rw [length] at closes
  have atomic : Atomic (character :: text) ⟨offset, utf8Len (character :: text)⟩ node :=
    atomic_of_node? (List.cons_ne_nil _ _) (List.forall_mem_cons.mpr ⟨plain, others⟩) taken
  refine Closes.prepend (character :: text) [node] closes ?_ ?_
  · rintro rest items ⟨later, rfl⟩ spells
    exact .atom atomic ends.of_append spells
  · rw [List.forall_mem_singleton, atomic.nesting_eq]
    exact bounded

theorem closes_at_opening (bracket : Bracket) (room : depth < limit)
    (inner : Closes limit nodes (offset + 1) (depth + 1) [] (⟨bracket, offset, level⟩ :: enclosing)
      rest) :
    Closes limit nodes offset depth level enclosing (bracket.opening :: rest) := by
  obtain ⟨inside, after, items, rfl, within, shallow, closes⟩ := inner
  have stop : offset + 1 + (utf8Len inside + 1) = offset + (utf8Len inside + 2) := by omega
  rw [stop, Nat.add_sub_cancel_left] at closes
  refine Closes.prependEnclosed bracket.utf8Size_opening bracket.utf8Size_closing inside [_] closes
    (fun _ _ => .form bracket within) ?_
  have below : Node.nestingAll items ≤ limit - (depth + 1) :=
    Node.nestingAll_le_iff.mpr fun item member => by
      have deep := shallow item member
      omega
  rw [List.forall_mem_singleton, Bracket.nesting_node, List.reverse_nil, List.nil_append]
  omega

theorem closes_at_closing {before : List Node} (bracket : Bracket)
    (outer : Closes limit nodes (offset + 1) (depth - 1)
      (bracket.node level.reverse ⟨start, offset + 1 - start⟩ :: before) enclosing rest) :
    Closes limit nodes offset depth level (⟨bracket, start, before⟩ :: enclosing)
      (bracket.closing :: rest) := by
  refine ⟨[], rest, [], rfl, .nothing, List.forall_mem_nil _, ?_⟩
  rw [List.append_nil]
  exact outer

/-! What a source that is taken does not hold. -/

theorem step_of_run {progress : Progress}
    (accepted : (run limit progress (character :: rest)).1 = .ok nodes) :
    ∃ next, progress.step limit character = .ok next := by
  rw [run] at accepted
  cases stepped : progress.step limit character with
  | ok next => exact ⟨next, rfl⟩
  | error error =>
      rw [stepped] at accepted
      simp only [stop] at accepted
      split at accepted <;> cases accepted

theorem room_of_run {bracket : Bracket}
    (accepted : (run limit ⟨offset, depth, level, enclosing, .nothing⟩
      (bracket.opening :: rest)).1 = .ok nodes) : depth < limit := by
  obtain ⟨next, stepped⟩ := step_of_run accepted
  rw [step_opening bracket _ rfl, Progress.openForm] at stepped
  by_contra full
  rw [if_pos (Nat.not_lt.mp full)] at stepped
  cases stepped

/-- A closing bracket closes a form that the same kind of bracket opened. -/
theorem enclosing_of_run {bracket : Bracket}
    (accepted : (run limit ⟨offset, depth, level, enclosing, .nothing⟩
      (bracket.closing :: rest)).1 = .ok nodes) :
    ∃ start before outer, enclosing = ⟨bracket, start, before⟩ :: outer := by
  obtain ⟨next, stepped⟩ := step_of_run accepted
  rw [step_closing bracket _ rfl, Progress.closeForm] at stepped
  cases enclosing with
  | nil => cases stepped
  | cons innermost outer =>
      by_cases matching : innermost.bracket = bracket
      · obtain ⟨_, start, before⟩ := innermost
        cases matching
        exact ⟨start, before, outer, rfl⟩
      · simp only [if_neg matching] at stepped
        cases stepped

theorem escape_of_run
    (accepted : (run limit ⟨offset, depth, level, enclosing, .escape start characters⟩
      (character :: rest)).1 = .ok nodes) : ∃ meant, Escape meant character := by
  obtain ⟨next, stepped⟩ := step_of_run accepted
  cases known : Progress.escaped? character with
  | some meant => exact ⟨meant, escaped?_eq_some_iff.mp known⟩
  | none =>
      simp only [Progress.step, known] at stepped
      cases stepped

theorem finishAtom_of_no_node
    (none : (Atom.ofText characters.reverse).node? ⟨start, offset - start⟩ = none) :
    ∃ error, Progress.finishAtom ⟨offset, depth, level, enclosing, .atom start characters⟩ =
      .error error := by
  rw [Progress.finishAtom]
  cases atom : Atom.ofText characters.reverse with
  | number value =>
      rw [atom] at none
      cases none
  | symbol name =>
      rw [atom] at none
      cases none
  | outOfRange literal =>
      simp only [atom]
      exact ⟨_, rfl⟩

theorem node?_of_run (ends : Ends rest)
    (accepted : (run limit ⟨offset, depth, level, enclosing, .atom start characters⟩ rest).1 =
      .ok nodes) :
    ∃ node, (Atom.ofText characters.reverse).node? ⟨start, offset - start⟩ = some node := by
  cases taken : (Atom.ofText characters.reverse).node? ⟨start, offset - start⟩ with
  | some node => exact ⟨node, rfl⟩
  | none =>
      exfalso
      obtain ⟨error, failed⟩ :
          ∃ error, Progress.finishAtom ⟨offset, depth, level, enclosing, .atom start characters⟩ =
            .error error :=
        finishAtom_of_no_node taken
      cases rest with
      | nil =>
          rw [run, Progress.finish, failed] at accepted
          cases accepted
      | cons character rest =>
          obtain ⟨next, stepped⟩ := step_of_run accepted
          have delimiter : isDelimiter character = true := isDelimiter_iff.mpr (ends character rfl)
          have finishing := (if_pos delimiter).symm.trans stepped
          rw [failed] at finishing
          cases finishing

/-! Back over a whole source. -/

theorem closes_of_run (bounded : depth ≤ limit)
    (later : ∀ progress, progress.depth ≤ limit → (run limit progress rest).1 = .ok nodes →
      Completes limit nodes progress rest)
    (accepted : (run limit ⟨offset, depth, level, enclosing, .nothing⟩ (character :: rest)).1 =
      .ok nodes) :
    Closes limit nodes offset depth level enclosing (character :: rest) := by
  rcases character_cases character with blank | rfl | rfl | ⟨bracket, rfl⟩ | ⟨bracket, rfl⟩ | plain
  · rw [run_blank blank] at accepted
    exact closes_at_blank blank (later _ bounded accepted)
  · rw [run_semicolon] at accepted
    exact closes_at_semicolon (later _ bounded accepted)
  · rw [run_quote] at accepted
    exact closes_at_quote bounded (later _ bounded accepted)
  · have room := room_of_run accepted
    rw [run_opening bracket room] at accepted
    exact closes_at_opening bracket room (later ⟨_, _, _, _, .nothing⟩ room accepted)
  · obtain ⟨start, before, outer, rfl⟩ := enclosing_of_run accepted
    rw [run_closing] at accepted
    exact closes_at_closing bracket (later _ (Nat.le_trans (Nat.sub_le _ _) bounded) accepted)
  · rw [run_plain plain] at accepted
    exact closes_at_plain bounded plain (later _ bounded accepted)

theorem closes_at_end
    (accepted : (run limit ⟨offset, depth, level, enclosing, .nothing⟩ []).1 = .ok nodes) :
    Closes limit nodes offset depth level enclosing [] := by
  cases enclosing with
  | nil =>
      exact ⟨[], [], [], rfl, .nothing, .inl rfl, List.forall_mem_nil _,
        (Except.ok.inj accepted).symm.trans (List.append_nil _).symm⟩
  | cons innermost outer => cases accepted

theorem completes_at_end {pending : Pending}
    (accepted : (run limit ⟨offset, depth, level, enclosing, pending⟩ []).1 = .ok nodes) :
    Completes limit nodes ⟨offset, depth, level, enclosing, pending⟩ [] := by
  cases pending with
  | nothing => exact closes_at_end accepted
  | comment =>
      cases enclosing with
      | nil => exact .inr ⟨List.not_mem_nil, rfl, (Except.ok.inj accepted).symm⟩
      | cons innermost outer => cases accepted
  | atom start characters =>
      obtain ⟨node, taken⟩ := node?_of_run .nil accepted
      rw [run_finishAtom taken .nil] at accepted
      refine ⟨[], [], node, rfl, List.forall_mem_nil _, .nil, ?_, closes_at_end accepted⟩
      rw [List.append_nil]
      exact taken
  | string start characters => cases accepted
  | escape start characters => cases accepted

theorem completes_of_run {ahead : List Char} (progress : Progress) (bounded : progress.depth ≤ limit)
    (accepted : (run limit progress ahead).1 = .ok nodes) :
    Completes limit nodes progress ahead := by
  induction ahead generalizing progress with
  | nil => exact completes_at_end accepted
  | cons character rest later =>
      obtain ⟨offset, depth, level, enclosing, pending⟩ := progress
      cases pending with
      | nothing => exact closes_of_run bounded later accepted
      | comment =>
          by_cases line : character = '\n'
          · subst line
            rw [run_line_feed] at accepted
            exact completes_at_line_feed (later ⟨_, _, _, _, .nothing⟩ bounded accepted)
          · rw [run_in_comment line] at accepted
            exact completes_in_comment line (later _ bounded accepted)
      | atom start characters =>
          by_cases delimiter : character ∈ delimiters
          · have ends : Ends (character :: rest) := .cons delimiter
            obtain ⟨node, taken⟩ := node?_of_run ends accepted
            -- The delimiter belongs to what follows the atom, so the text before it is empty here.
            rw [run_finishAtom taken ends] at accepted
            have closes := closes_of_run bounded later accepted
            refine ⟨[], character :: rest, node, rfl, List.forall_mem_nil _, ends, ?_, closes⟩
            rw [List.append_nil]
            exact taken
          · rw [run_in_atom delimiter] at accepted
            exact completes_in_atom delimiter (later _ bounded accepted)
      | string start characters =>
          by_cases backslash : character = '\\'
          · subst backslash
            rw [run_backslash] at accepted
            exact completes_at_backslash (later _ bounded accepted)
          · by_cases quote : character = '"'
            · subst quote
              rw [run_closing_quote] at accepted
              exact completes_at_closing_quote (later ⟨_, _, _, _, .nothing⟩ bounded accepted)
            · rw [run_in_string quote backslash] at accepted
              exact completes_in_string quote backslash (later _ bounded accepted)
      | escape start characters =>
          obtain ⟨meant, escape⟩ := escape_of_run accepted
          rw [run_escape escape] at accepted
          exact completes_at_escape escape (later _ bounded accepted)

end

/-- The reader takes exactly the sources that spell nodes, of which none is too deep, and that may end
with a comment; it returns these nodes. -/
theorem read_eq_ok_iff {source : String} {limit : Nat} {nodes : List Node} :
    read source limit = .ok nodes ↔
      ∃ text ending, source.toList = text ++ ending ∧ Spells 0 text nodes ∧ LastComment ending ∧
        ∀ node ∈ nodes, node.depth ≤ limit := by
  constructor
  · intro accepted
    obtain ⟨text, ending, items, shape, spells, last, shallow, rfl⟩ :
        Closes limit nodes 0 0 [] [] source.toList :=
      completes_of_run ⟨0, 0, [], [], .nothing⟩ (Nat.zero_le _) accepted
    refine ⟨text, ending, shape, spells, last, fun node member => ?_⟩
    rw [Node.depth_eq_nesting, ← Nat.zero_add node.nesting]
    exact shallow node member
  · rintro ⟨text, ending, shape, spells, last, shallow⟩
    exact read_of_spells shape spells last shallow

end Reader
end FragmentLisp
