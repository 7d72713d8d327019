import FragmentLisp.Proofs.Reader.Soundness

/-!
Where nodes stand in a source. The span of a node is the range of bytes that its text covers, siblings
stand one after another with blanks and comments between them, items stand between the brackets of their
form, and the text of a node means the same wherever it is read.
-/

open String (utf8Len)

namespace FragmentLisp

def Span.stop (span : Span) : Nat :=
  span.start + span.length

namespace Reader

inductive Trivia : List Char → Prop
  | nothing : Trivia []
  | blank {character : Char} {rest : List Char} (blank : character ∈ blanks) (tail : Trivia rest) :
      Trivia (character :: rest)
  | comment {body rest : List Char} (line : '\n' ∉ body) (tail : Trivia rest) :
      Trivia (';' :: (body ++ '\n' :: rest))

/-- Nodes stand in a text that begins at an offset, in their order, with trivia between and around
them. -/
inductive Arranged : Nat → List Char → List Node → Prop
  | last {start : Nat} {gap : List Char} (trivia : Trivia gap) : Arranged start gap []
  | next {start : Nat} {gap token rest : List Char} {node : Node} {nodes : List Node}
      (trivia : Trivia gap) (span : node.span = ⟨start + utf8Len gap, utf8Len token⟩)
      (tail : Arranged (start + utf8Len gap + utf8Len token) rest nodes) :
      Arranged start (gap ++ (token ++ rest)) (node :: nodes)

/-- A range of bytes holds a text, which stands between two characters of the source. -/
def Covers (source : List Char) (span : Span) (text : List Char) : Prop :=
  ∃ before after, source = before ++ (text ++ after) ∧ utf8Len before = span.start ∧
    utf8Len text = span.length

def Precedes (left right : Node) : Prop :=
  left.span.stop ≤ right.span.start

structure Enclosed (bracket : Bracket) (items : List Node) (span : Span) (text : List Char) :
    Prop where
  arranged : ∃ inside, text = bracket.opening :: (inside ++ [bracket.closing]) ∧
    Arranged (span.start + 1) inside items
  ordered : items.Pairwise Precedes
  within : ∀ item ∈ items, span.start < item.span.start ∧ item.span.stop < span.stop

/-- The span of a node covers a text that is read on its own as this node. -/
def Faithful (source : List Char) (limit : Nat) (node : Node) : Prop :=
  ∃ text, Covers source node.span text ∧
    (∃ alone, read (String.ofList text) limit = .ok [alone] ∧
      alone.shift node.span.start = node) ∧
    ∀ bracket items span, node = Bracket.node bracket items span → Enclosed bracket items span text

/-! Trivia and tokens, as the grammar puts them together. -/

theorem trivia_of_spells {start : Nat} {text : List Char} (spells : Spells start text []) :
    Trivia text := by
  generalize none : ([] : List Node) = nodes at spells
  induction spells with
  | nothing => exact .nothing
  | blank blank tail inductionHypothesis => exact .blank blank (inductionHypothesis none)
  | comment line tail inductionHypothesis => exact .comment line (inductionHypothesis none)
  | atom atomic ends tail inductionHypothesis => cases none
  | string quoted tail inductionHypothesis => cases none
  | form bracket within tail innerHypothesis outerHypothesis => cases none

theorem first_of_spells {start : Nat} {text : List Char} {node : Node} {nodes : List Node}
    (spells : Spells start text (node :: nodes)) :
    ∃ gap token rest, text = gap ++ (token ++ rest) ∧ Trivia gap ∧
      Written (start + utf8Len gap) token node ∧
      Spells (start + utf8Len gap + utf8Len token) rest nodes := by
  generalize shape : node :: nodes = all at spells
  induction spells with
  | nothing => cases shape
  | @blank start character rest all blank tail inductionHypothesis =>
      obtain ⟨gap, token, others, rfl, trivia, written, later⟩ := inductionHypothesis shape
      refine ⟨character :: gap, token, others, rfl, .blank blank trivia, ?_, ?_⟩
      all_goals rw [utf8Len_of_blank blank, Nat.add_comm (utf8Len gap), ← Nat.add_assoc]
      · exact written
      · exact later
  | @comment start body rest all line tail inductionHypothesis =>
      obtain ⟨gap, token, others, rfl, trivia, written, later⟩ := inductionHypothesis shape
      refine ⟨';' :: (body ++ '\n' :: gap), token, others, ?_, .comment line trivia, ?_, ?_⟩
      · rw [List.cons_append, List.append_assoc, List.cons_append]
      all_goals rw [@utf8Len_enclosed_append ';' '\n' rfl rfl, ← Nat.add_assoc start]
      · exact written
      · exact later
  | atom atomic ends tail =>
      cases shape
      exact ⟨[], _, _, rfl, .nothing, .atom atomic, tail⟩
  | @string start meant written rest all quoted tail =>
      cases shape
      refine ⟨[], '"' :: (written ++ ['"']), rest, ?_, .nothing, .string quoted, ?_⟩
      · rw [List.nil_append, List.cons_append, List.append_assoc, List.singleton_append]
      · rw [@utf8Len_enclosed '"' '"' rfl rfl]
        exact tail
  | @form start bracket inside rest items all within tail =>
      cases shape
      refine ⟨[], bracket.opening :: (inside ++ [bracket.closing]), rest, ?_, .nothing,
        .form bracket within, ?_⟩
      · rw [List.nil_append, List.cons_append, List.append_assoc, List.singleton_append]
      · rw [utf8Len_enclosed bracket.utf8Size_opening bracket.utf8Size_closing]
        exact tail

theorem arranged_of_spells {start : Nat} {text : List Char} {nodes : List Node}
    (spells : Spells start text nodes) : Arranged start text nodes := by
  induction nodes generalizing start text with
  | nil => exact .last (trivia_of_spells spells)
  | cons node nodes inductionHypothesis =>
      obtain ⟨gap, token, rest, rfl, trivia, written, later⟩ := first_of_spells spells
      exact .next trivia written.span_eq (inductionHypothesis later)

theorem written_of_spells {start : Nat} {text : List Char} {nodes : List Node} {node : Node}
    (spells : Spells start text nodes) (member : node ∈ nodes) :
    ∃ before token after, text = before ++ (token ++ after) ∧
      Written (start + utf8Len before) token node := by
  induction nodes generalizing start text with
  | nil => cases member
  | cons first nodes inductionHypothesis =>
      obtain ⟨gap, token, rest, rfl, trivia, written, later⟩ := first_of_spells spells
      rcases List.mem_cons.mp member with rfl | member
      · exact ⟨gap, token, rest, rfl, written⟩
      · obtain ⟨before, others, after, rfl, placed⟩ := inductionHypothesis later member
        refine ⟨gap ++ (token ++ before), others, after, by simp, ?_⟩
        rw [String.utf8Len_append, String.utf8Len_append, ← Nat.add_assoc, ← Nat.add_assoc]
        exact placed

/-! The order of siblings. -/

namespace Arranged
variable {start : Nat} {text : List Char} {nodes : List Node}

theorem bounds (arranged : Arranged start text nodes) :
    ∀ node ∈ nodes, start ≤ node.span.start ∧ node.span.stop ≤ start + utf8Len text := by
  induction arranged with
  | last trivia => exact List.forall_mem_nil _
  | @next start gap token rest node nodes trivia span tail inductionHypothesis =>
      rw [String.utf8Len_append, String.utf8Len_append]
      refine List.forall_mem_cons.mpr ⟨?_, fun later member => ?_⟩
      · rw [Span.stop, span]
        dsimp only
        omega
      · have inRest := inductionHypothesis later member
        omega

theorem ordered (arranged : Arranged start text nodes) : nodes.Pairwise Precedes := by
  induction arranged with
  | last trivia => exact .nil
  | @next start gap token rest node nodes trivia span tail inductionHypothesis =>
      refine .cons (fun later member => ?_) inductionHypothesis
      rw [Precedes, Span.stop, span]
      exact (tail.bounds later member).1

end Arranged

/-! The same text somewhere else. -/

theorem atomic_unshift {text : List Char} {start distance length : Nat} {node : Node}
    (atomic : Atomic text ⟨start + distance, length⟩ node) :
    ∃ other, Atomic text ⟨start, length⟩ other ∧ other.shift distance = node := by
  cases atomic with
  | number decimal => exact ⟨_, .number decimal, by rw [Node.shift, Node.respan]⟩
  | symbol symbolic => exact ⟨_, .symbol symbolic, by rw [Node.shift, Node.respan]⟩

theorem spells_unshift {start distance : Nat} {text : List Char} {nodes : List Node}
    (spells : Spells (start + distance) text nodes) :
    ∃ others, Spells start text others ∧ others.map (Node.shift distance) = nodes := by
  -- Each part begins at some distance of its own start, which the induction has to find.
  generalize place : start + distance = origin at spells
  induction spells generalizing start with
  | nothing => exact ⟨[], .nothing, rfl⟩
  | blank blank tail inductionHypothesis =>
      obtain ⟨others, later, rfl⟩ := @inductionHypothesis (start + 1) (by omega)
      exact ⟨others, .blank blank later, rfl⟩
  | @comment origin body rest nodes line tail inductionHypothesis =>
      obtain ⟨others, later, rfl⟩ := @inductionHypothesis (start + (utf8Len body + 2)) (by omega)
      exact ⟨others, .comment line later, rfl⟩
  | @atom origin text rest node nodes atomic ends tail inductionHypothesis =>
      obtain ⟨others, later, rfl⟩ := @inductionHypothesis (start + utf8Len text) (by omega)
      subst place
      obtain ⟨other, unshifted, rfl⟩ := atomic_unshift atomic
      exact ⟨other :: others, .atom unshifted ends later, rfl⟩
  | @string origin meant written rest nodes quoted tail inductionHypothesis =>
      obtain ⟨others, later, rfl⟩ := @inductionHypothesis (start + (utf8Len written + 2)) (by omega)
      subst place
      exact ⟨_, .string quoted later, by rw [List.map_cons, Node.shift, Node.respan]⟩
  | @form origin bracket inside rest items nodes within tail innerHypothesis outerHypothesis =>
      obtain ⟨inner, unshifted, rfl⟩ := @innerHypothesis (start + 1) (by omega)
      obtain ⟨others, later, rfl⟩ := @outerHypothesis (start + (utf8Len inside + 2)) (by omega)
      subst place
      exact ⟨_, .form bracket unshifted later, by
        rw [List.map_cons, Node.shift, Bracket.respan_node]⟩

/-! From the nodes of a source to the nodes within them. -/

namespace Covers
variable {source : List Char}

theorem inner {span : Span} {before text after : List Char}
    (covers : Covers source span (before ++ (text ++ after))) :
    Covers source ⟨span.start + utf8Len before, utf8Len text⟩ text := by
  obtain ⟨left, right, rfl, start, length⟩ := covers
  refine ⟨left ++ before, after ++ right, by simp, ?_, rfl⟩
  rw [String.utf8Len_append, start]

end Covers

def Stands (source : List Char) (node : Node) : Prop :=
  ∃ text, Covers source node.span text ∧ Written node.span.start text node

theorem stands_of_spells {source text : List Char} {span : Span} {nodes : List Node}
    (covers : Covers source span text) (spells : Spells span.start text nodes) :
    ∀ node ∈ nodes, Stands source node := by
  intro node member
  obtain ⟨before, token, after, rfl, written⟩ := written_of_spells spells member
  refine ⟨token, ?_, ?_⟩
  · rw [written.span_eq]
    exact covers.inner
  · rw [written.span_eq]
    exact written

theorem Stands.items {source : List Char} {bracket : Bracket} {items : List Node} {span : Span}
    (stands : Stands source (bracket.node items span)) : ∀ item ∈ items, Stands source item := by
  obtain ⟨text, covers, written⟩ := stands
  rw [Bracket.span_node] at covers written
  obtain ⟨inside, rfl, within⟩ := written.inside_form
  have length : utf8Len [bracket.opening] = 1 := by
    rw [String.utf8Len_cons, bracket.utf8Size_opening]
    rfl
  have inner : Covers source ⟨span.start + 1, utf8Len inside⟩ inside := by
    rw [← length]
    exact @Covers.inner _ span [bracket.opening] inside [bracket.closing] covers
  exact stands_of_spells inner within

theorem Stands.of_contains {source : List Char} {root node : Node} (stands : Stands source root)
    (within : root.Contains node) : Stands source node := by
  induction within with
  | self => exact stands
  | @list items span item within member outer =>
      exact @Stands.items source .round items span outer item member
  | @vector items span item within member outer =>
      exact @Stands.items source .square items span outer item member

theorem Written.enclosed {bracket : Bracket} {items : List Node} {span : Span} {text : List Char}
    (written : Written span.start text (bracket.node items span)) :
    Enclosed bracket items span text := by
  have covered := written.span_eq
  obtain ⟨inside, rfl, within⟩ := written.inside_form
  have arranged := arranged_of_spells within
  rw [Bracket.span_node, utf8Len_enclosed bracket.utf8Size_opening bracket.utf8Size_closing] at covered
  refine ⟨⟨inside, rfl, arranged⟩, arranged.ordered, fun item member => ?_⟩
  have bounds := arranged.bounds item member
  have stop : span.stop = span.start + (utf8Len inside + 2) := by
    rw [Span.stop, covered]
  omega

/-- What stands in a node lies within the span of the node. -/
theorem Stands.bounds {source : List Char} {root node : Node} (stands : Stands source root)
    (within : root.Contains node) :
    root.span.start ≤ node.span.start ∧ node.span.stop ≤ root.span.stop := by
  induction within with
  | self => exact ⟨Nat.le_refl _, Nat.le_refl _⟩
  | @list items span item within member outer =>
      obtain ⟨text, _, written⟩ := stands.of_contains within
      have inside := (@Written.enclosed .round items span text written).within item member
      exact ⟨Nat.le_trans outer.1 inside.1.le, Nat.le_trans inside.2.le outer.2⟩
  | @vector items span item within member outer =>
      obtain ⟨text, _, written⟩ := stands.of_contains within
      have inside := (@Written.enclosed .square items span text written).within item member
      exact ⟨Nat.le_trans outer.1 inside.1.le, Nat.le_trans inside.2.le outer.2⟩

/-- No node of a source begins before the first one, and all of them end in the source. -/
theorem bounds_of_read {source : String} {limit : Nat} {first : Node} {rest : List Node}
    (accepted : read source limit = .ok (first :: rest)) {root node : Node}
    (member : root ∈ first :: rest) (within : root.Contains node) :
    first.span.start ≤ node.span.start ∧ node.span.stop ≤ source.utf8ByteSize := by
  obtain ⟨text, ending, shape, spells, -, -⟩ := read_eq_ok_iff.mp accepted
  have arranged := arranged_of_spells spells
  have covers : Covers source.toList ⟨0, utf8Len text⟩ text := ⟨[], ending, shape, rfl, rfl⟩
  have inside := (stands_of_spells covers spells root member).bounds within
  have total : source.utf8ByteSize = utf8Len text + utf8Len ending := by
    rw [← String.utf8Len_append, ← shape, ← String.utf8ByteSize_ofList, String.ofList_toList]
  have stop := (arranged.bounds root member).2
  have start : first.span.start ≤ root.span.start := by
    rcases List.mem_cons.mp member with rfl | later
    · exact Nat.le_refl _
    · have before := (List.pairwise_cons.mp arranged.ordered).1 root later
      exact Nat.le_trans (Nat.le_add_right _ _) before
  omega

theorem Stands.faithful {source : List Char} {limit : Nat} {node : Node}
    (stands : Stands source node) (shallow : node.nesting ≤ limit) : Faithful source limit node := by
  obtain ⟨text, covers, written⟩ := stands
  refine ⟨text, covers, ?_, ?_⟩
  · have spells : Spells (0 + node.span.start) text [node] := by
      rw [Nat.zero_add]
      exact written.spells
    obtain ⟨others, alone, shifted⟩ := spells_unshift spells
    obtain ⟨other, rfl, same⟩ := List.map_eq_singleton_iff.mp shifted
    refine ⟨other, read_eq_ok_iff.mpr ⟨text, [], by simp, alone, .inl rfl, ?_⟩, same⟩
    rw [List.forall_mem_singleton, Node.depth_eq_nesting,
      ← Node.nesting_shift node.span.start other, same]
    exact shallow
  · rintro bracket items span rfl
    rw [Bracket.span_node] at written
    exact written.enclosed

/-- What the reader says about places is right, for all nodes of a source that it takes. -/
theorem spans_are_faithful {source : String} {limit : Nat} {nodes : List Node}
    (accepted : read source limit = .ok nodes) :
    (∃ text ending, source.toList = text ++ ending ∧ Arranged 0 text nodes ∧ LastComment ending) ∧
      nodes.Pairwise Precedes ∧
      ∀ root ∈ nodes, ∀ node, root.Contains node → Faithful source.toList limit node := by
  obtain ⟨text, ending, shape, spells, last, shallow⟩ := read_eq_ok_iff.mp accepted
  have arranged := arranged_of_spells spells
  refine ⟨⟨text, ending, shape, arranged, last⟩, arranged.ordered, ?_⟩
  intro root member node within
  have covers : Covers source.toList ⟨0, utf8Len text⟩ text := ⟨[], ending, shape, rfl, rfl⟩
  have stands := (stands_of_spells covers spells root member).of_contains within
  refine stands.faithful (Nat.le_trans (Node.nesting_of_contains within) ?_)
  rw [← Node.depth_eq_nesting]
  exact shallow root member

def nestedNodes : List Node :=
  [.list [.symbol "a" ⟨1, 1⟩, .vector [.number 5 ⟨4, 1⟩] ⟨3, 3⟩] ⟨0, 7⟩, .string "é" ⟨8, 4⟩]

theorem nested_spans_are_faithful :
    read "(a [5]) \"é\" ; end" 2 = .ok nestedNodes ∧ nestedNodes.Pairwise Precedes ∧
      ∀ root ∈ nestedNodes, ∀ node, root.Contains node →
        Faithful "(a [5]) \"é\" ; end".toList 2 node := by
  have accepted : read "(a [5]) \"é\" ; end" 2 = .ok nestedNodes := by rfl
  exact ⟨accepted, (spans_are_faithful accepted).2⟩

end Reader
end FragmentLisp
