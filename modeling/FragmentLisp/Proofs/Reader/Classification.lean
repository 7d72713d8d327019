import FragmentLisp.Proofs.Reader.Resumption
import FragmentLisp.Proofs.Reader.Soundness
import Mathlib.Data.List.Induction

/-!
What the reader makes of the atoms of a source. The text of an atom decides, wherever the atom stands: an
integer that 64 bits can hold becomes a number, an integer that they cannot hold is refused where it
begins, and every other text becomes a symbol. Only an integer with a plus sign in front is not refused
when it is out of range; it becomes a symbol too.
-/

open String (utf8Len)

namespace FragmentLisp
namespace Reader

/-- A source goes on with an atom after a text. No character that could belong to the atom follows it. -/
def HasAtom (before text : List Char) (source : String) : Prop :=
  ∃ rest, source.toList = before ++ (text ++ rest) ∧ Ends rest

/-- An atom may stand after a text: the text ends between two tokens, and not in an atom. -/
structure AtomAfter (before text : List Char) : Prop where
  nonempty : text ≠ []
  plain : ∀ character ∈ text, character ∉ delimiters
  between : (lex before).zone = .between
  begins : ∀ character ∈ before.getLast?, character ∈ delimiters

def StopsIn (limit : Nat) (before : List Char) : Prop :=
  ∃ error : ReadError, Within 0 before error.offset ∧
    ∀ source : String, before <+: source.toList → read source limit = .error error

structure Yields (limit : Nat) (before text : List Char) (node : Node) : Prop where
  /-- What comes before the atom, and the atom, do not stop the reader. -/
  passes : ∃ source nodes, HasAtom before text source ∧ read source limit = .ok nodes
  holds : ∀ source nodes, HasAtom before text source → read source limit = .ok nodes →
    ∃ root ∈ nodes, root.Contains node

/-! How far the reader gets. -/

structure Reaches (limit : Nat) (front : List Char) (progress : Progress) : Prop where
  walk : Walk limit 0 0 front progress
  run_append : ∀ rest, run limit beginning (front ++ rest) = run limit progress rest
  last : ∀ start characters, progress.pending = .atom start characters →
    ∃ character ∈ front.getLast?, character ∉ delimiters

section
variable {limit start : Nat} {progress next : Progress} {character : Char} {characters : List Char}

theorem plain_of_begin (between : progress.pending = .nothing)
    (begun : progress.begin limit character = .ok next)
    (atom : next.pending = .atom start characters) : character ∉ delimiters := by
  have possible := begins limit progress character
  rw [begun] at possible
  generalize result : Except.ok next = outcome at possible
  cases possible with
  | blank | comment | string =>
      cases result
      simp [Progress.advance, between] at atom
  | opening bracket =>
      unfold Progress.openForm at result
      split at result <;> cases result
      simp [Progress.advance, between] at atom
  | closing bracket =>
      unfold Progress.closeForm at result
      split at result
      · cases result
      · split at result <;> cases result
        simp [Progress.advance, between] at atom
  | atom plain => exact plain

theorem plain_of_step (stepped : progress.step limit character = .ok next)
    (atom : next.pending = .atom start characters) : character ∉ delimiters := by
  obtain ⟨offset, depth, level, enclosing, pending⟩ := progress
  cases pending with
  | nothing => exact plain_of_begin rfl stepped atom
  | comment =>
      simp only [Progress.step] at stepped
      split at stepped <;> cases stepped <;> cases atom
  | atom tokenStart begun =>
      simp only [Progress.step] at stepped
      split at stepped
      · rcases Progress.finishAtom_cases ⟨offset, depth, level, enclosing, .atom tokenStart begun⟩
          rfl with ⟨node, finished⟩ | ⟨literal, refused⟩
        · rw [finished] at stepped
          exact plain_of_begin rfl stepped atom
        · rw [refused] at stepped
          cases stepped
      · rename_i noDelimiter
        exact mt isDelimiter_iff.mpr noDelimiter
  | string tokenStart begun =>
      simp only [Progress.step] at stepped
      split at stepped
      · cases stepped
        cases atom
      · split at stepped <;> cases stepped <;> cases atom
  | escape tokenStart begun =>
      simp only [Progress.step] at stepped
      split at stepped <;> cases stepped
      cases atom

end

theorem reaches_nil (limit : Nat) : Reaches limit [] beginning where
  walk := Walk.first (Nat.zero_le limit)
  run_append := fun _ => rfl
  last := by
    rintro start characters ⟨⟩

theorem Reaches.extend {limit : Nat} {front : List Char} {progress next : Progress}
    {character : Char} (reaches : Reaches limit front progress)
    (stepped : progress.step limit character = .ok next) :
    Reaches limit (front ++ [character]) next where
  walk := by
    have walked := reaches.walk.step character
    rwa [stepped] at walked
  run_append := by
    intro rest
    rw [List.append_assoc, reaches.run_append, List.singleton_append, run_of_step stepped]
  last := by
    intro start characters atom
    exact ⟨character, List.getLast?_concat .., plain_of_step stepped atom⟩

/-- What the reader meets first in a text does not depend on what follows the text. -/
theorem reaches_or_stops (limit : Nat) (front : List Char) :
    (∃ progress, Reaches limit front progress) ∨ StopsIn limit front := by
  induction front using List.reverseRecOn with
  | nil => exact .inl ⟨beginning, reaches_nil limit⟩
  | append_singleton front character inductionHypothesis =>
      rcases inductionHypothesis with ⟨progress, reaches⟩ | ⟨error, place, stops⟩
      · cases stepped : progress.step limit character with
        | ok next => exact .inl ⟨next, reaches.extend stepped⟩
        | error error =>
            have place := reaches.walk.step character
            rw [stepped] at place
            refine .inr ⟨error, place.extend, ?_⟩
            rintro source ⟨rest, shape⟩
            rw [read_eq, ← shape, List.append_assoc, reaches.run_append, List.singleton_append,
              run_of_error stepped, error_of_stop]
      · refine .inr ⟨error, place.extend, fun source within => stops source ?_⟩
        exact (List.prefix_append front [character]).trans within

/-- Before an atom the reader is between two tokens. -/
theorem Reaches.between {limit : Nat} {before text : List Char} {progress : Progress}
    (reaches : Reaches limit before progress) (atom : AtomAfter before text) :
    progress.pending = .nothing := by
  have zone := reaches.walk.zone
  rw [atom.between] at zone
  cases pending : progress.pending with
  | nothing => rfl
  | atom start characters =>
      obtain ⟨character, last, plain⟩ := reaches.last start characters pending
      exact absurd (atom.begins character last) plain
  | comment | string | escape =>
      rw [pending] at zone
      cases zone

/-! Through the atom and on. -/

section
variable {limit offset depth start : Nat} {level : List Node} {enclosing : List OpenForm}

theorem run_outOfRange {characters rest : List Char} {literal : String}
    (taken : Atom.ofText characters.reverse = .outOfRange literal) (ends : Ends rest) :
    (run limit ⟨offset, depth, level, enclosing, .atom start characters⟩ rest).1 =
      .error ⟨.integerOutOfRange literal, start⟩ := by
  have refused : Progress.finishAtom ⟨offset, depth, level, enclosing, .atom start characters⟩ =
      .error ⟨.integerOutOfRange literal, start⟩ := by
    simp only [Progress.finishAtom, taken]
  cases rest with
  | nil =>
      rw [run, Progress.finish, refused]
      rfl
  | cons character rest =>
      have delimiter : isDelimiter character = true := isDelimiter_iff.mpr (ends character rfl)
      have stepped :
          Progress.step limit ⟨offset, depth, level, enclosing, .atom start characters⟩ character =
            .error ⟨.integerOutOfRange literal, start⟩ := by
        refine (if_pos delimiter).trans ?_
        rw [refused]
        rfl
      rw [run_of_error stepped, error_of_stop]

theorem run_closings :
    ∃ nodes, (run limit ⟨offset, depth, level, enclosing, .nothing⟩
      (enclosing.map fun form => form.bracket.closing)).1 = .ok nodes := by
  induction enclosing generalizing offset depth level with
  | nil => exact ⟨level.reverse, rfl⟩
  | cons innermost enclosing inductionHypothesis =>
      obtain ⟨bracket, start, before⟩ := innermost
      rw [List.map_cons, run_closing]
      exact inductionHypothesis

theorem ends_closings (enclosing : List OpenForm) :
    Ends (enclosing.map fun form => form.bracket.closing) := by
  cases enclosing with
  | nil => exact .nil
  | cons innermost enclosing => exact .cons (closing_mem_delimiters innermost.bracket)

theorem Closes.held {nodes : List Node} {ahead : List Char} {node : Node}
    (closes : Closes limit nodes offset depth level enclosing ahead)
    (read : ∃ item ∈ level, item.Contains node) : ∃ root ∈ nodes, root.Contains node := by
  obtain ⟨item, member, within⟩ := read
  induction enclosing generalizing offset depth level ahead item with
  | nil =>
      obtain ⟨text, ending, items, rfl, spells, last, shallow, rfl⟩ := closes
      exact ⟨item, List.mem_append_left _ (List.mem_reverse.mpr member), within⟩
  | cons innermost enclosing inductionHypothesis =>
      obtain ⟨inside, after, items, rfl, spells, shallow, outward⟩ := closes
      have member : item ∈ level.reverse ++ items :=
        List.mem_append_left _ (List.mem_reverse.mpr member)
      refine inductionHypothesis outward _ List.mem_cons_self ?_
      cases innermost.bracket with
      | round => exact (Node.Contains.list .self member).trans within
      | square => exact (Node.Contains.vector .self member).trans within

end

section
variable {limit : Nat} {before text : List Char} {progress : Progress}

/-- A text that is no integer out of range is taken for its node. -/
theorem Reaches.yields (reaches : Reaches limit before progress) (atom : AtomAfter before text)
    {node : Node}
    (taken : (Atom.ofText text).node? ⟨utf8Len before, utf8Len text⟩ = some node) :
    Yields limit before text node := by
  have between := reaches.between atom
  have place := reaches.walk.offset
  have bounded := reaches.walk.bounded
  have run_append := reaches.run_append
  obtain ⟨offset, depth, level, enclosing, pending⟩ := progress
  obtain rfl : pending = .nothing := between
  obtain rfl : offset = utf8Len before := place.trans (Nat.zero_add _)
  have through : ∀ rest, Ends rest → run limit beginning (before ++ (text ++ rest)) =
      run limit ⟨utf8Len before + utf8Len text, depth, node :: level, enclosing, .nothing⟩ rest := by
    intro rest ends
    rw [run_append, run_text atom.nonempty atom.plain]
    refine run_finishAtom ?_ ends
    rw [List.reverse_reverse, Nat.add_sub_cancel_left]
    exact taken
  constructor
  · obtain ⟨nodes, accepted⟩ := @run_closings limit (utf8Len before + utf8Len text) depth
      (node :: level) enclosing
    refine ⟨String.ofList (before ++ (text ++ enclosing.map fun form => form.bracket.closing)), nodes,
      ⟨_, String.toList_ofList, ends_closings enclosing⟩, ?_⟩
    rw [read_eq, String.toList_ofList, through _ (ends_closings enclosing)]
    exact accepted
  · rintro source nodes ⟨rest, shape, ends⟩ accepted
    rw [read_eq, shape, through rest ends] at accepted
    have closes : Closes limit nodes (utf8Len before + utf8Len text) depth (node :: level) enclosing
        rest := completes_of_run ⟨_, _, _, _, .nothing⟩ bounded accepted
    exact closes.held ⟨node, List.mem_cons_self, .self⟩

theorem Reaches.refuses (reaches : Reaches limit before progress) (atom : AtomAfter before text)
    {literal : String} (taken : Atom.ofText text = .outOfRange literal) {source : String}
    (has : HasAtom before text source) :
    read source limit = .error ⟨.integerOutOfRange literal, utf8Len before⟩ := by
  obtain ⟨rest, shape, ends⟩ := has
  have between := reaches.between atom
  have place := reaches.walk.offset
  have run_append := reaches.run_append
  obtain ⟨offset, depth, level, enclosing, pending⟩ := progress
  obtain rfl : pending = .nothing := between
  obtain rfl : offset = utf8Len before := place.trans (Nat.zero_add _)
  rw [read_eq, shape, run_append, run_text atom.nonempty atom.plain]
  refine run_outOfRange ?_ ends
  rw [List.reverse_reverse]
  exact taken

end

/-! What the text of an atom is taken for. -/

/-- An integer that 64 bits cannot hold, with a plus sign in front. -/
def PlusOutOfRange (text : List Char) : Prop :=
  text.head? = some '+' ∧ ∃ value, Decimal text value ∧ ¬Fits value

section
variable {text : List Char} {value : Int}

theorem ofText_of_fits (decimal : Decimal text value) (fits : Fits value) :
    ∃ number : Int64, number.toInt = value ∧ Atom.ofText text = .number number := by
  cases held : int64? value with
  | none => exact absurd fits (int64?_eq_none_iff.mp held)
  | some number =>
      obtain rfl := int64?_eq_some_iff.mp held
      exact ⟨number, rfl, ofText_of_decimal decimal⟩

theorem ofText_of_not_fits (decimal : Decimal text value) (large : ¬Fits value) :
    Atom.ofText text =
      if text.head? = some '+' then .symbol (String.ofList text)
      else .outOfRange (String.ofList text) := by
  rw [Atom.ofText, integer?_eq_some_iff.mpr decimal]
  simp only [int64?_eq_none_iff.mpr large]

theorem ofText_of_no_decimal (none : ∀ value, ¬Decimal text value) :
    Atom.ofText text = .symbol (String.ofList text) := by
  rw [Atom.ofText]
  cases spelled : integer? text with
  | none => rfl
  | some value => exact absurd (integer?_eq_some_iff.mp spelled) (none value)

end

/-- The reader makes of an atom what its text says it is, and loses no integer. -/
structure Classified (limit : Nat) (before text : List Char) : Prop where
  number : ∀ value, Decimal text value → Fits value → ∃ number : Int64, number.toInt = value ∧
    Yields limit before text (.number number ⟨utf8Len before, utf8Len text⟩)
  outOfRange : ∀ value, Decimal text value → ¬Fits value → ∀ source, HasAtom before text source →
    read source limit = .error ⟨.integerOutOfRange (String.ofList text), utf8Len before⟩
  symbol : (∀ value, ¬Decimal text value) →
    Yields limit before text (.symbol (String.ofList text) ⟨utf8Len before, utf8Len text⟩)

section
variable {limit : Nat} {before text : List Char} {progress : Progress}

theorem Reaches.yields_symbol (reaches : Reaches limit before progress)
    (atom : AtomAfter before text) (taken : Atom.ofText text = .symbol (String.ofList text)) :
    Yields limit before text (.symbol (String.ofList text) ⟨utf8Len before, utf8Len text⟩) :=
  reaches.yields atom (by rw [taken, Atom.node?])

theorem Reaches.classified (reaches : Reaches limit before progress) (atom : AtomAfter before text)
    (within : ¬PlusOutOfRange text) : Classified limit before text where
  number := by
    intro value decimal fits
    obtain ⟨number, same, taken⟩ := ofText_of_fits decimal fits
    exact ⟨number, same, reaches.yields atom (by rw [taken, Atom.node?])⟩
  outOfRange := by
    intro value decimal large source has
    have noPlus : ¬text.head? = some '+' := fun plus => within ⟨plus, value, decimal, large⟩
    have taken := ofText_of_not_fits decimal large
    rw [if_neg noPlus] at taken
    exact reaches.refuses atom taken has
  symbol := fun none => reaches.yields_symbol atom (ofText_of_no_decimal none)

end

/-- Unless the reader stops before it gets to an atom, the text of the atom alone decides what the atom
becomes. The one kind of integer that is lost is an integer out of range with a plus sign in front. -/
theorem atom_is_classified_by_its_text (limit : Nat) {before text : List Char}
    (atom : AtomAfter before text) :
    StopsIn limit before ∨
      (Classified limit before text ↔ ¬PlusOutOfRange text) ∧
        (PlusOutOfRange text →
          Yields limit before text
            (.symbol (String.ofList text) ⟨utf8Len before, utf8Len text⟩)) := by
  rcases reaches_or_stops limit before with ⟨progress, reaches⟩ | stops
  · refine .inr ?_
    have lost : PlusOutOfRange text → Yields limit before text
        (.symbol (String.ofList text) ⟨utf8Len before, utf8Len text⟩) := by
      rintro ⟨plus, value, decimal, large⟩
      refine reaches.yields_symbol atom ?_
      rw [ofText_of_not_fits decimal large, if_pos plus]
    refine ⟨⟨fun classified beyond => ?_, reaches.classified atom⟩, lost⟩
    obtain ⟨source, nodes, has, accepted⟩ := (lost beyond).passes
    obtain ⟨-, value, decimal, large⟩ := beyond
    rw [classified.outOfRange value decimal large source has] at accepted
    cases accepted
  · exact .inl stops

theorem least_integer_is_classified :
    AtomAfter "(- ".toList "-9223372036854775808".toList ∧
      (StopsIn 128 "(- ".toList ∨
        (Classified 128 "(- ".toList "-9223372036854775808".toList ↔
            ¬PlusOutOfRange "-9223372036854775808".toList) ∧
          (PlusOutOfRange "-9223372036854775808".toList →
            Yields 128 "(- ".toList "-9223372036854775808".toList
              (.symbol "-9223372036854775808" ⟨3, 20⟩))) := by
  have decimal : Decimal "-9223372036854775808".toList (-9223372036854775808) :=
    integer?_eq_some_iff.mp (by decide)
  have atom : AtomAfter "(- ".toList "-9223372036854775808".toList := by
    refine ⟨decimal.nonempty, decimal.plain, by decide, ?_⟩
    rintro _ ⟨⟩
    decide
  exact ⟨atom, atom_is_classified_by_its_text 128 atom⟩

/-- One more than the greatest integer, with its sign, becomes a symbol. -/
theorem positive_integer_is_lost :
    AtomAfter [] "+9223372036854775808".toList ∧
      HasAtom [] "+9223372036854775808".toList "+9223372036854775808" ∧
      Decimal "+9223372036854775808".toList 9223372036854775808 ∧ ¬Fits 9223372036854775808 ∧
      read "+9223372036854775808" 128 = .ok [.symbol "+9223372036854775808" ⟨0, 20⟩] ∧
      ¬Classified 128 [] "+9223372036854775808".toList := by
  have has : HasAtom [] "+9223372036854775808".toList "+9223372036854775808" := ⟨[], by decide, .nil⟩
  have decimal : Decimal "+9223372036854775808".toList 9223372036854775808 :=
    integer?_eq_some_iff.mp (by decide)
  have large : ¬Fits 9223372036854775808 := fun fits => absurd fits.2 (by decide)
  have accepted :
      read "+9223372036854775808" 128 = .ok [.symbol "+9223372036854775808" ⟨0, 20⟩] := by rfl
  have atom : AtomAfter [] "+9223372036854775808".toList :=
    ⟨decimal.nonempty, decimal.plain, by decide, nofun⟩
  refine ⟨atom, has, decimal, large, accepted, ?_⟩
  intro classified
  rw [classified.outOfRange _ decimal large _ has] at accepted
  cases accepted

end Reader
end FragmentLisp
