import FragmentLisp.Proofs.Reader.Soundness

/-!
Strings that are put between quotes as they are. Without quotes and backslashes in it, a string is written
as it is meant. Any other string is meant by a longer text only, so whatever is read from it between quotes
begins with another string, if it can be read at all.
-/

open String (utf8Len)

namespace FragmentLisp
namespace Reader

def Unescaped (text : List Char) : Prop :=
  ∀ character ∈ text, character ≠ '"' ∧ character ≠ '\\'

instance : DecidablePred Unescaped := fun text =>
  List.decidableBAll (fun character => character ≠ '"' ∧ character ≠ '\\') text

theorem quoted_of_unescaped {text : List Char} (unescaped : Unescaped text) : Quoted text text := by
  induction text with
  | nil => exact .nothing
  | cons character rest inductionHypothesis =>
      obtain ⟨⟨noQuote, noBackslash⟩, others⟩ := List.forall_mem_cons.mp unescaped
      exact .plain noQuote noBackslash (inductionHypothesis others)

section
variable {meant written : List Char}

/-- Escapes only make a string longer. -/
theorem Quoted.utf8Len_le (quoted : Quoted meant written) : utf8Len meant ≤ utf8Len written := by
  induction quoted with
  | nothing => exact Nat.le_refl _
  | plain noQuote noBackslash tail inductionHypothesis =>
      rw [String.utf8Len_cons, String.utf8Len_cons]
      omega
  | @escaped character mark meant written escape tail inductionHypothesis =>
      have narrow : character.utf8Size = 1 := by cases escape <;> rfl
      have backslash : '\\'.utf8Size = 1 := rfl
      rw [String.utf8Len_cons, String.utf8Len_cons, String.utf8Len_cons]
      omega

/-- A string that is written without getting longer has no escapes. -/
theorem Quoted.unescaped (quoted : Quoted meant written) (short : utf8Len written ≤ utf8Len meant) :
    Unescaped meant := by
  induction quoted with
  | nothing => exact List.forall_mem_nil _
  | plain noQuote noBackslash tail inductionHypothesis =>
      rw [String.utf8Len_cons, String.utf8Len_cons] at short
      exact List.forall_mem_cons.mpr ⟨⟨noQuote, noBackslash⟩, inductionHypothesis (by omega)⟩
  | @escaped character mark meant written escape tail inductionHypothesis =>
      have narrow : character.utf8Size = 1 := by cases escape <;> rfl
      have backslash : '\\'.utf8Size = 1 := rfl
      have wide := mark.utf8Size_pos
      have others := tail.utf8Len_le
      rw [String.utf8Len_cons, String.utf8Len_cons, String.utf8Len_cons] at short
      omega

end

theorem string_of_spells {start : Nat} {tail : List Char} {nodes : List Node}
    (spells : Spells start ('"' :: tail) nodes) :
    ∃ meant written rest others, Quoted meant written ∧ tail = written ++ '"' :: rest ∧
      nodes = .string (String.ofList meant) ⟨start, utf8Len written + 2⟩ :: others := by
  generalize shape : '"' :: tail = text at spells
  cases spells with
  | nothing => cases shape
  | blank blank tail =>
      obtain ⟨rfl, _⟩ := List.cons.inj shape
      exact absurd blank (by decide)
  | comment line tail => exact absurd (List.cons.inj shape).1 (by decide)
  | @atom _ text rest node nodes atomic ends tail =>
      obtain ⟨first, others, rfl⟩ := List.exists_cons_of_ne_nil atomic.nonempty
      obtain ⟨rfl, _⟩ := List.cons.inj shape
      exact absurd (by decide) (atomic.plain '"' List.mem_cons_self)
  | string quoted later => exact ⟨_, _, _, _, quoted, (List.cons.inj shape).2, rfl⟩
  | form bracket within tail =>
      have first := (List.cons.inj shape).1
      cases bracket <;> exact absurd first (by decide)

section
variable {text : String} {limit : Nat}

theorem toList_enclosed (text : String) :
    ("\"" ++ text ++ "\"").toList = '"' :: (text.toList ++ ['"']) := by
  rw [String.toList_append, String.toList_append]
  rfl

/-- A string without quotes and backslashes is read back from between quotes. -/
theorem read_enclosed (unescaped : Unescaped text.toList) (limit : Nat) :
    read ("\"" ++ text ++ "\"") limit = .ok [.string text ⟨0, utf8Len text.toList + 2⟩] := by
  have spells := (@Written.string 0 _ _ (quoted_of_unescaped unescaped)).spells
  rw [String.ofList_toList] at spells
  refine read_of_spells ((toList_enclosed text).trans (List.append_nil _).symm) spells (.inl rfl) ?_
  refine List.forall_mem_singleton.mpr ?_
  rw [Node.depth_eq_nesting, Node.nesting]
  exact Nat.zero_le limit

/-- What is read from a text between quotes begins with a string that is no longer than the text, and only
an unescaped text comes first itself. -/
theorem string_of_read {nodes : List Node} (accepted : read ("\"" ++ text ++ "\"") limit = .ok nodes) :
    ∃ first span others, nodes = .string first span :: others ∧
      first.utf8ByteSize ≤ text.utf8ByteSize ∧ (first = text → Unescaped text.toList) := by
  obtain ⟨spelled, ending, shape, spells, last, _⟩ := read_eq_ok_iff.mp accepted
  rw [toList_enclosed] at shape
  obtain ⟨front, rfl⟩ : ∃ front, spelled = '"' :: front := by
    cases spelled with
    | nil =>
        rcases last with rfl | ⟨body, rfl, _⟩
        · cases shape
        · exact absurd (List.cons.inj shape).1 (by decide)
    | cons character front => exact ⟨front, congrArg (· :: front) (List.cons.inj shape).1.symm⟩
  obtain ⟨meant, written, rest, others, quoted, rfl, rfl⟩ := string_of_spells spells
  have lengths := congrArg utf8Len shape
  have quote : '"'.utf8Size = 1 := rfl
  simp only [List.cons_append, String.utf8Len_cons, String.utf8Len_append, String.utf8Len_nil,
    quote] at lengths
  have longer := quoted.utf8Len_le
  refine ⟨_, _, others, rfl, ?_, ?_⟩
  · rw [String.utf8ByteSize_ofList, ← String.utf8Len_toList]
    omega
  · intro same
    have characters := congrArg String.toList same
    rw [String.toList_ofList] at characters
    rw [← characters] at lengths ⊢
    exact quoted.unescaped (by omega)

end

end Reader
end FragmentLisp
