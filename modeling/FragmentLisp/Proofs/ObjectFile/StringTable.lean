import FragmentLisp.ObjectFile.StringTable
import Mathlib.Algebra.GroupWithZero.Nat
import Mathlib.Algebra.Order.BigOperators.Group.List
import Mathlib.Algebra.Order.Group.Nat
import Mathlib.Data.List.TakeWhile

/-!
A string table spells every name that it was made of at the offset that it gives for the name. Names
that share bytes are no exception: a name written later never changes the bytes before it.
-/

namespace FragmentLisp
namespace StringTable

def Spells (bytes : List UInt8) (offset : Nat) (name : List UInt8) : Prop :=
  ∃ before after, bytes = before ++ (name ++ 0 :: after) ∧ before.length = offset

theorem Spells.append {bytes : List UInt8} {offset : Nat} {name : List UInt8}
    (spelled : Spells bytes offset name) (more : List UInt8) :
    Spells (bytes ++ more) offset name := by
  obtain ⟨before, after, rfl, length⟩ := spelled
  exact ⟨before, after ++ more, by simp, length⟩

theorem nameAt_of_spells {bytes : List UInt8} {offset : Nat} {name : List UInt8}
    (spelled : Spells bytes offset name) (free : (0 : UInt8) ∉ name) :
    nameAt? bytes offset = some name := by
  obtain ⟨before, after, rfl, rfl⟩ := spelled
  have nonzero : ∀ byte ∈ name, (byte != 0) = true := by
    intro byte member
    rw [bne_iff_ne]
    rintro rfl
    exact free member
  unfold nameAt?
  rw [List.drop_left, List.span_eq_takeWhile_dropWhile, List.takeWhile_append_of_pos nonzero,
    List.dropWhile_append_of_pos nonzero]
  simp

/-- What has been written so far: the last name with a zero byte behind it stands at the end, and every
name that has an offset is spelled there. -/
structure Written (bytes : List UInt8) (size : Nat) (last : List UInt8)
    (offsets : List (List UInt8 × Nat)) : Prop where
  size_eq : size = bytes.length
  ending : ∃ before, bytes = before ++ (last ++ [0])
  spelled : ∀ entry ∈ offsets, Spells bytes entry.2 entry.1

/-- A name that the last one ends with is spelled where the last one ends. -/
theorem Written.share {bytes : List UInt8} {size : Nat} {last name : List UInt8}
    {offsets : List (List UInt8 × Nat)} (written : Written bytes size last offsets)
    (tail : name.isSuffixOf last = true) :
    Written bytes size last ((name, size - 1 - name.length) :: offsets) := by
  refine ⟨written.size_eq, written.ending, ?_⟩
  intro entry member
  rcases List.mem_cons.mp member with rfl | earlier
  · obtain ⟨before, ended⟩ := written.ending
    obtain ⟨front, rfl⟩ := List.isSuffixOf_iff_suffix.mp tail
    have size := written.size_eq
    refine ⟨before ++ front, [], by rw [ended]; simp, ?_⟩
    rw [ended] at size
    simp only [List.length_append, List.length_cons, List.length_nil] at size ⊢
    omega
  · exact written.spelled entry earlier

/-- A name written behind the others leaves them as they are. -/
theorem Written.extend {bytes : List UInt8} {size : Nat} {last : List UInt8}
    {offsets : List (List UInt8 × Nat)} (written : Written bytes size last offsets)
    (name : List UInt8) :
    Written (bytes ++ (name ++ [0])) (size + name.length + 1) name ((name, size) :: offsets) := by
  refine ⟨?_, ⟨bytes, rfl⟩, ?_⟩
  · rw [written.size_eq]
    simp [Nat.add_assoc]
  · intro entry member
    rcases List.mem_cons.mp member with rfl | earlier
    · exact ⟨bytes, [], rfl, written.size_eq.symm⟩
    · exact (written.spelled entry earlier).append _

theorem place_spells {reversed : List UInt8} {size : Nat} {last : List UInt8}
    {offsets : List (List UInt8 × Nat)} (names : List (List UInt8))
    (written : Written reversed.reverse size last offsets) :
    (∀ entry ∈ (place reversed size last offsets names).offsets,
      Spells (place reversed size last offsets names).bytes entry.2 entry.1) ∧
    (place reversed size last offsets names).offsets.map Prod.fst =
      (offsets.map Prod.fst).reverse ++ names ∧
    reversed.reverse <+: (place reversed size last offsets names).bytes ∧
    (place reversed size last offsets names).bytes.length ≤
      size + (names.map fun name => name.length + 1).sum := by
  induction names generalizing reversed size last offsets with
  | nil =>
      have length := written.size_eq
      refine ⟨?_, by simp [place], List.prefix_refl _, by simp [place, length]⟩
      intro entry member
      exact written.spelled entry (List.mem_reverse.mp member)
  | cons name rest inductionHypothesis =>
      rw [place]
      by_cases tail : name.isSuffixOf last = true
      · rw [if_pos tail]
        obtain ⟨spelled, names, kept, bounded⟩ := inductionHypothesis (written.share tail)
        refine ⟨spelled, by rw [names]; simp, kept, ?_⟩
        rw [List.map_cons, List.sum_cons]
        omega
      · rw [if_neg tail]
        have bytes : (0 :: name.reverseAux reversed).reverse = reversed.reverse ++ (name ++ [0]) := by
          rw [List.reverseAux_eq]
          simp
        obtain ⟨spelled, names, kept, bounded⟩ :=
          @inductionHypothesis (0 :: name.reverseAux reversed) _ _ _
            (by rw [bytes]; exact written.extend name)
        refine ⟨spelled, by rw [names]; simp, ?_, ?_⟩
        · rw [bytes] at kept
          exact (List.prefix_append _ _).trans kept
        · rw [List.map_cons, List.sum_cons]
          omega

theorem mem_arrange {names : List (List UInt8)} {name : List UInt8} :
    name ∈ arrange names ↔ name ∈ names ∧ name ≠ [] := by
  rw [arrange, List.mem_mergeSort, List.mem_filter]
  simp

theorem written_start : Written ([0] : List UInt8).reverse 1 [] [] :=
  ⟨rfl, ⟨[], rfl⟩, by simp⟩

theorem ofNames_first (names : List (List UInt8)) : Spells (ofNames names).bytes 0 [] := by
  obtain ⟨_, _, kept, _⟩ := place_spells (arrange names) written_start
  change _ <+: (ofNames names).bytes at kept
  obtain ⟨after, bytes⟩ := kept
  exact ⟨[], after, bytes.symm, rfl⟩

theorem ofNames_spells {names : List (List UInt8)} {name : List UInt8} (member : name ∈ names) :
    Spells (ofNames names).bytes ((ofNames names).offset name) name := by
  obtain ⟨spelled, listed, _, _⟩ := place_spells (arrange names) written_start
  change ∀ entry ∈ (ofNames names).offsets, _ at spelled
  change (ofNames names).offsets.map Prod.fst = _ at listed
  unfold offset
  cases found : (ofNames names).offsets.lookup name with
  | some offset =>
      obtain ⟨before, after, split, _⟩ := List.lookup_eq_some_iff.mp found
      have entry : (name, offset) ∈ (ofNames names).offsets := by
        rw [split]
        simp
      exact spelled _ entry
  | none =>
      have absent : name ∉ (ofNames names).offsets.map Prod.fst := by
        intro present
        obtain ⟨entry, entryMember, rfl⟩ := List.mem_map.mp present
        have missed := List.lookup_eq_none_iff.mp found entry entryMember
        simp at missed
      -- Only the empty name is left out, and the table begins with it.
      have empty : name = [] := by
        by_contra nonempty
        apply absent
        rw [listed]
        simpa using mem_arrange.mpr ⟨member, nonempty⟩
      rw [empty]
      exact ofNames_first names

theorem nameAt_offset {names : List (List UInt8)} {name : List UInt8} (member : name ∈ names)
    (free : (0 : UInt8) ∉ name) :
    nameAt? (ofNames names).bytes ((ofNames names).offset name) = some name :=
  nameAt_of_spells (ofNames_spells member) free

theorem offset_lt_length {names : List (List UInt8)} {name : List UInt8} (member : name ∈ names) :
    (ofNames names).offset name < (ofNames names).bytes.length := by
  obtain ⟨before, after, bytes, length⟩ := ofNames_spells member
  rw [bytes, ← length]
  simp only [List.length_append, List.length_cons]
  omega

/-- A table is never longer than its names one after another would be. -/
theorem ofNames_length (names : List (List UInt8)) :
    (ofNames names).bytes.length ≤ 1 + (names.map fun name => name.length + 1).sum := by
  obtain ⟨_, _, _, bounded⟩ := place_spells (arrange names) written_start
  change (ofNames names).bytes.length ≤ _ at bounded
  have sorted : ((arrange names).map fun name => name.length + 1).sum =
      ((names.filter fun name => !name.isEmpty).map fun name => name.length + 1).sum :=
    ((List.mergeSort_perm _ _).map _).sum_eq
  have kept : ((names.filter fun name => !name.isEmpty).map fun name => name.length + 1).sum ≤
      (names.map fun name => name.length + 1).sum :=
    (List.filter_sublist.map _).sum_le_sum (fun _ _ => Nat.zero_le _)
  omega

end StringTable
end FragmentLisp
