import FragmentLisp.Bindings
import Mathlib.Data.List.Nodup

/-!
Bindings as they are given, one name after the other. However often a name is given, it has one entry, with
the value that was given last.
-/

namespace FragmentLisp
namespace Bindings

def ofInserts (given : List (String × Value)) : Bindings :=
  given.foldl (fun bindings entry => bindings.insert entry.1 entry.2) empty

def names (bindings : Bindings) : List String :=
  bindings.entries.map Prod.fst

section Entries

variable {name : String} {value : Value} {entries : List (String × Value)}

theorem insertEntry_names (name : String) (value : Value) (entries : List (String × Value)) :
    (insertEntry name value entries).map Prod.fst =
      if name ∈ entries.map Prod.fst then entries.map Prod.fst
      else entries.map Prod.fst ++ [name] := by
  induction entries with
  | nil => rfl
  | cons entry rest inductionHypothesis =>
      obtain ⟨earlier, old⟩ := entry
      by_cases same : earlier = name
      · simp [insertEntry, same]
      · have other : name ≠ earlier := fun equal => same equal.symm
        simp only [insertEntry, same, if_false, List.map_cons, inductionHypothesis, List.mem_cons,
          other, false_or]
        split <;> rfl

theorem lookup_cons_if (name own : String) (value : Value) (entries : List (String × Value)) :
    ((own, value) :: entries).lookup name =
      if name = own then some value else entries.lookup name := by
  by_cases same : name = own
  · simp [same]
  · have other : (name == own) = false := by simpa using same
    simp [List.lookup_cons, other, same]

theorem lookup_insertEntry (name : String) (value : Value) (entries : List (String × Value))
    (other : String) :
    (insertEntry name value entries).lookup other =
      if other = name then some value else entries.lookup other := by
  induction entries with
  | nil => exact lookup_cons_if other name value []
  | cons entry rest inductionHypothesis =>
      obtain ⟨earlier, old⟩ := entry
      by_cases given : earlier = name
      · subst given
        by_cases same : other = earlier
        · simp [insertEntry, same]
        · simp [insertEntry, same, lookup_cons_if]
      · by_cases found : other = earlier
        · subst found
          simp [insertEntry, given]
        · simp [insertEntry, given, lookup_cons_if, found, inductionHypothesis]

/-- Where no name is repeated it does not matter from which end a name is looked up. -/
theorem lookup_reverse (distinct : (entries.map Prod.fst).Nodup) (name : String) :
    entries.reverse.lookup name = entries.lookup name := by
  induction entries with
  | nil => rfl
  | cons entry rest inductionHypothesis =>
      obtain ⟨own, value⟩ := entry
      rw [List.map_cons, List.nodup_cons] at distinct
      rw [List.reverse_cons, List.lookup_append, inductionHypothesis distinct.2, lookup_cons_if,
        lookup_cons_if]
      by_cases same : name = own
      · subst same
        have missing : rest.lookup name = none := by
          rw [List.lookup_eq_none_iff]
          intro entry member
          have different : name ≠ entry.1 := fun equal =>
            distinct.1 (List.mem_map.mpr ⟨entry, member, equal.symm⟩)
          simpa using different
        simp [missing]
      · simp [same]

end Entries

theorem nodup_insert {bindings : Bindings} (distinct : bindings.names.Nodup) (name : String)
    (value : Value) : (bindings.insert name value).names.Nodup := by
  unfold names insert at *
  rw [insertEntry_names]
  split
  · exact distinct
  · rename_i fresh
    rw [List.nodup_append]
    refine ⟨distinct, List.nodup_singleton name, fun first member second last => ?_⟩
    obtain rfl := List.mem_singleton.mp last
    exact fun same => fresh (same ▸ member)

theorem nodup_ofInserts (given : List (String × Value)) : (ofInserts given).names.Nodup := by
  have inserted : ∀ bindings : Bindings, bindings.names.Nodup →
      (given.foldl (fun bindings entry => bindings.insert entry.1 entry.2) bindings).names.Nodup := by
    induction given with
    | nil => exact fun _ distinct => distinct
    | cons entry rest inductionHypothesis =>
        exact fun bindings distinct =>
          inductionHypothesis _ (nodup_insert distinct entry.1 entry.2)
  exact inserted empty List.nodup_nil

@[simp] theorem get?_insert (bindings : Bindings) (name : String) (value : Value) (other : String) :
    (bindings.insert name value).get? other =
      if other = name then some value else bindings.get? other :=
  lookup_insertEntry name value bindings.entries other

theorem get?_ofInserts (given : List (String × Value)) (name : String) :
    (ofInserts given).get? name = given.reverse.lookup name := by
  have inserted : ∀ bindings : Bindings,
      (given.foldl (fun bindings entry => bindings.insert entry.1 entry.2) bindings).get? name =
        (given.reverse.lookup name).or (bindings.get? name) := by
    induction given with
    | nil => exact fun _ => rfl
    | cons entry rest inductionHypothesis =>
        intro bindings
        rw [List.foldl_cons, inductionHypothesis, get?_insert, List.reverse_cons, List.lookup_append,
          Option.or_assoc]
        congr 1
        rw [lookup_cons_if]
        split <;> rfl
  rw [ofInserts, inserted]
  exact Option.or_none

end Bindings
end FragmentLisp
