import FragmentLisp.Proofs.Lisp.Agreement
import FragmentLisp.Proofs.Lisp.Outcome

/-!
Compilation is correct from end to end: an instance of the type that a fragment is compiled to gives what
the fragment means on the host's bindings.
-/

namespace FragmentLisp
namespace Lisp

open Resolution (Stands Context visible statementNode)

def reported (outcome : Except Fault (Option Value × Store)) : Except Fault (Value × String) :=
  outcome.map fun result => (result.1.getD .nothing, result.2.output)

theorem answerOf_eq (typeName : String) (outcome : Except Fault (Option Value × Store)) :
    answerOf typeName outcome =
      (reported outcome).map fun result =>
        { value := result.1, output := result.2, typeName } := by
  cases outcome <;> rfl

theorem reported_eq (outcome : Except Fault (Option Value × Store)) :
    (visible outcome).map (fun result => (result.1.getD .nothing, result.2)) =
      attempted (reported outcome) := by
  cases outcome <;> rfl

theorem stands_fields {fields : List Field} {values : Array Value} {store : Store} {start : Nat}
    (few : start + fields.length ≤ Scope.slotCount)
    (held : ∀ index : Nat, values[start + index]? = (fields[index]?).map Field.value) :
    List.Forall₂ (Stands values store)
      ((fields.zipIdx start).map fun (field, index) =>
        (field.name, ⟨.field (UInt16.ofNat index), Kind.ofValue field.value⟩))
      (fields.map fun field => (field.name, field.value)) := by
  induction fields generalizing start with
  | nil => exact .nil
  | cons field rest inductionHypothesis =>
      rw [List.length_cons] at few
      have word : (UInt16.ofNat start).toNat = start := by
        apply UInt16.toNat_ofNat_of_lt'
        change start < Scope.slotCount
        omega
      rw [List.zipIdx_cons, List.map_cons, List.map_cons]
      refine .cons ⟨rfl, ?_⟩ (inductionHypothesis (by omega) fun index => ?_)
      · change values[(UInt16.ofNat start).toNat]? = some field.value
        rw [word]
        exact held 0
      · have next := held (index + 1)
        rwa [List.getElem?_cons_succ, ← Nat.add_assoc, Nat.add_right_comm] at next

theorem context_ofFields {fields : List Field} {scope : Scope}
    (found : Scope.ofFields? fields = some scope) (slots : Nat) :
    Context (Resolution.fieldKinds fields) slots (fields.map Field.value).toArray [] scope
      (fields.map fun field => (field.name, field.value)).reverse
      { locals := Array.replicate slots .nil, output := "" } := by
  have orderly := Resolution.orderly_ofFields found
  unfold Scope.ofFields? at found
  split at found
  · rename_i few
    obtain rfl := Option.some.inj found
    refine ⟨orderly, conforms_nil _, Array.size_replicate, ?_⟩
    have stands := @stands_fields fields (fields.map Field.value).toArray
      { locals := Array.replicate slots .nil, output := "" } 0 (by omega) fun index => by
        rw [Nat.zero_add, List.getElem?_toArray, List.getElem?_map]
    exact List.forall₂_reverse_iff.mpr stands
  · simp at found

/-- The statements of a body mean what their evaluation shows. -/
theorem body_agrees {fields : List Field} {nodes : List Node} {body : Body}
    (derived : Resolution.Derived fields nodes body) :
    meaningStatements (some .nil) (fields.map fun field => (field.name, field.value)).reverse ""
        nodes =
      visible (body.evaluate (fields.map Field.value).toArray) := by
  obtain ⟨scope, after, found, steps, peak⟩ := derived.steps
  have conforms := Code.conforms_fields fields
  have context := context_ofFields found body.locals.toNat
  rw [Resolution.meaningStatements_eq]
  refine Resolution.steps_agree conforms (some .nil) steps ?_ context (Nat.le_of_eq peak)
  intro entry member
  obtain ⟨node, nodeMember, rfl⟩ := List.mem_map.mp member
  have fine := derived.checked node nodeMember
  exact ⟨fine, Resolution.agrees conforms _ fine⟩

end Lisp
end FragmentLisp
