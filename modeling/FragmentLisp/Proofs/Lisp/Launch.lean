import FragmentLisp.Proofs.Lisp.Balance
import FragmentLisp.Proofs.Lisp.Correctness
import FragmentLisp.Proofs.Lisp.Interference

/-!
What an artifact comes to that a fragment was compiled to. Of the types that were loaded before only the
names matter, of the artifact only how much of the operand stack its entry method needs and what its body
gives.
-/

namespace FragmentLisp
namespace Lisp

/-- What an artifact comes to with this name, an entry method that needs so much of the operand stack, and a
body with this outcome. -/
def concluded (registry : Registry) (options : Options) (typeName : String) (needed : Nat)
    (outcome : Except Fault (Value × String)) : Except EvalError Evaluation :=
  if (registry.get? typeName).isSome then
    .error (.ofLoading (.alreadyDefined typeName))
  else if options.stackLimit < needed then
    .error (.ofLoading (.stackLimit typeName options.entryMethod needed options.stackLimit))
  else
    (outcome.map fun result =>
      { value := result.1, output := result.2, typeName : Evaluation }).mapError .ofFault

section Units

variable {unit : CompilationUnit Fragment} {artifact : Artifact} {body : Body}
variable {definition : TypeDefinition} {constructor entry : Method}
variable {filling running : List Instruction}

/-- A constructor that fills fields has at most one value on its stack. -/
theorem Code.Generated.constructor_stack
    (generated : Generated unit body definition constructor entry filling running) :
    constructor.signature.maxStack.toNat ≤ 1 := by
  obtain ⟨needed, measured, declared⟩ := generated.constructor.stack
  rw [generated.constructor.code] at measured
  have little := stack_of_fills generated.fills measured
  rw [declared, word_toNat needed (by omega)]
  exact little

section Parts

variable [ObjectFormat]
variable (prepared : Prepared unit artifact body definition constructor entry filling running)

include prepared

/-- Only the entry method can need more of the operand stack than a limit of at least one entry allows. -/
theorem Prepared.find_exceeding {limit : Nat} (room : 1 ≤ limit) :
    definition.methods.find? (Registry.exceeds limit) =
      if limit < entry.signature.maxStack.toNat then some entry else none := by
  have little := prepared.generated.constructor_stack
  have fits : ¬ Registry.exceeds limit constructor = true := by
    rw [Registry.exceeds_iff]
    omega
  rw [prepared.generated.methods, List.find?_cons_of_neg fits]
  by_cases high : limit < entry.signature.maxStack.toNat
  · rw [if_pos high, List.find?_cons_of_pos (Registry.exceeds_iff.mpr high)]
  · rw [if_neg high, List.find?_cons_of_neg (fun exceeding => high (Registry.exceeds_iff.mp exceeding))]
    rfl

theorem Prepared.launch_settles [LawfulObjectFormat] {options : Options}
    (entryName : unit.entryMethod = options.entryMethod) (room : 1 ≤ options.stackLimit) (registry : Registry) :
    Settles (fun steps => launch registry options steps artifact)
      (concluded registry options unit.typeName entry.signature.maxStack.toNat
        (reported (body.evaluate (unit.fields.map Field.value).toArray))) := by
  have named : artifact.name = unit.typeName := by
    rw [← prepared.name]
    exact (TypeDefinition.read_write prepared.storable prepared.written).1
  unfold concluded
  by_cases taken : (registry.get? unit.typeName).isSome
  · simp only [launch_eq, named, if_pos taken]
    exact settles_at_once _
  rw [if_neg taken]
  have fresh : registry.get? artifact.name = none := by
    rw [named]
    exact Option.not_isSome_iff_eq_none.mp taken
  have defined := @Prepared.define _ _ _ _ _ _ _ _ _ options.stackLimit prepared _ registry fresh
  rw [prepared.find_exceeding room] at defined
  unfold launch
  by_cases high : options.stackLimit < entry.signature.maxStack.toNat
  · rw [if_pos high] at defined ⊢
    simp only [defined, prepared.name, prepared.generated.entry.name, entryName]
    exact settles_at_once _
  · rw [if_neg high] at defined ⊢
    simp only [defined]
    have fits := fun method member => ((Registry.define_ok defined).2.2 method member).2
    have created := prepared.create_settles fits
    rw [entryName] at created
    rw [← answerOf_eq]
    exact execute_settles created (prepared.invoke_settles fits).1

end Parts

end Units

end Lisp
end FragmentLisp
