import FragmentLisp.Instance
import FragmentLisp.Proofs.Machine.Passes

/-!
What becomes of an instance in the end. A run that reaches a state and stops there has no answer as long as
it is not allowed enough steps, and always the same one afterwards.
-/

namespace FragmentLisp

/-- There is no answer until enough steps are allowed, and then this one. -/
def Settles {Answer : Type} (run : Nat → Option Answer) (answer : Answer) : Prop :=
  ∃ enough, ∀ steps, run steps = if steps < enough then none else some answer

theorem settles_at_once {Answer : Type} (answer : Answer) :
    Settles (fun _ => some answer) answer :=
  ⟨0, fun _ => rfl⟩

theorem Settles.together {First Second : Type} {run : Nat → Option First}
    {other : Nat → Option Second} {answer : First} {otherAnswer : Second}
    (settles : Settles run answer) (otherSettles : Settles other otherAnswer) :
    ∃ steps, run steps = some answer ∧ other steps = some otherAnswer := by
  obtain ⟨enough, each⟩ := settles
  obtain ⟨otherEnough, otherEach⟩ := otherSettles
  refine ⟨max enough otherEnough, ?_, ?_⟩
  · rw [each, if_neg (by omega)]
  · rw [otherEach, if_neg (by omega)]

theorem Settles.unique {Answer : Type} {run : Nat → Option Answer} {answer other : Answer} {steps : Nat}
    (settles : Settles run answer) (answered : run steps = some other) : other = answer := by
  obtain ⟨enough, each⟩ := settles
  rw [each] at answered
  by_cases early : steps < enough
  · rw [if_pos early] at answered
    cases answered
  · rw [if_neg early] at answered
    exact (Option.some.inj answered).symm

namespace Instance

open Machine (State Outcome)

theorem settles_of_run {Answer : Type} {program : Machine.Program} {start last : State}
    {outcome : Outcome} {answer : Answer} (finish : Outcome → Option Answer)
    (pending : ∀ state, finish (.unfinished state) = none)
    (concluded : finish outcome = some answer) {needed : Nat}
    (reached : Machine.run program needed start = .unfinished last)
    (once : Machine.run program 1 last = outcome) :
    Settles (fun steps => finish (Machine.run program steps start)) answer := by
  have ended : ∀ further, outcome ≠ .unfinished further := by
    rintro further rfl
    rw [pending] at concluded
    simp at concluded
  refine ⟨needed + 1, fun steps => ?_⟩
  by_cases few : steps < needed + 1
  · obtain ⟨middle, unfinished⟩ := Machine.run_fewer reached (Nat.le_of_lt_succ few)
    rw [if_pos few]
    simp only [unfinished, pending]
  · rw [if_neg few]
    simp only [Machine.run_ended reached once ended (Nat.lt_of_succ_le (Nat.le_of_not_lt few)),
      concluded]

def conclude (typeName : String) : Outcome → Option (Except Fault Evaluation)
  | .unfinished _ => none
  | .faulted fault _ => some (.error fault)
  | .returned value? final =>
      some (.ok { value := value?.getD .nothing, output := final.output, typeName })

def establish (definition : TypeDefinition) (entry : Method) (limit : Nat) :
    Outcome → Option (Except InstantiationError Instance)
  | .unfinished _ => none
  | .faulted fault _ => some (.error (.constructorFailed definition.name fault))
  | .returned _ final => some (.ok ⟨definition, entry, final.fields, final.output, limit⟩)

section Runs

variable {definition : TypeDefinition} {entryName : String} {constructor entry : Method}
variable {limit needed : Nat} {last : State}

theorem create_settles (found : methods definition entryName = .ok (constructor, entry))
    {value? : Option Value} {final : State}
    (reached : Machine.run (program definition constructor limit) needed
      (.initial constructor.signature.locals.toNat
        (Array.replicate definition.fieldCount.toNat .nil) "") = .unfinished last)
    (once : Machine.run (program definition constructor limit) 1 last = .returned value? final) :
    Settles (create definition entryName limit)
      (.ok ⟨definition, entry, final.fields, final.output, limit⟩) := by
  obtain ⟨enough, each⟩ := settles_of_run (establish definition entry limit) (fun _ => rfl) rfl
    reached once
  refine ⟨enough, fun steps => ?_⟩
  rw [← each steps]
  unfold create
  rw [found]
  rfl

theorem invoke_settles {object : Instance} {outcome : Outcome}
    {answer : Except Fault Evaluation}
    (reached : Machine.run (program object.definition object.entry object.stackLimit) needed
      (.initial object.entry.signature.locals.toNat object.fields object.output) =
        .unfinished last)
    (once : Machine.run (program object.definition object.entry object.stackLimit) 1 last = outcome)
    (concluded : conclude object.definition.name outcome = some answer) :
    Settles object.invoke answer :=
  settles_of_run (conclude object.definition.name) (fun _ => rfl) concluded reached once

end Runs

end Instance
end FragmentLisp
