import FragmentLisp.Machine

/-!
The limit for operand stacks only ever stops a run. A run that it does not stop goes the same way, step by
step, under every larger limit.
-/

namespace FragmentLisp
namespace Machine

def Program.limited (limit : Nat) (program : Program) : Program :=
  { program with stackLimit := limit }

def Step.Overflows : Step → Prop
  | .faulted (.stackOverflow _) _ => True
  | _ => False

def Outcome.Overflows : Outcome → Prop
  | .faulted (.stackOverflow _) _ => True
  | _ => False

/-- A larger limit makes no difference to a step, unless the limit has stopped it. -/
def Unhindered (step larger : Step) : Prop :=
  larger = step ∨ step.Overflows

section Limits

variable {program : Program} {limit : Nat}

theorem attempt_unhindered {Result : Type} {state : State} {result : Except Fault Result}
    {continuation larger : Result → Step}
    (each : ∀ value, Unhindered (continuation value) (larger value)) :
    Unhindered (attempt state result continuation) (attempt state result larger) := by
  cases result with
  | error fault => exact .inl rfl
  | ok value => exact each value

theorem leave_unhindered (more : program.stackLimit ≤ limit) (state : State) (following : Nat)
    (stack : OperandStack) (value : Value) :
    Unhindered (leave program state following stack value)
      (leave (program.limited limit) state following stack value) := by
  unfold leave OperandStack.push
  by_cases full : program.stackLimit ≤ stack.height
  · rw [if_pos full]
    exact .inr trivial
  · have room : ¬ (program.limited limit).stackLimit ≤ stack.height := by
      change ¬ limit ≤ stack.height
      omega
    rw [if_neg full, if_neg room]
    exact .inl rfl

theorem perform_unhindered (more : program.stackLimit ≤ limit) (state : State)
    (instruction : Instruction) :
    Unhindered (perform program state instruction)
      (perform (program.limited limit) state instruction) := by
  have leaves := leave_unhindered more state (state.offset + instruction.size)
  cases instruction with
  | pushInteger value => exact leaves state.stack (.integer value)
  | pushBoolean value => exact leaves state.stack (.boolean value)
  | pushNil => exact leaves state.stack .nil
  | pushConstant index =>
      have same : (program.limited limit).constants = program.constants := rfl
      simp only [perform, same]
      split
      · exact leaves state.stack _
      · exact .inl rfl
  | loadLocal slot =>
      simp only [perform]
      split
      · exact leaves state.stack _
      · exact .inl rfl
  | loadField index =>
      simp only [perform]
      split
      · exact leaves state.stack _
      · exact .inl rfl
  | arithmetic op =>
      exact attempt_unhindered fun _ => attempt_unhindered fun _ => leaves _ _
  | negate =>
      exact attempt_unhindered fun _ => attempt_unhindered fun _ => attempt_unhindered fun _ =>
        leaves _ _
  | equal => exact attempt_unhindered fun _ => attempt_unhindered fun _ => leaves _ _
  | order op => exact attempt_unhindered fun _ => leaves _ _
  | not => exact attempt_unhindered fun _ => leaves _ _
  | concat parts => exact attempt_unhindered fun _ => leaves _ _
  | count =>
      refine attempt_unhindered fun (operand, stack) => ?_
      cases operand with
      | string text => exact leaves stack _
      | _ => exact .inl rfl
  | pop | jumpIfFalse | jump | storeLocal | storeField | print | «return» | returnVoid =>
      exact .inl rfl

theorem step_unhindered (more : program.stackLimit ≤ limit) (state : State) :
    Unhindered (step program state) (step (program.limited limit) state) := by
  have code : (program.limited limit).code = program.code := rfl
  unfold step
  rw [code]
  split
  · split
    · exact perform_unhindered more state _
    · exact .inl rfl
  · exact .inl rfl

/-- A run of any length is the same under a larger limit, unless the limit has stopped it. -/
theorem run_unhindered (more : program.stackLimit ≤ limit) (steps : Nat) (state : State) :
    run (program.limited limit) steps state = run program steps state ∨
      (run program steps state).Overflows := by
  induction steps generalizing state with
  | zero => exact .inl rfl
  | succ steps inductionHypothesis =>
      rw [run, run]
      rcases step_unhindered more state with same | overflows
      · rw [same]
        cases step program state with
        | running next => exact inductionHypothesis next
        | returned value final => exact .inl rfl
        | faulted fault stopped => exact .inl rfl
      · right
        cases stepped : step program state with
        | faulted fault stopped =>
            rw [stepped] at overflows
            cases fault <;> trivial
        | running next | returned value final =>
            rw [stepped] at overflows
            exact overflows.elim

end Limits

end Machine
end FragmentLisp
