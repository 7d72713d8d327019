import FragmentLisp.Proofs.Machine.Effect
import FragmentLisp.Proofs.Machine.Passes

/-!
The effect on the stack that an instruction declares, and the one that it has when it is performed: so many
entries are taken from the top, so many are laid on the rest, and the limits of the stack are met only where
the declared effect says so.
-/

namespace FragmentLisp
namespace Machine

structure Taken (count : Nat) (before after : OperandStack) : Prop where
  enough : count ≤ before.height
  entries : after.entries = before.entries.drop count

/-- As many entries as the first number says have been taken from the top, and as many as the second one
says lie on the rest. -/
structure Exchanged (effect : Nat × Nat) (before after : OperandStack) : Prop where
  enough : effect.1 ≤ before.height
  entries : ∃ added, added.length = effect.2 ∧ after.entries = added ++ before.entries.drop effect.1

/-- The outcome of a step is that of an effect on the stack. The stack is blamed only where the effect
leads below its bottom or over its limit. -/
def KeepsTo (limit : Nat) (effect : Nat × Nat) (before : OperandStack) : Step → Prop
  | .running after => Exchanged effect before after.stack
  | .returned _ after => Exchanged effect before after.stack
  | .faulted (.stackUnderflow _) _ => before.height < effect.1
  | .faulted (.stackOverflow _) _ => limit < before.height - effect.1 + effect.2
  | .faulted _ _ => True

section Effects

variable {program : Program} {limit count offset : Nat} {effect : Nat × Nat}
variable {before stack : OperandStack} {state : State}

theorem Taken.none (stack : OperandStack) : Taken 0 stack stack :=
  ⟨Nat.zero_le _, rfl⟩

theorem Taken.height (taken : Taken count before stack) : stack.height = before.height - count := by
  rw [stack.height_eq, taken.entries, List.length_drop, before.height_eq]

theorem Taken.exchanged (taken : Taken count before stack) : Exchanged (count, 0) before stack :=
  ⟨taken.enough, [], rfl, taken.entries⟩

theorem keepsTo_dynamic {fault : Fault} (dynamic : fault.IsDynamic) :
    KeepsTo limit effect before (.faulted fault state) := by
  cases fault <;> trivial

/-- A computation on values that have been taken does not meet the limits of the stack. -/
theorem keepsTo_attempt {Result : Type} {result : Except Fault Result} {continuation : Result → Step}
    (dynamic : ∀ fault, result = .error fault → fault.IsDynamic)
    (each : ∀ value, KeepsTo limit effect before (continuation value)) :
    KeepsTo limit effect before (attempt state result continuation) := by
  cases result with
  | error fault => exact keepsTo_dynamic (dynamic fault rfl)
  | ok value => exact each value

theorem keepsTo_pop {continuation : Value × OperandStack → Step} (taken : Taken count before stack)
    (wanted : count < effect.1)
    (each : ∀ value rest, Taken (count + 1) before rest →
      KeepsTo limit effect before (continuation (value, rest))) :
    KeepsTo limit effect before (attempt state (stack.pop offset) continuation) := by
  have height := taken.height
  obtain ⟨entries, rfl⟩ : ∃ entries, stack = .ofEntries entries := ⟨_, stack.eq_ofEntries⟩
  have drop : before.entries.drop count = entries := taken.entries.symm
  rw [OperandStack.height_ofEntries] at height
  cases entries with
  | nil =>
      rw [List.length_nil] at height
      change before.height < effect.1
      omega
  | cons value rest =>
      rw [List.length_cons] at height
      refine each value (.ofEntries rest) ⟨by omega, ?_⟩
      rw [← List.drop_drop, drop]
      rfl

theorem keepsTo_popMany {continuation : List Value × OperandStack → Step}
    (each : ∀ values rest, Taken effect.1 before rest →
      KeepsTo limit effect before (continuation (values, rest))) :
    KeepsTo limit effect before (attempt state (before.popMany effect.1 offset) continuation) := by
  unfold OperandStack.popMany
  by_cases short : before.height < effect.1
  · rw [if_pos short]
    exact short
  · rw [if_neg short]
    exact each _ _ ⟨Nat.not_lt.mp short, rfl⟩

theorem expectInteger_dynamic {operation : String} {value : Value} {fault : Fault}
    (failed : OperandStack.expectInteger operation value = .error fault) : fault.IsDynamic := by
  rcases expectInteger_cases operation value with ⟨integer, -, checked⟩ | mismatched
  · rw [checked] at failed
    exact absurd failed (by simp)
  · obtain rfl := Except.error.inj (mismatched.symm.trans failed)
    trivial

theorem keepsTo_popIntegers {operation : String} {continuation : Int64 × Int64 × OperandStack → Step}
    (two : effect.1 = 2)
    (each : ∀ left right rest, Taken effect.1 before rest →
      KeepsTo limit effect before (continuation (left, right, rest))) :
    KeepsTo limit effect before
      (attempt state (before.popIntegers offset operation) continuation) := by
  simp only [OperandStack.popIntegers, attempt_bind]
  refine keepsTo_pop (.none before) (by omega) fun upper under takenUpper => ?_
  refine keepsTo_attempt (fun _ => expectInteger_dynamic) fun right => ?_
  refine keepsTo_pop takenUpper (by omega) fun lower rest takenLower => ?_
  refine keepsTo_attempt (fun _ => expectInteger_dynamic) fun left => ?_
  exact each left right rest (two ▸ takenLower)

theorem keepsTo_leave (taken : Taken count before stack) (following : Nat) (value : Value) :
    KeepsTo program.stackLimit (count, 1) before (leave program state following stack value) := by
  have height := taken.height
  unfold leave OperandStack.push
  by_cases full : program.stackLimit ≤ stack.height
  · rw [if_pos full]
    change program.stackLimit < before.height - count + 1
    omega
  · rw [if_neg full]
    exact ⟨taken.enough, [value], rfl, congrArg (value :: ·) taken.entries⟩

end Effects

/-- Whatever the stack, an instruction does to it what its effect says or is stopped. -/
theorem perform_keepsTo (program : Program) (before : State) (instruction : Instruction) :
    KeepsTo program.stackLimit instruction.stackEffect before.stack
      (perform program before instruction) := by
  have untouched := Taken.none before.stack
  cases instruction with
  | pushInteger value => exact keepsTo_leave untouched _ _
  | pushBoolean value => exact keepsTo_leave untouched _ _
  | pushNil => exact keepsTo_leave untouched _ _
  | pushConstant index =>
      simp only [perform]
      split
      · exact keepsTo_leave untouched _ _
      · trivial
  | pop => exact keepsTo_pop untouched Nat.one_pos fun value rest taken => taken.exchanged
  | arithmetic op =>
      refine keepsTo_popIntegers rfl fun left right rest taken => ?_
      exact keepsTo_attempt (fun _ failed => (apply_arithmetic failed).dynamic) fun result =>
        keepsTo_leave taken _ _
  | negate =>
      refine keepsTo_pop untouched Nat.one_pos fun operand rest taken => ?_
      refine keepsTo_attempt (fun _ => expectInteger_dynamic) fun integer => ?_
      exact keepsTo_attempt (fun _ failed => (exact_arithmetic failed).dynamic) fun result =>
        keepsTo_leave taken _ _
  | equal =>
      refine keepsTo_pop untouched Nat.two_pos fun right under takenRight => ?_
      exact keepsTo_pop takenRight Nat.one_lt_two fun left rest taken => keepsTo_leave taken _ _
  | order op =>
      exact keepsTo_popIntegers rfl fun left right rest taken => keepsTo_leave taken _ _
  | not => exact keepsTo_pop untouched Nat.one_pos fun operand rest taken => keepsTo_leave taken _ _
  | jumpIfFalse target =>
      exact keepsTo_pop untouched Nat.one_pos fun condition rest taken => taken.exchanged
  | jump target => exact untouched.exchanged
  | storeLocal slot =>
      refine keepsTo_pop untouched Nat.one_pos fun value rest taken => ?_
      by_cases inside : slot.toNat < before.locals.size
      · simp only [if_pos inside]
        exact taken.exchanged
      · simp only [if_neg inside]
        trivial
  | loadLocal slot =>
      simp only [perform]
      split
      · exact keepsTo_leave untouched _ _
      · trivial
  | storeField index =>
      refine keepsTo_pop untouched Nat.one_pos fun value rest taken => ?_
      by_cases inside : index.toNat < before.fields.size
      · simp only [if_pos inside]
        exact taken.exchanged
      · simp only [if_neg inside]
        trivial
  | loadField index =>
      simp only [perform]
      split
      · exact keepsTo_leave untouched _ _
      · trivial
  | concat parts => exact keepsTo_popMany fun values rest taken => keepsTo_leave taken _ _
  | count =>
      refine keepsTo_pop untouched Nat.one_pos fun operand rest taken => ?_
      cases operand with
      | string text => exact keepsTo_leave taken _ _
      | _ => trivial
  | print newline => exact keepsTo_pop untouched Nat.one_pos fun value rest taken => taken.exchanged
  | «return» => exact keepsTo_pop untouched Nat.one_pos fun value rest taken => taken.exchanged
  | returnVoid => exact untouched.exchanged

/-- A step does to the stack what the instruction declares: if it goes on or returns, the operands are gone,
the result lies on what was under them, and that is as it was. Where there are enough operands none is
missed, and where there is room for the result the limit is not met. -/
theorem declared_effect_is_performed {program : Program} {before : State} {instruction : Instruction}
    (held : before.offset < program.code.size ∧
      Instruction.decodeAt program.code before.offset = .ok instruction) :
    (∀ after, step program before = .running after →
      Exchanged instruction.stackEffect before.stack after.stack) ∧
    (∀ value? after, step program before = .returned value? after →
      Exchanged instruction.stackEffect before.stack after.stack) ∧
    (instruction.stackEffect.1 ≤ before.stack.height →
      ∀ offset after, step program before ≠ .faulted (.stackUnderflow offset) after) ∧
    (StackDepth.heightAfter instruction before.stack.height ≤ program.stackLimit →
      ∀ limit after, step program before ≠ .faulted (.stackOverflow limit) after) := by
  have keeps := perform_keepsTo program before instruction
  rw [← step_eq_perform held] at keeps
  refine ⟨fun after running => ?_, fun value? after returned => ?_, fun enough offset after failed => ?_,
    fun room limit after failed => ?_⟩
  · rw [running] at keeps
    exact keeps
  · rw [returned] at keeps
    exact keeps
  · rw [failed] at keeps
    exact Nat.not_lt.mpr enough keeps
  · rw [failed] at keeps
    exact Nat.not_lt.mpr room keeps

theorem joining_takes_two_operands :
    let program : Program :=
      { code := (Instruction.concat 2).encode.toArray, constants := #[], stackLimit := 3 }
    let before : State :=
      { offset := 0, stack := .ofEntries [.string "b", .string "a", .nil], locals := #[], fields := #[]
        output := "" }
    (before.offset < program.code.size ∧
      Instruction.decodeAt program.code before.offset = .ok (.concat 2)) ∧
    (∃ after, step program before = .running after ∧ after.stack.entries = [.string "ab", .nil] ∧
      Exchanged (2, 1) before.stack after.stack) ∧
    (∀ offset after, step program before ≠ .faulted (.stackUnderflow offset) after) ∧
    ∀ limit after, step program before ≠ .faulted (.stackOverflow limit) after := by
  intro program before
  have held : before.offset < program.code.size ∧
      Instruction.decodeAt program.code before.offset = .ok (.concat 2) :=
    ⟨by decide, rfl⟩
  obtain ⟨running, -, underflow, overflow⟩ := declared_effect_is_performed held
  refine ⟨held, ?_, underflow (by decide), overflow (by decide)⟩
  have performed := step_eq_perform held
  exact ⟨_, performed, rfl, running _ performed⟩

end Machine
end FragmentLisp
