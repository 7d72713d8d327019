import FragmentLisp.Machine
import FragmentLisp.Proofs.Machine.OperandStack
import FragmentLisp.Proofs.StackDepth

/-!
What one instruction does to the state of a run, told once for all instructions: where execution goes on,
how the stack changes, and which faults are left when the operands are there, the names exist and the
result has room.
-/

namespace FragmentLisp

/-- The faults that values can cause in code that has passed all checks. -/
def Fault.IsDynamic : Fault → Prop
  | .divisionByZero => True
  | .overflow _ => True
  | .typeMismatch _ _ _ => True
  | _ => False

def Fault.IsArithmetic : Fault → Prop
  | .divisionByZero => True
  | .overflow _ => True
  | _ => False

def Fault.IsMismatch : Fault → Prop
  | .typeMismatch _ _ _ => True
  | _ => False

theorem Fault.IsArithmetic.dynamic {fault : Fault} (arithmetic : fault.IsArithmetic) :
    fault.IsDynamic := by
  cases fault <;> trivial

theorem Fault.IsArithmetic.not_mismatch {fault : Fault} (arithmetic : fault.IsArithmetic) :
    ¬ fault.IsMismatch := by
  cases fault <;> simp_all [Fault.IsArithmetic, Fault.IsMismatch]

namespace Machine

def Names (program : Program) (state : State) : Instruction → Prop
  | .pushConstant index => index.toNat < program.constants.size
  | .loadLocal slot => slot.toNat < state.locals.size
  | .storeLocal slot => slot.toNat < state.locals.size
  | .loadField index => index.toNat < state.fields.size
  | .storeField index => index.toNat < state.fields.size
  | _ => True

/-- No place of a state holds the value that stands for none. -/
structure Present (state : State) : Prop where
  stack : ∀ value ∈ state.stack.entries, value ≠ .nothing
  locals : ∀ value ∈ state.locals, value ≠ .nothing
  fields : ∀ value ∈ state.fields, value ≠ .nothing

/-- What may come of an instruction that finds its operands and has room for its result. -/
def Proper (instruction : Instruction) (before : State) : Step → Prop
  | .running after =>
      after.offset ∈ instruction.successors before.offset ∧
        after.stack.height = StackDepth.heightAfter instruction before.stack.height ∧
        after.locals.size = before.locals.size ∧ after.fields.size = before.fields.size ∧
        (Present before → Present after)
  | .returned value? after =>
      (instruction = .return ∧ (∃ value, value? = some value ∧ (Present before → value ≠ .nothing)) ∨
          instruction = .returnVoid ∧ value? = none) ∧
        after.stack.height = StackDepth.heightAfter instruction before.stack.height ∧
        after.fields.size = before.fields.size ∧ (Present before → Present after)
  | .faulted fault after => fault.IsDynamic ∧ after = before

theorem attempt_bind {First Second : Type} (state : State) (first : Except Fault First)
    (rest : First → Except Fault Second) (continuation : Second → Step) :
    attempt state (first >>= rest) continuation =
      attempt state first fun value => attempt state (rest value) continuation := by
  cases first <;> rfl

theorem leave_proper {program : Program} {before : State} {instruction : Instruction}
    {rest : List Value} {value : Value}
    (falls : before.offset + instruction.size ∈ instruction.successors before.offset)
    (height : rest.length + 1 = StackDepth.heightAfter instruction before.stack.height)
    (room : StackDepth.heightAfter instruction before.stack.height ≤ program.stackLimit)
    (kept : ∀ entry ∈ rest, entry ∈ before.stack.entries)
    (present : Present before → value ≠ .nothing) :
    Proper instruction before
      (leave program before (before.offset + instruction.size) (.ofEntries rest) value) := by
  have fits : ¬ program.stackLimit ≤ rest.length := by omega
  simp only [leave, attempt, OperandStack.push_ofEntries, if_neg fits]
  refine ⟨falls, height, rfl, rfl, fun held => ⟨?_, held.locals, held.fields⟩⟩
  intro entry member
  rcases List.mem_cons.mp member with rfl | older
  · exact present held
  · exact held.stack entry (kept entry older)

theorem continues {instruction : Instruction} (offset : Nat)
    (falls : instruction.fallsThrough = true) :
    offset + instruction.size ∈ instruction.successors offset := by
  rw [Instruction.successors, if_pos falls]
  exact List.mem_cons_self

theorem expectInteger_cases (operation : String) (value : Value) :
    (∃ integer, value = .integer integer ∧
      OperandStack.expectInteger operation value = .ok integer) ∨
    OperandStack.expectInteger operation value =
      .error (.typeMismatch operation "number" value.typeName) := by
  cases value with
  | integer integer => exact Or.inl ⟨integer, rfl, rfl⟩
  | _ => exact Or.inr rfl

/-- Two operands are two integers, or the upper one that is none is found first. -/
theorem popIntegers_cases (offset : Nat) (operation : String) (upper lower : Value)
    (rest : List Value) :
    (∃ left right, upper = .integer right ∧ lower = .integer left ∧
      (OperandStack.ofEntries (upper :: lower :: rest)).popIntegers offset operation =
        .ok (left, right, .ofEntries rest)) ∨
    ∃ found,
      (OperandStack.ofEntries (upper :: lower :: rest)).popIntegers offset operation =
        .error (.typeMismatch operation "number" found) := by
  rw [OperandStack.popIntegers_ofEntries]
  rcases expectInteger_cases operation upper with ⟨right, isRight, upperChecked⟩ | upperFailed
  · rcases expectInteger_cases operation lower with ⟨left, isLeft, lowerChecked⟩ | lowerFailed
    · exact Or.inl ⟨left, right, isRight, isLeft, by rw [upperChecked, lowerChecked]; rfl⟩
    · exact Or.inr ⟨lower.typeName, by rw [upperChecked, lowerFailed]; rfl⟩
  · exact Or.inr ⟨upper.typeName, by rw [upperFailed]; rfl⟩

theorem exact_arithmetic {operation : String} {result : Int} {fault : Fault}
    (failed : Arithmetic.exact operation result = .error fault) : fault.IsArithmetic := by
  unfold Arithmetic.exact at failed
  split at failed
  · simp at failed
  · obtain rfl := Except.error.inj failed
    trivial

theorem apply_arithmetic {op : ArithmeticOp} {left right : Int64} {fault : Fault}
    (failed : op.apply left right = .error fault) : fault.IsArithmetic := by
  cases op with
  | add => exact exact_arithmetic failed
  | subtract => exact exact_arithmetic failed
  | multiply => exact exact_arithmetic failed
  | divide =>
      simp only [ArithmeticOp.apply] at failed
      split at failed
      · obtain rfl := Except.error.inj failed
        trivial
      · exact exact_arithmetic failed
  | modulo =>
      simp only [ArithmeticOp.apply] at failed
      split at failed
      · obtain rfl := Except.error.inj failed
        trivial
      · split at failed
        · simp at failed
        · obtain rfl := Except.error.inj failed
          trivial

theorem two_entries {entries : List Value} (enough : 2 ≤ entries.length) :
    ∃ upper lower rest, entries = upper :: lower :: rest := by
  match entries, enough with
  | upper :: lower :: rest, _ => exact ⟨upper, lower, rest, rfl⟩

theorem one_entry {entries : List Value} (enough : 1 ≤ entries.length) :
    ∃ value rest, entries = value :: rest := by
  match entries, enough with
  | value :: rest, _ => exact ⟨value, rest, rfl⟩

theorem Present.drop {before : State} (present : Present before) {after : State}
    (stack : ∀ value ∈ after.stack.entries, value ∈ before.stack.entries)
    (locals : after.locals = before.locals) (fields : after.fields = before.fields) :
    Present after :=
  ⟨fun value member => present.stack value (stack value member), locals ▸ present.locals,
    fields ▸ present.fields⟩

theorem present_set {values : Array Value} {value : Value} (index : Nat)
    (all : ∀ entry ∈ values, entry ≠ .nothing) (own : value ≠ .nothing) :
    ∀ entry ∈ values.setIfInBounds index value, entry ≠ .nothing := by
  intro entry member
  rcases Array.mem_or_eq_of_mem_setIfInBounds member with older | rfl
  · exact all entry older
  · exact own

/-- An instruction that finds its operands and names, and room for its result, goes on to one of its
successors with the height it declares, returns, or meets a fault of the values. -/
theorem perform_proper {program : Program} {before : State} {instruction : Instruction}
    (operands : instruction.stackEffect.1 ≤ before.stack.height)
    (room : StackDepth.heightAfter instruction before.stack.height ≤ program.stackLimit)
    (names : Names program before instruction) :
    Proper instruction before (perform program before instruction) := by
  obtain ⟨offset, stack, locals, fields, output⟩ := before
  obtain ⟨entries, rfl⟩ : ∃ entries, stack = .ofEntries entries := ⟨_, stack.eq_ofEntries⟩
  simp only [OperandStack.height_ofEntries] at operands room
  cases instruction with
  | pushInteger value =>
      exact leave_proper (continues offset rfl) rfl room (fun _ member => member) (by simp)
  | pushBoolean value =>
      exact leave_proper (continues offset rfl) rfl room (fun _ member => member) (by simp)
  | pushNil =>
      exact leave_proper (continues offset rfl) rfl room (fun _ member => member) (by simp)
  | pushConstant index =>
      have found : program.constants[index.toNat]? = some program.constants[index.toNat] :=
        Array.getElem?_eq_getElem names
      simp only [perform, found]
      exact leave_proper (continues offset rfl) rfl room (fun _ member => member) (by simp)
  | pop =>
      obtain ⟨value, rest, rfl⟩ := one_entry operands
      exact ⟨continues offset rfl, rfl, rfl, rfl, fun held =>
        held.drop (fun _ member => List.mem_cons_of_mem _ member) rfl rfl⟩
  | arithmetic op =>
      obtain ⟨upper, lower, rest, rfl⟩ := two_entries operands
      rcases popIntegers_cases offset op.name upper lower rest with
        ⟨left, right, -, -, popped⟩ | ⟨found, failed⟩
      · simp only [perform, popped, attempt]
        cases result : op.apply left right with
        | error fault => exact ⟨(apply_arithmetic result).dynamic, rfl⟩
        | ok value =>
            exact leave_proper (continues offset rfl) rfl room
              (fun _ member => List.mem_cons_of_mem _ (List.mem_cons_of_mem _ member)) (by simp)
      · simp only [perform, failed, attempt]
        exact ⟨trivial, rfl⟩
  | negate =>
      obtain ⟨value, rest, rfl⟩ := one_entry operands
      simp only [perform, OperandStack.pop_ofEntries_cons, attempt]
      rcases expectInteger_cases "-" value with ⟨integer, rfl, checked⟩ | failed
      · rw [checked]
        cases result : Arithmetic.negate integer with
        | error fault => simp only [result]; exact ⟨(exact_arithmetic result).dynamic, rfl⟩
        | ok value =>
            simp only [result]
            exact leave_proper (continues offset rfl) rfl room
              (fun _ member => List.mem_cons_of_mem _ member) (by simp)
      · rw [failed]
        exact ⟨trivial, rfl⟩
  | equal =>
      obtain ⟨upper, lower, rest, rfl⟩ := two_entries operands
      simp only [perform, OperandStack.pop_ofEntries_cons, attempt]
      exact leave_proper (continues offset rfl) rfl room
        (fun _ member => List.mem_cons_of_mem _ (List.mem_cons_of_mem _ member)) (by simp)
  | order op =>
      obtain ⟨upper, lower, rest, rfl⟩ := two_entries operands
      rcases popIntegers_cases offset op.name upper lower rest with
        ⟨left, right, -, -, popped⟩ | ⟨found, failed⟩
      · simp only [perform, popped, attempt]
        exact leave_proper (continues offset rfl) rfl room
          (fun _ member => List.mem_cons_of_mem _ (List.mem_cons_of_mem _ member)) (by simp)
      · simp only [perform, failed, attempt]
        exact ⟨trivial, rfl⟩
  | not =>
      obtain ⟨value, rest, rfl⟩ := one_entry operands
      simp only [perform, OperandStack.pop_ofEntries_cons, attempt]
      exact leave_proper (continues offset rfl) rfl room
        (fun _ member => List.mem_cons_of_mem _ member) (by simp)
  | jumpIfFalse target =>
      obtain ⟨condition, rest, rfl⟩ := one_entry operands
      refine ⟨?_, rfl, rfl, rfl, fun held =>
        held.drop (fun _ member => List.mem_cons_of_mem _ member) rfl rfl⟩
      by_cases truthy : condition.isTruthy <;>
        simp [Instruction.successors, Instruction.fallsThrough, Instruction.jumpTarget?, truthy]
  | jump target =>
      refine ⟨?_, rfl, rfl, rfl, fun held => held.drop (fun _ member => member) rfl rfl⟩
      simp [Instruction.successors, Instruction.fallsThrough, Instruction.jumpTarget?]
  | storeLocal slot =>
      obtain ⟨value, rest, rfl⟩ := one_entry operands
      have exists_slot : slot.toNat < locals.size := names
      simp only [perform, OperandStack.pop_ofEntries_cons, attempt, if_pos exists_slot]
      refine ⟨continues offset rfl, rfl, Array.size_setIfInBounds, rfl, fun held =>
        ⟨fun _ member => held.stack _ (List.mem_cons_of_mem _ member), ?_, held.fields⟩⟩
      exact present_set _ held.locals (held.stack value List.mem_cons_self)
  | loadLocal slot =>
      have found : locals[slot.toNat]? = some locals[slot.toNat] := Array.getElem?_eq_getElem names
      simp only [perform, found]
      exact leave_proper (continues offset rfl) rfl room (fun _ member => member)
        (fun held => held.locals _ (Array.getElem_mem names))
  | storeField index =>
      obtain ⟨value, rest, rfl⟩ := one_entry operands
      have exists_field : index.toNat < fields.size := names
      simp only [perform, OperandStack.pop_ofEntries_cons, attempt, if_pos exists_field]
      refine ⟨continues offset rfl, rfl, rfl, Array.size_setIfInBounds, fun held =>
        ⟨fun _ member => held.stack _ (List.mem_cons_of_mem _ member), held.locals, ?_⟩⟩
      exact present_set _ held.fields (held.stack value List.mem_cons_self)
  | loadField index =>
      have found : fields[index.toNat]? = some fields[index.toNat] := Array.getElem?_eq_getElem names
      simp only [perform, found]
      exact leave_proper (continues offset rfl) rfl room (fun _ member => member)
        (fun held => held.fields _ (Array.getElem_mem names))
  | concat parts =>
      have enough : ¬ entries.length < parts.toNat := Nat.not_lt.mpr operands
      simp only [perform, OperandStack.popMany_ofEntries, if_neg enough, attempt]
      exact leave_proper (continues offset rfl)
        (by simp [StackDepth.heightAfter, Instruction.stackEffect]) room
        (fun _ member => List.mem_of_mem_drop member) (by simp)
  | count =>
      obtain ⟨value, rest, rfl⟩ := one_entry operands
      simp only [perform, OperandStack.pop_ofEntries_cons, attempt]
      cases value with
      | string text =>
          exact leave_proper (continues offset rfl) rfl room
            (fun _ member => List.mem_cons_of_mem _ member) (by simp)
      | _ => exact ⟨trivial, rfl⟩
  | print newline =>
      obtain ⟨value, rest, rfl⟩ := one_entry operands
      exact ⟨continues offset rfl, rfl, rfl, rfl, fun held =>
        held.drop (fun _ member => List.mem_cons_of_mem _ member) rfl rfl⟩
  | «return» =>
      obtain ⟨value, rest, rfl⟩ := one_entry operands
      exact ⟨Or.inl ⟨rfl, value, rfl, fun held => held.stack value List.mem_cons_self⟩, rfl, rfl,
        fun held => held.drop (fun _ member => List.mem_cons_of_mem _ member) rfl rfl⟩
  | returnVoid =>
      exact ⟨Or.inr ⟨rfl, rfl⟩, rfl, rfl, fun held => held.drop (fun _ member => member) rfl rfl⟩

end Machine
end FragmentLisp
