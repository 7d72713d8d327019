import FragmentLisp.Proofs.Lisp.Evaluation
import FragmentLisp.Proofs.Machine.Passes

/-!
What single instructions do in the code of an expression, in terms of the operations of the language.
The store of an evaluation and the values it has left so far make up the state of the run.
-/

namespace FragmentLisp
namespace Lisp

open Machine (Program State Passes Follows perform attempt attempt_bind)
open Instruction (Holds)

def place (fields : Array Value) (offset : Nat) (entries : List Value) (store : Store) : State :=
  { offset
    stack := .ofEntries entries
    locals := store.locals
    fields
    output := store.output }

section Performing

variable {program : Program} {fields : Array Value} {offset : Nat} {entries : List Value}
variable {store : Store}

theorem perform_arithmetic (op : ArithmeticOp) (left right : Value) :
    perform program (place fields offset (right :: left :: entries) store) (.arithmetic op) =
      attempt (place fields offset (right :: left :: entries) store)
        (Operation.combine op left right) fun result =>
          Machine.leave program (place fields offset (right :: left :: entries) store)
            (offset + (Instruction.arithmetic op).size) (.ofEntries entries) result := by
  simp only [perform, place, OperandStack.popIntegers_ofEntries, Operation.combine,
    Operation.integers, attempt_bind]
  rfl

theorem perform_order (op : OrderOp) (left right : Value) :
    perform program (place fields offset (right :: left :: entries) store) (.order op) =
      attempt (place fields offset (right :: left :: entries) store)
        (Operation.compare op left right) fun result =>
          Machine.leave program (place fields offset (right :: left :: entries) store)
            (offset + (Instruction.order op).size) (.ofEntries entries) result := by
  simp only [perform, place, OperandStack.popIntegers_ofEntries, Operation.compare,
    Operation.integers, attempt_bind]
  rfl

theorem perform_negate (operand : Value) :
    perform program (place fields offset (operand :: entries) store) .negate =
      attempt (place fields offset (operand :: entries) store) (Operation.negate operand)
        fun result => Machine.leave program (place fields offset (operand :: entries) store)
          (offset + Instruction.negate.size) (.ofEntries entries) result := by
  simp only [perform, place, OperandStack.pop_ofEntries_cons, Operation.negate, attempt_bind]
  rfl

theorem perform_count (operand : Value) :
    perform program (place fields offset (operand :: entries) store) .count =
      attempt (place fields offset (operand :: entries) store) (Operation.count operand)
        fun result => Machine.leave program (place fields offset (operand :: entries) store)
          (offset + Instruction.count.size) (.ofEntries entries) result := by
  cases operand <;> rfl

theorem perform_concat (values : List Value) {count : UInt16}
    (counted : count.toNat = values.length) :
    perform program (place fields offset (values.reverse ++ entries) store) (.concat count) =
      Machine.leave program (place fields offset (values.reverse ++ entries) store)
        (offset + (Instruction.concat count).size) (.ofEntries entries)
        (.string (Operation.join values)) := by
  have enough : ¬ (values.reverse ++ entries).length < count.toNat := by
    rw [List.length_append, List.length_reverse]
    omega
  have taken : (values.reverse ++ entries).take count.toNat = values.reverse :=
    List.take_left' (by rw [List.length_reverse, counted])
  have left : (values.reverse ++ entries).drop count.toNat = entries :=
    List.drop_left' (by rw [List.length_reverse, counted])
  simp only [perform, place, OperandStack.popMany_ofEntries, if_neg enough, attempt, taken, left,
    List.reverse_reverse]
  rfl

end Performing

/-! Stretches of one instruction. -/

section Stretches

variable {program : Program} {inside : State → Prop} {blame : State → Fault → Prop}
variable {fields : Array Value} {offset : Nat} {before entries : List Value} {store : Store}
variable {instruction : Instruction} {rest : List Instruction}

/-- An instruction that leaves the result of an operation in place of its operands. -/
theorem follows_operation {outcome : Except Fault Value}
    (held : Holds program.code offset (instruction :: rest))
    (within : inside (place fields offset before store))
    (blamed : ∀ fault, outcome = .error fault → blame (place fields offset before store) fault)
    (performed : perform program (place fields offset before store) instruction =
      attempt (place fields offset before store) outcome fun result =>
        Machine.leave program (place fields offset before store) (offset + instruction.size)
          (.ofEntries entries) result) :
    Follows program inside blame (place fields offset before store) outcome
      fun result => place fields (offset + instruction.size) (result :: entries) store :=
  Follows.leave id (Holds.cons_iff.mp held).1 within blamed performed

theorem passes_value {value : Value} (held : Holds program.code offset (instruction :: rest))
    (within : inside (place fields offset before store))
    (performed : perform program (place fields offset before store) instruction =
      Machine.leave program (place fields offset before store) (offset + instruction.size)
        (.ofEntries entries) value) :
    Passes program inside (place fields offset before store)
      (place fields (offset + instruction.size) (value :: entries) store) :=
  Passes.leave (Holds.cons_iff.mp held).1 within performed

theorem passes_running {next : State} (held : Holds program.code offset (instruction :: rest))
    (within : inside (place fields offset before store))
    (performed : perform program (place fields offset before store) instruction = .running next) :
    Passes program inside (place fields offset before store) next :=
  Passes.perform (Holds.cons_iff.mp held).1 within performed

theorem passes_constant {index : UInt32} {text : String}
    (held : Holds program.code offset (.pushConstant index :: rest))
    (within : inside (place fields offset entries store))
    (known : program.constants[index.toNat]? = some text) :
    Passes program inside (place fields offset entries store)
      (place fields (offset + 5) (.string text :: entries) store) := by
  refine passes_value held within ?_
  simp only [perform, known]
  rfl

theorem passes_branch {target : UInt32} {next : Nat} {condition : Value}
    (word : target.toNat = next)
    (held : Holds program.code offset (.jumpIfFalse target :: rest))
    (within : inside (place fields offset (condition :: entries) store)) :
    Passes program inside (place fields offset (condition :: entries) store)
      (place fields (if condition.isTruthy then offset + 5 else next) entries store) := by
  subst word
  exact passes_running held within rfl

theorem passes_jump {target : UInt32} {next : Nat} (word : target.toNat = next)
    (held : Holds program.code offset (.jump target :: rest))
    (within : inside (place fields offset entries store)) :
    Passes program inside (place fields offset entries store)
      (place fields next entries store) := by
  subst word
  exact passes_running held within rfl

theorem passes_pop {value : Value} (held : Holds program.code offset (.pop :: rest))
    (within : inside (place fields offset (value :: entries) store)) :
    Passes program inside (place fields offset (value :: entries) store)
      (place fields (offset + 1) entries store) :=
  passes_running held within rfl

theorem passes_store {slot : UInt16} {value : Value} {after : Store}
    (held : Holds program.code offset (.storeLocal slot :: rest))
    (within : inside (place fields offset (value :: entries) store))
    (assigned : store.assign slot value = .ok after) :
    Passes program inside (place fields offset (value :: entries) store)
      (place fields (offset + 3) entries after) := by
  unfold Store.assign at assigned
  split at assigned
  · rename_i inBounds
    obtain rfl := Except.ok.inj assigned
    exact passes_running held within (if_pos inBounds)
  · simp at assigned

theorem passes_print {newline : Bool} {value : Value}
    (held : Holds program.code offset (.print newline :: rest))
    (within : inside (place fields offset (value :: entries) store)) :
    Passes program inside (place fields offset (value :: entries) store)
      (place fields (offset + 1) entries
        (store.print (if newline then value.printed ++ "\n" else value.printed))) :=
  passes_running held within rfl

end Stretches

end Lisp
end FragmentLisp
