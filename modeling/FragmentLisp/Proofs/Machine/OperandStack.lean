import FragmentLisp.Machine.OperandStack
import Mathlib.Algebra.GroupWithZero.Nat

/-!
Operand stacks as lists of their entries. A stack is determined by its entries, and each operation is
one on lists.
-/

namespace FragmentLisp
namespace OperandStack

/-- The stack with these entries, the top first. -/
def ofEntries (entries : List Value) : OperandStack :=
  { entries, height := entries.length, height_eq := rfl }

@[simp] theorem entries_ofEntries (entries : List Value) : (ofEntries entries).entries = entries :=
  rfl

@[simp] theorem height_ofEntries (entries : List Value) :
    (ofEntries entries).height = entries.length := rfl

theorem eq_ofEntries (stack : OperandStack) : stack = ofEntries stack.entries :=
  ext_entries rfl

theorem empty_eq_ofEntries : empty = ofEntries [] := rfl

@[simp] theorem push_ofEntries (limit : Nat) (value : Value) (entries : List Value) :
    (ofEntries entries).push limit value =
      if limit ≤ entries.length then .error (.stackOverflow limit)
      else .ok (ofEntries (value :: entries)) := rfl

@[simp] theorem pop_ofEntries_nil (offset : Nat) :
    (ofEntries []).pop offset = .error (.stackUnderflow offset) := rfl

@[simp] theorem pop_ofEntries_cons (offset : Nat) (value : Value) (entries : List Value) :
    (ofEntries (value :: entries)).pop offset = .ok (value, ofEntries entries) := rfl

@[simp] theorem popMany_ofEntries (count offset : Nat) (entries : List Value) :
    (ofEntries entries).popMany count offset =
      if entries.length < count then .error (.stackUnderflow offset)
      else .ok ((entries.take count).reverse, ofEntries (entries.drop count)) := by
  by_cases short : entries.length < count
  · rw [if_pos short]
    exact if_pos short
  · have rest : (ofEntries entries).popMany count offset = .ok ((entries.take count).reverse, _) :=
      if_neg short
    rw [if_neg short, rest]
    exact congrArg (fun stack => Except.ok (_, stack)) (ext_entries rfl)

/-- Two integers on top of the stack; the upper one is checked before the lower one is looked at. -/
@[simp] theorem popIntegers_ofEntries (offset : Nat) (operation : String) (upper lower : Value)
    (entries : List Value) :
    (ofEntries (upper :: lower :: entries)).popIntegers offset operation = do
      let right ← expectInteger operation upper
      let left ← expectInteger operation lower
      return (left, right, ofEntries entries) := by
  cases upper <;> cases lower <;> rfl

end OperandStack
end FragmentLisp
