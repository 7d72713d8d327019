import FragmentLisp.Machine.Fault
import FragmentLisp.Value

/-!
The operand stack of a run. Its height is kept beside its entries, so that the limit is checked without
counting them.
-/

namespace FragmentLisp

structure OperandStack where
  /-- The top of the stack comes first. -/
  entries : List Value
  height : Nat
  height_eq : height = entries.length

namespace OperandStack

def empty : OperandStack :=
  { entries := [], height := 0, height_eq := rfl }

@[ext] theorem ext_entries {left right : OperandStack} (same : left.entries = right.entries) :
    left = right := by
  cases left
  cases right
  simp_all

def push (limit : Nat) (value : Value) (stack : OperandStack) : Except Fault OperandStack :=
  if limit ≤ stack.height then .error (.stackOverflow limit)
  else
    .ok
      { entries := value :: stack.entries
        height := stack.height + 1
        height_eq := by simp [stack.height_eq] }

/-- The top of the stack and what is under it; the offset is that of the instruction that pops. -/
def pop (offset : Nat) (stack : OperandStack) : Except Fault (Value × OperandStack) :=
  match held : stack.entries with
  | [] => .error (.stackUnderflow offset)
  | value :: entries =>
      .ok
        (value,
          { entries
            height := stack.height - 1
            height_eq := by simp [stack.height_eq, held] })

/-- The topmost values in the order in which they were pushed. -/
def popMany (count offset : Nat) (stack : OperandStack) :
    Except Fault (List Value × OperandStack) :=
  if stack.height < count then .error (.stackUnderflow offset)
  else
    .ok
      ((stack.entries.take count).reverse,
        { entries := stack.entries.drop count
          height := stack.height - count
          height_eq := by simp [stack.height_eq] })

def expectInteger (operation : String) : Value → Except Fault Int64
  | .integer value => .ok value
  | other => .error (.typeMismatch operation "number" other.typeName)

/-- The two topmost integers, the deeper one first. The upper one is taken and checked first. -/
def popIntegers (offset : Nat) (operation : String) (stack : OperandStack) :
    Except Fault (Int64 × Int64 × OperandStack) := do
  let (upper, stack) ← stack.pop offset
  let right ← expectInteger operation upper
  let (lower, stack) ← stack.pop offset
  let left ← expectInteger operation lower
  return (left, right, stack)

end OperandStack
end FragmentLisp
