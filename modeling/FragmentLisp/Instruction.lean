/-!
The instructions of the stack machine. A jump names the byte of the method at which execution goes on.
Of two operands the second is on top of the stack.
-/

namespace FragmentLisp

inductive ArithmeticOp where
  | add
  | subtract
  | multiply
  | divide
  | modulo
deriving DecidableEq

inductive OrderOp where
  | less
  | greater
  | lessEqual
  | greaterEqual
deriving DecidableEq

def ArithmeticOp.name : ArithmeticOp → String
  | add => "+"
  | subtract => "-"
  | multiply => "*"
  | divide => "/"
  | modulo => "mod"

def OrderOp.name : OrderOp → String
  | less => "<"
  | greater => ">"
  | lessEqual => "<="
  | greaterEqual => ">="

inductive Instruction where
  | pushInteger (value : Int64)
  | pushBoolean (value : Bool)
  | pushNil
  | pushConstant (index : UInt32)
  | pop
  | arithmetic (op : ArithmeticOp)
  | negate
  | equal
  | order (op : OrderOp)
  | not
  | jumpIfFalse (target : UInt32)
  | jump (target : UInt32)
  | storeLocal (slot : UInt16)
  | loadLocal (slot : UInt16)
  | storeField (index : UInt16)
  | loadField (index : UInt16)
  | concat (parts : UInt16)
  | count
  | print (newline : Bool)
  | return
  | returnVoid
deriving DecidableEq, Inhabited

namespace Instruction

def size : Instruction → Nat
  | pushInteger _ => 9
  | pushBoolean _ => 2
  | pushConstant _ => 5
  | jumpIfFalse _ => 5
  | jump _ => 5
  | storeLocal _ => 3
  | loadLocal _ => 3
  | storeField _ => 3
  | loadField _ => 3
  | concat _ => 3
  | _ => 1

/-- How many operands the instruction takes from the stack, and how many it leaves there. -/
def stackEffect : Instruction → Nat × Nat
  | pushInteger _ => (0, 1)
  | pushBoolean _ => (0, 1)
  | pushNil => (0, 1)
  | pushConstant _ => (0, 1)
  | pop => (1, 0)
  | arithmetic _ => (2, 1)
  | negate => (1, 1)
  | equal => (2, 1)
  | order _ => (2, 1)
  | not => (1, 1)
  | jumpIfFalse _ => (1, 0)
  | jump _ => (0, 0)
  | storeLocal _ => (1, 0)
  | loadLocal _ => (0, 1)
  | storeField _ => (1, 0)
  | loadField _ => (0, 1)
  | concat parts => (parts.toNat, 1)
  | count => (1, 1)
  | print _ => (1, 0)
  | «return» => (1, 0)
  | returnVoid => (0, 0)

def jumpTarget? : Instruction → Option Nat
  | jumpIfFalse target => some target.toNat
  | jump target => some target.toNat
  | _ => none

def fallsThrough : Instruction → Bool
  | pushInteger _ => true
  | pushBoolean _ => true
  | pushNil => true
  | pushConstant _ => true
  | pop => true
  | arithmetic _ => true
  | negate => true
  | equal => true
  | order _ => true
  | not => true
  | jumpIfFalse _ => true
  | jump _ => false
  | storeLocal _ => true
  | loadLocal _ => true
  | storeField _ => true
  | loadField _ => true
  | concat _ => true
  | count => true
  | print _ => true
  | «return» => false
  | returnVoid => false

/-- Where execution can go on after the instruction, which stands at `offset`: the next instruction
comes before the target of a jump. -/
def successors (offset : Nat) (instruction : Instruction) : List Nat :=
  (if instruction.fallsThrough then [offset + instruction.size] else []) ++
    instruction.jumpTarget?.toList

end Instruction

def codeSize (instructions : List Instruction) : Nat :=
  instructions.foldr (fun instruction size => instruction.size + size) 0

end FragmentLisp
