import FragmentLisp.Instruction.Codec

/-!
A method body under construction. Instructions are numbered as they are added. A jump can be added
before its target is known and pointed at an instruction later, since the size of an instruction does
not depend on its operand.
-/

namespace FragmentLisp

structure Assembly where
  instructions : Array Instruction

namespace Assembly

def empty : Assembly :=
  { instructions := #[] }

def next (assembly : Assembly) : Nat :=
  assembly.instructions.size

def add (assembly : Assembly) (instruction : Instruction) : Assembly :=
  { instructions := assembly.instructions.push instruction }

def extend (assembly : Assembly) (instructions : List Instruction) : Assembly :=
  { instructions := assembly.instructions ++ instructions }

/-- The byte at which an instruction begins; the number after the last one stands for the end. -/
def byteOffset (assembly : Assembly) (index : Nat) : Nat :=
  codeSize (assembly.instructions.toList.take index)

end Assembly

def Instruction.retarget (target : UInt32) : Instruction → Instruction
  | jumpIfFalse _ => jumpIfFalse target
  | jump _ => jump target
  | instruction => instruction

namespace Assembly

/-- Point the jump with the number `index` at the instruction with the number `target`. -/
def patchJump (assembly : Assembly) (index target : Nat) : Assembly :=
  let byte := UInt32.ofNat (assembly.byteOffset target)
  { instructions := assembly.instructions.modify index (·.retarget byte) }

def encode (assembly : Assembly) : Array UInt8 :=
  (Instruction.encodeAll assembly.instructions.toList).toArray

end Assembly
end FragmentLisp
