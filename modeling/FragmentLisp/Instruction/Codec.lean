import FragmentLisp.Bytes
import FragmentLisp.Instruction

/-!
Instructions as bytes. The first byte tells the operation. An operand follows it in a fixed width, least
significant byte first; truth values are the bytes 0 and 1.
-/

namespace FragmentLisp

inductive DecodeError where
  /-- The byte at the offset is no operation, or no truth value where one is wanted. -/
  | unknownOpcode (opcode : UInt8) (offset : Nat)
  | truncated (offset : Nat)
deriving DecidableEq

namespace DecodeError

def hexDigit (value : Nat) : Char :=
  if value < 10 then Char.ofNat (48 + value) else Char.ofNat (87 + value)

def hexByte (byte : UInt8) : String :=
  String.ofList [hexDigit (byte.toNat / 16), hexDigit (byte.toNat % 16)]

def message : DecodeError → String
  | unknownOpcode opcode offset =>
      String.join ["unknown opcode 0x", hexByte opcode, " at offset ", toString offset]
  | truncated offset => String.join ["truncated instruction at offset ", toString offset]

end DecodeError

def ArithmeticOp.opcode : ArithmeticOp → UInt8
  | add => 0x10
  | subtract => 0x11
  | multiply => 0x12
  | divide => 0x13
  | modulo => 0x14

def OrderOp.opcode : OrderOp → UInt8
  | less => 0x21
  | greater => 0x22
  | lessEqual => 0x23
  | greaterEqual => 0x24

namespace Instruction

def encode : Instruction → List UInt8
  | pushInteger value => 0x01 :: Bytes.littleEndian 8 value.toUInt64.toNat
  | pushBoolean value => [0x02, if value then 1 else 0]
  | pushNil => [0x03]
  | pushConstant index => 0x04 :: Bytes.littleEndian 4 index.toNat
  | pop => [0x05]
  | arithmetic op => [op.opcode]
  | negate => [0x15]
  | equal => [0x20]
  | order op => [op.opcode]
  | not => [0x25]
  | jumpIfFalse target => 0x30 :: Bytes.littleEndian 4 target.toNat
  | jump target => 0x31 :: Bytes.littleEndian 4 target.toNat
  | storeLocal slot => 0x40 :: Bytes.littleEndian 2 slot.toNat
  | loadLocal slot => 0x41 :: Bytes.littleEndian 2 slot.toNat
  | storeField index => 0x42 :: Bytes.littleEndian 2 index.toNat
  | loadField index => 0x43 :: Bytes.littleEndian 2 index.toNat
  | concat parts => 0x50 :: Bytes.littleEndian 2 parts.toNat
  | count => [0x51]
  | print false => [0x52]
  | print true => [0x53]
  | «return» => [0x60]
  | returnVoid => [0x61]

def encodeAll (instructions : List Instruction) : List UInt8 :=
  instructions.flatMap encode

def operand (offset width : Nat) (bytes : List UInt8) : Except DecodeError Nat :=
  match Bytes.readFixed width bytes with
  | some (field, _) => .ok (Bytes.ofLittleEndian field)
  | none => .error (.truncated offset)

/-- The instruction that the bytes begin with. The offset is where they stand in the method, for the
errors to name. -/
def decode (offset : Nat) : List UInt8 → Except DecodeError Instruction
  | [] => .error (.truncated offset)
  | opcode :: bytes =>
      match opcode with
      | 0x01 => (operand offset 8 bytes).map fun word => pushInteger (UInt64.ofNat word).toInt64
      | 0x02 =>
          match bytes with
          | [] => .error (.truncated offset)
          | 0 :: _ => .ok (pushBoolean false)
          | 1 :: _ => .ok (pushBoolean true)
          | other :: _ => .error (.unknownOpcode other (offset + 1))
      | 0x03 => .ok pushNil
      | 0x04 => (operand offset 4 bytes).map fun word => pushConstant (UInt32.ofNat word)
      | 0x05 => .ok pop
      | 0x10 => .ok (arithmetic .add)
      | 0x11 => .ok (arithmetic .subtract)
      | 0x12 => .ok (arithmetic .multiply)
      | 0x13 => .ok (arithmetic .divide)
      | 0x14 => .ok (arithmetic .modulo)
      | 0x15 => .ok negate
      | 0x20 => .ok equal
      | 0x21 => .ok (order .less)
      | 0x22 => .ok (order .greater)
      | 0x23 => .ok (order .lessEqual)
      | 0x24 => .ok (order .greaterEqual)
      | 0x25 => .ok not
      | 0x30 => (operand offset 4 bytes).map fun word => jumpIfFalse (UInt32.ofNat word)
      | 0x31 => (operand offset 4 bytes).map fun word => jump (UInt32.ofNat word)
      | 0x40 => (operand offset 2 bytes).map fun word => storeLocal (UInt16.ofNat word)
      | 0x41 => (operand offset 2 bytes).map fun word => loadLocal (UInt16.ofNat word)
      | 0x42 => (operand offset 2 bytes).map fun word => storeField (UInt16.ofNat word)
      | 0x43 => (operand offset 2 bytes).map fun word => loadField (UInt16.ofNat word)
      | 0x50 => (operand offset 2 bytes).map fun word => concat (UInt16.ofNat word)
      | 0x51 => .ok count
      | 0x52 => .ok (print false)
      | 0x53 => .ok (print true)
      | 0x60 => .ok «return»
      | 0x61 => .ok returnVoid
      | other => .error (.unknownOpcode other offset)

def maxSize : Nat := 9

/-- The instruction that begins at an offset of a method. -/
def decodeAt (code : Array UInt8) (offset : Nat) : Except DecodeError Instruction :=
  decode offset (code.extract offset (offset + maxSize)).toList

theorem size_positive (instruction : Instruction) : 0 < instruction.size := by
  cases instruction <;> simp [size]

/-- The instructions from an offset on with their offsets, up to the end of the code or to the first
offset at which no instruction stands. -/
def listingFrom (code : Array UInt8) (offset : Nat) :
    List (Nat × Instruction) × Option DecodeError :=
  go offset []
where
  go (offset : Nat) (read : List (Nat × Instruction)) :
      List (Nat × Instruction) × Option DecodeError :=
    if offset < code.size then
      match decodeAt code offset with
      | .ok instruction => go (offset + instruction.size) ((offset, instruction) :: read)
      | .error error => (read.reverse, some error)
    else
      (read.reverse, none)
  termination_by code.size - offset
  decreasing_by
    have := instruction.size_positive
    omega

def listing (code : Array UInt8) : List (Nat × Instruction) × Option DecodeError :=
  listingFrom code 0

end Instruction
end FragmentLisp
