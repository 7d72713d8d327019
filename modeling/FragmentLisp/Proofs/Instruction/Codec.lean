import FragmentLisp.Assembly
import FragmentLisp.Proofs.Bytes

/-!
Instructions read back from the bytes that they are written as. Code holds a run of instructions at an
offset when each of them decodes where the ones before it end; the encoding of a run holds it at 0, and
the listing of that encoding is the run with its offsets.
-/

namespace FragmentLisp
namespace Instruction

open Bytes

theorem encode_length (instruction : Instruction) : instruction.encode.length = instruction.size := by
  cases instruction with
  | print newline => cases newline <;> rfl
  | _ => simp [encode, size]

theorem size_le_maxSize (instruction : Instruction) : instruction.size ≤ maxSize := by
  cases instruction <;> simp [size, maxSize]

theorem operand_littleEndian
    {width value : Nat} (offset : Nat) (rest : List UInt8) (fits : value < 256 ^ width) :
    operand offset width (littleEndian width value ++ rest) = .ok value := by
  rw [operand, readFixed_append rest (littleEndian_length width value)]
  exact congrArg Except.ok (of_littleEndian_of_lt fits)

theorem operand_word16 (build : UInt16 → Instruction) (word : UInt16) (offset : Nat)
    (rest : List UInt8) :
    (operand offset 2 (littleEndian 2 word.toNat ++ rest)).map
      (fun value => build (UInt16.ofNat value)) = .ok (build word) := by
  rw [operand_littleEndian offset rest (by simpa using word.toNat_lt)]
  exact congrArg (fun word => Except.ok (build word)) UInt16.ofNat_toNat

theorem operand_word32 (build : UInt32 → Instruction) (word : UInt32) (offset : Nat)
    (rest : List UInt8) :
    (operand offset 4 (littleEndian 4 word.toNat ++ rest)).map
      (fun value => build (UInt32.ofNat value)) = .ok (build word) := by
  rw [operand_littleEndian offset rest (by simpa using word.toNat_lt)]
  exact congrArg (fun word => Except.ok (build word)) UInt32.ofNat_toNat

theorem operand_word64 (build : UInt64 → Instruction) (word : UInt64) (offset : Nat)
    (rest : List UInt8) :
    (operand offset 8 (littleEndian 8 word.toNat ++ rest)).map
      (fun value => build (UInt64.ofNat value)) = .ok (build word) := by
  rw [operand_littleEndian offset rest (by simpa using word.toNat_lt)]
  exact congrArg (fun word => Except.ok (build word)) UInt64.ofNat_toNat

theorem decode_encode (instruction : Instruction) (offset : Nat) (rest : List UInt8) :
    decode offset (instruction.encode ++ rest) = .ok instruction := by
  cases instruction with
  | pushInteger value =>
      exact operand_word64 (fun word => pushInteger word.toInt64) value.toUInt64 offset rest
  | pushBoolean value => cases value <;> rfl
  | pushConstant index => exact operand_word32 pushConstant index offset rest
  | jumpIfFalse target => exact operand_word32 jumpIfFalse target offset rest
  | jump target => exact operand_word32 jump target offset rest
  | storeLocal slot => exact operand_word16 storeLocal slot offset rest
  | loadLocal slot => exact operand_word16 loadLocal slot offset rest
  | storeField index => exact operand_word16 storeField index offset rest
  | loadField index => exact operand_word16 loadField index offset rest
  | concat parts => exact operand_word16 concat parts offset rest
  | arithmetic op => cases op <;> rfl
  | order op => cases op <;> rfl
  | print newline => cases newline <;> rfl
  | _ => rfl

end Instruction
end FragmentLisp
