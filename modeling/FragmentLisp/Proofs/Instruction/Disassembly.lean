import FragmentLisp.Proofs.Instruction.Placement

/-!
Instructions and bytes tell each other exactly. Bytes that decode begin with the encoding of what they
decode to, so the code at an offset decodes to an instruction just when the encoding of that instruction
stands there, and code that can be listed to its end is the encoding of its listing. What does not decode
is cut short or holds a byte that means nothing.
-/

namespace FragmentLisp
namespace Instruction

open Bytes

section Operands

variable {offset width : Nat} {bytes : List UInt8} {instruction : Instruction}

theorem operand_sound {value : Nat} (found : operand offset width bytes = .ok value) :
    value < 256 ^ width ∧ ∃ rest, bytes = littleEndian width value ++ rest := by
  unfold operand at found
  cases split : readFixed width bytes with
  | none => simp [split] at found
  | some pair =>
      obtain ⟨field, rest⟩ := pair
      obtain ⟨rfl, rfl⟩ := readFixed_sound split
      rw [split] at found
      obtain rfl := Except.ok.inj found
      exact ⟨ofLittleEndian_lt field, rest, by rw [littleEndian_of]⟩

theorem operand_map_sound {build : Nat → Instruction}
    (decoded : (operand offset width bytes).map build = .ok instruction) :
    ∃ value rest, value < 256 ^ width ∧ instruction = build value ∧
      bytes = littleEndian width value ++ rest := by
  cases found : operand offset width bytes with
  | error error => simp [found, Except.map] at decoded
  | ok value =>
      rw [found] at decoded
      obtain ⟨fits, rest, split⟩ := operand_sound found
      exact ⟨value, rest, fits, (Except.ok.inj decoded).symm, split⟩

theorem operand_sound16 {build : UInt16 → Instruction}
    (decoded : (operand offset 2 bytes).map (fun value => build (UInt16.ofNat value)) =
      .ok instruction) :
    ∃ word rest, instruction = build word ∧ bytes = littleEndian 2 word.toNat ++ rest := by
  obtain ⟨value, rest, fits, built, split⟩ := operand_map_sound decoded
  exact ⟨UInt16.ofNat value, rest, built, by rw [UInt16.toNat_ofNat_of_lt' fits, split]⟩

theorem operand_sound32 {build : UInt32 → Instruction}
    (decoded : (operand offset 4 bytes).map (fun value => build (UInt32.ofNat value)) =
      .ok instruction) :
    ∃ word rest, instruction = build word ∧ bytes = littleEndian 4 word.toNat ++ rest := by
  obtain ⟨value, rest, fits, built, split⟩ := operand_map_sound decoded
  exact ⟨UInt32.ofNat value, rest, built, by rw [UInt32.toNat_ofNat_of_lt' fits, split]⟩

theorem operand_sound64 {build : UInt64 → Instruction}
    (decoded : (operand offset 8 bytes).map (fun value => build (UInt64.ofNat value)) =
      .ok instruction) :
    ∃ word rest, instruction = build word ∧ bytes = littleEndian 8 word.toNat ++ rest := by
  obtain ⟨value, rest, fits, built, split⟩ := operand_map_sound decoded
  exact ⟨UInt64.ofNat value, rest, built, by rw [UInt64.toNat_ofNat_of_lt' fits, split]⟩

theorem operand_map_error {build : Nat → Instruction} {error : DecodeError}
    (failed : (operand offset width bytes).map build = .error error) :
    error = .truncated offset := by
  unfold operand at failed
  cases split : readFixed width bytes with
  | none =>
      rw [split] at failed
      exact (Except.error.inj failed).symm
  | some pair => simp [split, Except.map] at failed

end Operands

/-- Bytes that decode begin with the encoding of the instruction. -/
theorem decode_sound {offset : Nat} {bytes : List UInt8} {instruction : Instruction}
    (decoded : decode offset bytes = .ok instruction) :
    ∃ rest, bytes = instruction.encode ++ rest := by
  unfold decode at decoded
  split at decoded
  · simp at decoded
  rename_i opcode operands
  split at decoded
  case h_1 =>
    obtain ⟨word, rest, rfl, rfl⟩ :=
      @operand_sound64 _ _ _ (fun word => pushInteger word.toInt64) decoded
    exact ⟨rest, by simp [encode]⟩
  case h_2 =>
    split at decoded
    · simp at decoded
    · obtain rfl := Except.ok.inj decoded
      exact ⟨_, rfl⟩
    · obtain rfl := Except.ok.inj decoded
      exact ⟨_, rfl⟩
    · simp at decoded
  case h_4 | h_18 | h_19 =>
    obtain ⟨word, rest, rfl, rfl⟩ := operand_sound32 decoded
    exact ⟨rest, rfl⟩
  case h_20 | h_21 | h_22 | h_23 | h_24 =>
    obtain ⟨word, rest, rfl, rfl⟩ := operand_sound16 decoded
    exact ⟨rest, rfl⟩
  case h_30 => simp at decoded
  all_goals
    obtain rfl := Except.ok.inj decoded
    exact ⟨operands, rfl⟩

/-- Bytes do not decode because they end too early, or because a byte stands among them that is no
operation, or no truth value where one is wanted. -/
theorem decode_error {offset : Nat} {bytes : List UInt8} {error : DecodeError}
    (failed : decode offset bytes = .error error) :
    error = .truncated offset ∨
      (∃ byte rest, bytes = byte :: rest ∧ error = .unknownOpcode byte offset) ∨
      ∃ byte rest, bytes = 0x02 :: byte :: rest ∧ error = .unknownOpcode byte (offset + 1) := by
  unfold decode at failed
  split at failed
  · exact Or.inl (Except.error.inj failed).symm
  rename_i opcode operands
  split at failed
  case h_2 =>
    split at failed
    · exact Or.inl (Except.error.inj failed).symm
    · simp at failed
    · simp at failed
    · exact Or.inr (Or.inr ⟨_, _, rfl, (Except.error.inj failed).symm⟩)
  case h_1 | h_4 | h_18 | h_19 | h_20 | h_21 | h_22 | h_23 | h_24 =>
    exact Or.inl (operand_map_error failed)
  case h_30 => exact Or.inr (Or.inl ⟨_, _, rfl, (Except.error.inj failed).symm⟩)
  all_goals simp at failed

/-- An error in the code is located where the instruction begins, save a truth value that is none, which
stands behind its operation. -/
theorem decodeAt_error {code : Array UInt8} {offset : Nat} {error : DecodeError}
    (failed : decodeAt code offset = .error error) :
    error = .truncated offset ∨
      ∃ byte place, error = .unknownOpcode byte place ∧ code[place]? = some byte ∧
        (place = offset ∨ place = offset + 1 ∧ code[offset]? = some 0x02) := by
  have window : ∀ index, index < maxSize →
      (code.extract offset (offset + maxSize)).toList[index]? = code[offset + index]? := by
    intro index small
    rw [Array.toList_extract, List.extract_eq_take_drop, Nat.add_sub_cancel_left,
      List.getElem?_take_of_lt small, List.getElem?_drop, Array.getElem?_toList]
  have first := window 0 (by decide)
  have second := window 1 (by decide)
  rcases decode_error failed with cut | ⟨byte, rest, bytes, rfl⟩ | ⟨byte, rest, bytes, rfl⟩
  · exact Or.inl cut
  · rw [bytes] at first
    exact Or.inr ⟨byte, offset, rfl, first.symm, Or.inl rfl⟩
  · rw [bytes] at first second
    exact Or.inr ⟨byte, offset + 1, rfl, second.symm, Or.inr ⟨rfl, first.symm⟩⟩

/-- At an offset of a code an instruction decodes just when its encoding stands there. -/
theorem decodeAt_eq_ok_iff {code : Array UInt8} {offset : Nat} {instruction : Instruction} :
    decodeAt code offset = .ok instruction ↔
      ∃ after, code.toList.drop offset = instruction.encode ++ after := by
  constructor
  · intro decoded
    obtain ⟨rest, window⟩ := decode_sound decoded
    rw [Array.toList_extract, List.extract_eq_take_drop, Nat.add_sub_cancel_left] at window
    refine ⟨rest ++ (code.toList.drop offset).drop maxSize, ?_⟩
    rw [← List.append_assoc, ← window, List.take_append_drop]
  · rintro ⟨after, stands⟩
    have split : code.toList = code.toList.take offset ++ (instruction.encode ++ after) := by
      rw [← stands, List.take_append_drop]
    have inside : offset ≤ code.toList.length := by
      apply Nat.le_of_not_lt
      intro beyond
      have empty := congrArg List.length stands
      have positive := instruction.size_positive
      rw [List.length_drop, List.length_append, encode_length] at empty
      omega
    have decoded := decodeAt_of_split split
    rwa [List.length_take_of_le inside] at decoded

theorem bytes_of_decodeAt {code : Array UInt8} {offset : Nat} {instruction : Instruction}
    (decoded : decodeAt code offset = .ok instruction) :
    offset + instruction.size ≤ code.size ∧
      (code.extract offset (offset + instruction.size)).toList = instruction.encode := by
  obtain ⟨after, stands⟩ := decodeAt_eq_ok_iff.mp decoded
  have total := congrArg List.length stands
  have positive := instruction.size_positive
  rw [List.length_drop, List.length_append, encode_length, Array.length_toList] at total
  refine ⟨by omega, ?_⟩
  rw [Array.toList_extract, List.extract_eq_take_drop, stands, Nat.add_sub_cancel_left,
    ← encode_length, List.take_left]

theorem Holds.stands {code : Array UInt8} {base : Nat} {instructions : List Instruction}
    (holds : Holds code base instructions) :
    ∃ after, code.toList.drop base = encodeAll instructions ++ after := by
  induction instructions generalizing base with
  | nil => exact ⟨code.toList.drop base, rfl⟩
  | cons instruction rest inductionHypothesis =>
      obtain ⟨⟨_, decoded⟩, behind⟩ := Holds.cons_iff.mp holds
      obtain ⟨others, stands⟩ := decodeAt_eq_ok_iff.mp decoded
      obtain ⟨after, standsBehind⟩ := inductionHypothesis behind
      have same : others = encodeAll rest ++ after := by
        rw [← standsBehind, ← List.drop_drop, stands, ← encode_length, List.drop_left]
      exact ⟨after, by rw [stands, same, encodeAll_cons, List.append_assoc]⟩

theorem listing_eq_iff {code : Array UInt8} {instructions : List Instruction} :
    listing code = (placed 0 instructions, none) ↔ code.toList = encodeAll instructions := by
  constructor
  · intro listed
    obtain ⟨holds, filled⟩ := holds_of_listing_placed listed
    obtain ⟨after, stands⟩ := holds.stands
    have total := congrArg List.length stands
    rw [List.drop_zero, List.length_append, Array.length_toList, encodeAll_length] at total
    obtain rfl : after = [] := List.eq_nil_of_length_eq_zero (by omega)
    simpa using stands
  · intro encoded
    rw [← listing_encodeAll, ← encoded]

theorem encodeAll_listing {code : Array UInt8} (complete : (listing code).2 = none) :
    code.toList = encodeAll ((listing code).1.map Prod.snd) := by
  have whole : listing code = ((listing code).1, none) := Prod.ext rfl complete
  obtain ⟨instructions, listed, _, _⟩ := holds_of_listing whole
  rw [listed] at whole ⊢
  rw [placed_instructions]
  exact listing_eq_iff.mp whole

/-- Encoding and decoding are inverse to each other. An instruction is read back at the offset at which
it was written, between any other bytes, and it takes as many bytes as were written; a run is listed as
itself. Whatever decodes lies inside the code and is the encoding of what it decodes to, so code that
can be listed to its end is the encoding of its listing and of no other. -/
theorem codec_is_exact :
    (∀ before left instruction right after,
      decodeAt (before ++ encodeAll (left ++ instruction :: right) ++ after).toArray
          (before.length + (encodeAll left).length) = .ok instruction ∧
        instruction.size = instruction.encode.length) ∧
    (∀ instructions,
      listing (encodeAll instructions).toArray = (placed 0 instructions, none) ∧
        (placed 0 instructions).map Prod.snd = instructions) ∧
    (∀ code offset instruction, decodeAt code offset = .ok instruction →
      offset + instruction.size ≤ code.size ∧
        (code.extract offset (offset + instruction.size)).toList = instruction.encode) ∧
    (∀ code, (listing code).2 = none →
      code.toList = encodeAll ((listing code).1.map Prod.snd)) ∧
    (∀ first second, (listing first).2 = none → (listing second).2 = none →
      (listing first).1.map Prod.snd = (listing second).1.map Prod.snd → first = second) := by
  refine ⟨?_, ?_, ?_, ?_, ?_⟩
  · intro before left instruction right after
    refine ⟨?_, (encode_length instruction).symm⟩
    rw [← List.length_append]
    refine @decodeAt_of_split _ _ (encodeAll right ++ after) instruction ?_
    simp [encodeAll]
  · intro instructions
    exact ⟨listing_encodeAll instructions, placed_instructions 0 instructions⟩
  · intro code offset instruction decoded
    exact bytes_of_decodeAt decoded
  · intro code complete
    exact encodeAll_listing complete
  · intro first second firstComplete secondComplete same
    apply Array.toList_inj.mp
    rw [encodeAll_listing firstComplete, encodeAll_listing secondComplete, same]

def branchCode : Array UInt8 :=
  #[0x02, 1, 0x30, 8, 0, 0, 0, 0x03, 0x61]

theorem branch_code_is_exact :
    decodeAt branchCode 2 = .ok (jumpIfFalse 8) ∧
    (branchCode.extract 2 7).toList = (jumpIfFalse 8).encode ∧
    (listing branchCode).2 = none ∧
    branchCode.toList = encodeAll [pushBoolean true, jumpIfFalse 8, pushNil, returnVoid] := by
  have decoded : decodeAt branchCode 2 = .ok (jumpIfFalse 8) := rfl
  have listed : listing branchCode =
      ([(0, pushBoolean true), (2, jumpIfFalse 8), (7, pushNil), (8, returnVoid)], none) := by
    decide +kernel
  have complete : (listing branchCode).2 = none := by rw [listed]
  have encoded := codec_is_exact.2.2.2.1 branchCode complete
  rw [listed] at encoded
  exact ⟨decoded, (codec_is_exact.2.2.1 branchCode 2 _ decoded).2, complete, encoded⟩

end Instruction
end FragmentLisp
