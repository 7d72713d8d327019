import FragmentLisp.TypeDefinition.Section
import FragmentLisp.Proofs.Bytes

/-!
The descriptive sections read back as what they were written from, where the counts and the lengths fit
their words. Each reader is shown to take off exactly the bytes that its writer puts in front of any
others.
-/

namespace FragmentLisp
namespace Section

open Bytes

theorem readField_append {field : List UInt8} {length : Nat} (rest : List UInt8)
    (sized : field.length = length) : readField length (field ++ rest) = .ok (field, rest) := by
  rw [readField, readFixed_append rest sized]

theorem readWord_append {width value : Nat} (rest : List UInt8) (fits : value < 256 ^ width) :
    readWord width (littleEndian width value ++ rest) = .ok (value, rest) := by
  rw [readWord, readField_append rest (littleEndian_length width value)]
  change Except.ok (ofLittleEndian (littleEndian width value), rest) = _
  rw [of_littleEndian_of_lt fits]

theorem readText_append (text : String) (rest : List UInt8) :
    readText text.utf8ByteSize (utf8 text ++ rest) = .ok (text, rest) := by
  rw [readText, readField_append rest (utf8_length text)]
  simp only [bind, Except.bind, text_utf8]
  rfl

theorem readConstants_append {constants : List String}
    (fits : ∀ constant ∈ constants, constant.utf8ByteSize < 256 ^ 4) (earlier : List String)
    (rest : List UInt8) :
    readConstants constants.length earlier (constants.flatMap encodeConstant ++ rest) =
      .ok (earlier.reverse ++ constants, rest) := by
  induction constants generalizing earlier with
  | nil => simp [readConstants]
  | cons constant others inductionHypothesis =>
      rw [List.length_cons, readConstants, List.flatMap_cons, encodeConstant, List.append_assoc,
        List.append_assoc, readWord_append _ (fits constant List.mem_cons_self)]
      simp only
      rw [readText_append]
      simp only
      rw [inductionHypothesis fun other member => fits other (List.mem_cons_of_mem _ member)]
      simp

theorem decode_encodeConstants {constants : List String} (count : constants.length < 256 ^ 4)
    (fits : ∀ constant ∈ constants, constant.utf8ByteSize < 256 ^ 4) :
    decodeConstants (encodeConstants constants) = .ok constants := by
  have body := readConstants_append fits [] []
  rw [List.append_nil] at body
  rw [decodeConstants, encodeConstants, readWord_append _ count]
  change (readConstants constants.length [] (constants.flatMap encodeConstant)).bind _ = _
  rw [body]
  rfl

def NameFits (signature : Signature) : Prop :=
  signature.name.utf8ByteSize ≤ 255

theorem readFlag_cons (flag : Bool) (rest : List UInt8) :
    readFlag ((if flag then 1 else 0) :: rest) = .ok (flag, rest) := by
  cases flag <;> rfl

theorem readSignature_append {signature : Signature} {earlier : List Signature}
    (fits : NameFits signature)
    (fresh : ∀ other ∈ earlier, other.name ≠ signature.name) (rest : List UInt8) :
    readSignature earlier (encodeSignature signature ++ rest) = .ok (signature, rest) := by
  have nameFits : signature.name.utf8ByteSize < 256 ^ 1 := by
    unfold NameFits at fits
    omega
  have arity : [signature.arity] = littleEndian 1 signature.arity.toNat := by
    simp [littleEndian]
  have unused : (earlier.all fun other => decide (other.name ≠ signature.name)) = true := by
    rw [List.all_eq_true]
    intro other member
    exact decide_eq_true (fresh other member)
  rw [encodeSignature, arity]
  simp only [List.append_assoc]
  rw [readSignature, readWord_append _ nameFits]
  simp only [bind, Except.bind]
  rw [readText_append]
  simp only [unused, expect, if_true]
  rw [readWord_append _ (by simpa using signature.arity.toNat_lt)]
  simp only
  rw [readWord_append _ (by simpa using signature.locals.toNat_lt)]
  simp only
  rw [readWord_append _ (by simpa using signature.maxStack.toNat_lt)]
  simp only [List.cons_append, List.nil_append]
  rw [readFlag_cons]
  simp [pure, Except.pure]

theorem readSignatures_append {signatures earlier : List Signature}
    (fits : ∀ signature ∈ signatures, NameFits signature)
    (distinct : ((earlier.reverse ++ signatures).map Signature.name).Nodup) (rest : List UInt8) :
    readSignatures signatures.length earlier (signatures.flatMap encodeSignature ++ rest) =
      .ok (earlier.reverse ++ signatures, rest) := by
  induction signatures generalizing earlier with
  | nil => simp [readSignatures]
  | cons signature others inductionHypothesis =>
      have fresh : ∀ other ∈ earlier, other.name ≠ signature.name := by
        intro other member same
        rw [List.map_append, List.nodup_append] at distinct
        exact distinct.2.2 other.name
          (List.mem_map.mpr ⟨other, List.mem_reverse.mpr member, rfl⟩) signature.name (by simp) same
      rw [List.length_cons, readSignatures, List.flatMap_cons, List.append_assoc,
        readSignature_append (fits signature List.mem_cons_self) fresh]
      simp only
      rw [inductionHypothesis (fun other member => fits other (List.mem_cons_of_mem _ member))
        (by simpa using distinct)]
      simp

theorem encodeMetadata_ok_iff {metadata : Metadata} {bytes : List UInt8} :
    encodeMetadata metadata = .ok bytes ↔
      (metadata.name.utf8ByteSize ≤ 65535 ∧ metadata.signatures.length ≤ 65535 ∧
        ∀ signature ∈ metadata.signatures, NameFits signature) ∧
      bytes = magic ++ littleEndian 2 formatVersion ++
        littleEndian 2 metadata.name.utf8ByteSize ++ utf8 metadata.name ++
        littleEndian 2 metadata.fieldCount.toNat ++
        littleEndian 2 metadata.signatures.length ++
        metadata.signatures.flatMap encodeSignature := by
  unfold encodeMetadata
  by_cases longName : 65535 < metadata.name.utf8ByteSize
  · simp [longName, Nat.not_le.mpr longName]
  by_cases many : 65535 < metadata.signatures.length
  · simp [longName, many, Nat.not_le.mpr many]
  rw [if_neg longName, if_neg many]
  by_cases long : (metadata.signatures.any fun signature =>
      decide (255 < signature.name.utf8ByteSize)) = true
  · rw [if_pos long]
    obtain ⟨signature, member, tooLong⟩ := List.any_eq_true.mp long
    have beyond : ¬ NameFits signature := Nat.not_le.mpr (of_decide_eq_true tooLong)
    refine ⟨fun impossible => by simp at impossible, fun both => ?_⟩
    exact absurd (both.1.2.2 signature member) beyond
  · rw [if_neg long]
    have short : ∀ signature ∈ metadata.signatures, NameFits signature := by
      intro signature member
      apply Nat.le_of_not_lt
      intro beyond
      exact long (List.any_eq_true.mpr ⟨signature, member, decide_eq_true beyond⟩)
    constructor
    · intro same
      exact ⟨⟨Nat.le_of_not_lt longName, Nat.le_of_not_lt many, short⟩,
        (Except.ok.inj same).symm⟩
    · rintro ⟨_, rfl⟩
      rfl

theorem decode_encodeMetadata {metadata : Metadata} {bytes : List UInt8}
    (written : encodeMetadata metadata = .ok bytes)
    (distinct : (metadata.signatures.map Signature.name).Nodup) :
    decodeMetadata bytes = .ok metadata := by
  obtain ⟨⟨nameFits, countFits, namesFit⟩, rfl⟩ := encodeMetadata_ok_iff.mp written
  have body := @readSignatures_append _ [] namesFit distinct []
  rw [List.append_nil] at body
  simp only [List.append_assoc]
  rw [decodeMetadata, readField_append _ (show magic.length = 4 from rfl)]
  simp only [bind, Except.bind, expect, decide_true, if_true]
  rw [readWord_append _ (show formatVersion < 256 ^ 2 by decide)]
  simp only [decide_true, if_true]
  rw [readWord_append _ (show metadata.name.utf8ByteSize < 256 ^ 2 by omega)]
  simp only
  rw [readText_append]
  simp only
  rw [readWord_append _ (by simpa using metadata.fieldCount.toNat_lt)]
  simp only
  rw [readWord_append _ (show metadata.signatures.length < 256 ^ 2 by omega)]
  simp only [body]
  simp [pure, Except.pure]

end Section
end FragmentLisp
