import FragmentLisp.Proofs.Artifact
import FragmentLisp.Proofs.Sequencing

/-!
The descriptive sections are canonical. Each reader takes off exactly the bytes that its writer would put
there for what was read, so a section can be read just when it was written for something that its words
can tell, and only for one thing.
-/

namespace FragmentLisp
namespace Section

open Bytes

section Readers

variable {input rest : List UInt8}

theorem expect_eq_ok_iff {condition : Bool} {malformation : Malformation} {value : Unit} :
    expect condition malformation = .ok value ↔ condition = true := by
  cases condition <;> simp [expect]

theorem readField_sound {length : Nat} {field : List UInt8}
    (read : readField length input = .ok (field, rest)) :
    field.length = length ∧ input = field ++ rest := by
  unfold readField at read
  cases found : readFixed length input with
  | none => simp [found] at read
  | some pair =>
      rw [found] at read
      obtain rfl := Except.ok.inj read
      exact readFixed_sound found

theorem readWord_sound {width value : Nat} (read : readWord width input = .ok (value, rest)) :
    value < 256 ^ width ∧ input = littleEndian width value ++ rest := by
  obtain ⟨⟨field, others⟩, found, made⟩ := bind_eq_ok.mp read
  obtain ⟨rfl, rfl⟩ := Prod.mk.inj (Except.ok.inj made)
  obtain ⟨rfl, split⟩ := readField_sound found
  exact ⟨ofLittleEndian_lt field, by rw [littleEndian_of, split]⟩

theorem readText_sound {length : Nat} {text : String}
    (read : readText length input = .ok (text, rest)) :
    text.utf8ByteSize = length ∧ input = utf8 text ++ rest := by
  obtain ⟨⟨field, others⟩, found, made⟩ := bind_eq_ok.mp read
  obtain ⟨sized, split⟩ := readField_sound found
  cases spelled : text? field with
  | none => simp [spelled, throw, throwThe, MonadExceptOf.throw] at made
  | some other =>
      simp only [spelled] at made
      obtain ⟨rfl, rfl⟩ := Prod.mk.inj (Except.ok.inj made)
      have bytes := utf8_of_text spelled
      exact ⟨by rw [← utf8_length, bytes, sized], by rw [bytes, split]⟩

theorem readFlag_sound {flag : Bool} (read : readFlag input = .ok (flag, rest)) :
    input = (if flag then 1 else 0) :: rest := by
  obtain ⟨⟨value, others⟩, found, made⟩ := bind_eq_ok.mp read
  obtain ⟨_, split⟩ := readWord_sound found
  match value with
  | 0 =>
      obtain ⟨rfl, rfl⟩ := Prod.mk.inj (Except.ok.inj made)
      exact split
  | 1 =>
      obtain ⟨rfl, rfl⟩ := Prod.mk.inj (Except.ok.inj made)
      exact split
  | _ + 2 => simp [throw, throwThe, MonadExceptOf.throw] at made

theorem readConstants_sound {count : Nat} {earlier constants : List String}
    (read : readConstants count earlier input = .ok (constants, rest)) :
    ∃ own, constants = earlier.reverse ++ own ∧ own.length = count ∧
      (∀ constant ∈ own, constant.utf8ByteSize < 256 ^ 4) ∧
      input = own.flatMap encodeConstant ++ rest := by
  induction count generalizing earlier input with
  | zero =>
      obtain ⟨rfl, rfl⟩ := Prod.mk.inj (Except.ok.inj read)
      exact ⟨[], by simp⟩
  | succ count inductionHypothesis =>
      rw [readConstants] at read
      cases prefixed : readWord 4 input with
      | error malformation => simp [prefixed] at read
      | ok word =>
          obtain ⟨length, afterLength⟩ := word
          cases spelled : readText length afterLength with
          | error malformation => simp [prefixed, spelled] at read
          | ok text =>
              obtain ⟨constant, others⟩ := text
              simp only [prefixed, spelled] at read
              obtain ⟨fits, rfl⟩ := readWord_sound prefixed
              obtain ⟨rfl, rfl⟩ := readText_sound spelled
              obtain ⟨own, rfl, sized, small, rfl⟩ := inductionHypothesis read
              refine ⟨constant :: own, by simp, by simp [sized],
                List.forall_mem_cons.mpr ⟨fits, small⟩, ?_⟩
              simp [encodeConstant]

theorem readSignature_sound {earlier : List Signature} {signature : Signature}
    (read : readSignature earlier input = .ok (signature, rest)) :
    NameFits signature ∧ (∀ other ∈ earlier, other.name ≠ signature.name) ∧
      input = encodeSignature signature ++ rest := by
  obtain ⟨⟨length, _⟩, prefixed, afterLength⟩ := bind_eq_ok.mp read
  obtain ⟨⟨name, _⟩, spelled, afterName⟩ := bind_eq_ok.mp afterLength
  obtain ⟨_, unused, afterCheck⟩ := bind_eq_ok.mp afterName
  obtain ⟨⟨arity, _⟩, arityRead, afterArity⟩ := bind_eq_ok.mp afterCheck
  obtain ⟨⟨locals, _⟩, localsRead, afterLocals⟩ := bind_eq_ok.mp afterArity
  obtain ⟨⟨maxStack, _⟩, maxStackRead, afterMaxStack⟩ := bind_eq_ok.mp afterLocals
  obtain ⟨⟨returnsValue, _⟩, flagRead, made⟩ := bind_eq_ok.mp afterMaxStack
  obtain ⟨rfl, rfl⟩ := Prod.mk.inj (Except.ok.inj made)
  obtain ⟨nameFits, rfl⟩ := readWord_sound prefixed
  obtain ⟨rfl, rfl⟩ := readText_sound spelled
  obtain ⟨arityFits, rfl⟩ := readWord_sound arityRead
  obtain ⟨localsFit, rfl⟩ := readWord_sound localsRead
  obtain ⟨maxStackFits, rfl⟩ := readWord_sound maxStackRead
  obtain rfl := readFlag_sound flagRead
  refine ⟨Nat.le_of_lt_succ nameFits, ?_, ?_⟩
  · intro other member
    exact of_decide_eq_true (List.all_eq_true.mp (expect_eq_ok_iff.mp unused) other member)
  · have arityByte : littleEndian 1 arity = [UInt8.ofNat arity] := by simp [littleEndian]
    have localsWord : (UInt16.ofNat locals).toNat = locals := UInt16.toNat_ofNat_of_lt' localsFit
    have maxStackWord : (UInt32.ofNat maxStack).toNat = maxStack :=
      UInt32.toNat_ofNat_of_lt' maxStackFits
    simp [encodeSignature, arityByte, localsWord, maxStackWord]

theorem readSignatures_sound {count : Nat} {earlier signatures : List Signature}
    (read : readSignatures count earlier input = .ok (signatures, rest))
    (distinct : (earlier.reverse.map Signature.name).Nodup) :
    (signatures.map Signature.name).Nodup ∧
      ∃ own, signatures = earlier.reverse ++ own ∧ own.length = count ∧
        (∀ signature ∈ own, NameFits signature) ∧
        input = own.flatMap encodeSignature ++ rest := by
  induction count generalizing earlier input with
  | zero =>
      obtain ⟨rfl, rfl⟩ := Prod.mk.inj (Except.ok.inj read)
      exact ⟨distinct, [], by simp⟩
  | succ count inductionHypothesis =>
      rw [readSignatures] at read
      cases first : readSignature earlier input with
      | error malformation => simp [first] at read
      | ok pair =>
          obtain ⟨signature, others⟩ := pair
          simp only [first] at read
          obtain ⟨fits, fresh, rfl⟩ := readSignature_sound first
          have longer : (((signature :: earlier).reverse).map Signature.name).Nodup := by
            rw [List.reverse_cons, List.map_append, List.nodup_append]
            refine ⟨distinct, by simp, ?_⟩
            intro name member other own same
            obtain ⟨previous, inside, rfl⟩ := List.mem_map.mp member
            obtain rfl : other = signature.name := by simpa using own
            exact fresh previous (List.mem_reverse.mp inside) same
          obtain ⟨allDistinct, own, rfl, sized, allFit, rfl⟩ := inductionHypothesis read longer
          refine ⟨allDistinct, signature :: own, by simp, by simp [sized],
            List.forall_mem_cons.mpr ⟨fits, allFit⟩, ?_⟩
          simp

end Readers

/-- A constants section can be read just when it was written for constants that fit their words. -/
theorem decodeConstants_eq_ok_iff {bytes : List UInt8} {constants : List String} :
    decodeConstants bytes = .ok constants ↔
      (constants.length < 256 ^ 4 ∧ ∀ constant ∈ constants, constant.utf8ByteSize < 256 ^ 4) ∧
        encodeConstants constants = bytes := by
  constructor
  · intro decoded
    obtain ⟨⟨count, afterCount⟩, counted, afterCounting⟩ := bind_eq_ok.mp decoded
    obtain ⟨⟨found, others⟩, read, afterReading⟩ := bind_eq_ok.mp afterCounting
    obtain ⟨_, ended, made⟩ := bind_eq_ok.mp afterReading
    obtain rfl := Except.ok.inj made
    obtain rfl := List.isEmpty_iff.mp (expect_eq_ok_iff.mp ended)
    obtain ⟨fits, rfl⟩ := readWord_sound counted
    obtain ⟨own, rfl, rfl, small, rfl⟩ := readConstants_sound read
    exact ⟨⟨fits, small⟩, by simp [encodeConstants]⟩
  · rintro ⟨⟨count, sizes⟩, rfl⟩
    exact decode_encodeConstants count sizes

/-- A metadata section can be read just when it was written for methods that can be told apart. -/
theorem decodeMetadata_eq_ok_iff {bytes : List UInt8} {metadata : Metadata} :
    decodeMetadata bytes = .ok metadata ↔
      (metadata.signatures.map Signature.name).Nodup ∧ encodeMetadata metadata = .ok bytes := by
  constructor
  · intro decoded
    obtain ⟨⟨word, _⟩, wordRead, afterWord⟩ := bind_eq_ok.mp decoded
    obtain ⟨_, magical, afterMagic⟩ := bind_eq_ok.mp afterWord
    obtain ⟨⟨version, _⟩, versionRead, afterVersion⟩ := bind_eq_ok.mp afterMagic
    obtain ⟨_, supported, afterSupport⟩ := bind_eq_ok.mp afterVersion
    obtain ⟨⟨length, _⟩, prefixed, afterLength⟩ := bind_eq_ok.mp afterSupport
    obtain ⟨⟨name, _⟩, spelled, afterName⟩ := bind_eq_ok.mp afterLength
    obtain ⟨⟨fieldCount, _⟩, fieldsRead, afterFields⟩ := bind_eq_ok.mp afterName
    obtain ⟨⟨count, _⟩, counted, afterCount⟩ := bind_eq_ok.mp afterFields
    obtain ⟨⟨signatures, _⟩, read, afterReading⟩ := bind_eq_ok.mp afterCount
    obtain ⟨_, ended, made⟩ := bind_eq_ok.mp afterReading
    obtain rfl := Except.ok.inj made
    obtain rfl := of_decide_eq_true (expect_eq_ok_iff.mp magical)
    obtain rfl := of_decide_eq_true (expect_eq_ok_iff.mp supported)
    obtain rfl := List.isEmpty_iff.mp (expect_eq_ok_iff.mp ended)
    obtain ⟨_, rfl⟩ := readField_sound wordRead
    obtain ⟨_, rfl⟩ := readWord_sound versionRead
    obtain ⟨nameFits, rfl⟩ := readWord_sound prefixed
    obtain ⟨rfl, rfl⟩ := readText_sound spelled
    obtain ⟨fieldsFit, rfl⟩ := readWord_sound fieldsRead
    obtain ⟨countFits, rfl⟩ := readWord_sound counted
    obtain ⟨distinct, own, rfl, rfl, allFit, rfl⟩ := readSignatures_sound read List.nodup_nil
    have fieldsWord : (UInt16.ofNat fieldCount).toNat = fieldCount :=
      UInt16.toNat_ofNat_of_lt' fieldsFit
    refine ⟨distinct, encodeMetadata_ok_iff.mpr ⟨⟨?_, ?_, allFit⟩, ?_⟩⟩
    · exact Nat.le_of_lt_succ nameFits
    · exact Nat.le_of_lt_succ countFits
    · simp [fieldsWord]
  · rintro ⟨distinct, encoded⟩
    exact decode_encodeMetadata encoded distinct

/-- The type that a metadata section describes, as long as its constants and its code are not known. -/
def Metadata.outline (metadata : Metadata) : TypeDefinition :=
  { name := metadata.name
    fieldCount := metadata.fieldCount
    constants := []
    methods := metadata.signatures.map fun signature => { signature, code := #[] } }

@[simp] theorem Metadata.metadata_outline (metadata : Metadata) :
    metadata.outline.metadata = metadata := by
  simp [Metadata.outline, TypeDefinition.metadata, Function.comp_def]

/-- Both descriptive sections are canonical. Bytes are a metadata section that can be read just when they
are what some type with distinct method names is written as, and a constants section just when they are
what some constants are written as whose number and sizes fit 32 bits. Writing what was read gives the
same bytes again, so bytes that differ from what was written are never read as the same. -/
theorem sections_are_canonical :
    (∀ bytes, (∃ metadata, decodeMetadata bytes = .ok metadata) ↔
      ∃ definition : TypeDefinition,
        (definition.methods.map fun method => method.signature.name).Nodup ∧
          encodeMetadata definition.metadata = .ok bytes) ∧
    (∀ bytes metadata, decodeMetadata bytes = .ok metadata ↔
      (metadata.signatures.map Signature.name).Nodup ∧ encodeMetadata metadata = .ok bytes) ∧
    (∀ (definition : TypeDefinition) written altered,
      encodeMetadata definition.metadata = .ok written → altered ≠ written →
        decodeMetadata altered ≠ .ok definition.metadata) ∧
    (∀ bytes, (∃ constants, decodeConstants bytes = .ok constants) ↔
      ∃ constants : List String, constants.length < 2 ^ 32 ∧
        (∀ constant ∈ constants, constant.utf8ByteSize < 2 ^ 32) ∧
          encodeConstants constants = bytes) ∧
    (∀ bytes constants, decodeConstants bytes = .ok constants ↔
      (constants.length < 2 ^ 32 ∧ ∀ constant ∈ constants, constant.utf8ByteSize < 2 ^ 32) ∧
        encodeConstants constants = bytes) ∧
    (∀ constants altered, altered ≠ encodeConstants constants →
      decodeConstants altered ≠ .ok constants) := by
  refine ⟨?_, ?_, ?_, ?_, ?_, ?_⟩
  · intro bytes
    constructor
    · rintro ⟨metadata, decoded⟩
      obtain ⟨distinct, encoded⟩ := decodeMetadata_eq_ok_iff.mp decoded
      refine ⟨metadata.outline, ?_, by rwa [Metadata.metadata_outline]⟩
      rwa [← TypeDefinition.names_metadata, Metadata.metadata_outline]
    · rintro ⟨definition, distinct, encoded⟩
      rw [← TypeDefinition.names_metadata] at distinct
      exact ⟨definition.metadata, decodeMetadata_eq_ok_iff.mpr ⟨distinct, encoded⟩⟩
  · intro bytes metadata
    exact decodeMetadata_eq_ok_iff
  · intro definition written altered encoded different decoded
    have again := (decodeMetadata_eq_ok_iff.mp decoded).2
    exact different (Except.ok.inj (again.symm.trans encoded))
  · intro bytes
    constructor
    · rintro ⟨constants, decoded⟩
      obtain ⟨⟨count, sizes⟩, encoded⟩ := decodeConstants_eq_ok_iff.mp decoded
      exact ⟨constants, count, sizes, encoded⟩
    · rintro ⟨constants, count, sizes, encoded⟩
      exact ⟨constants, decodeConstants_eq_ok_iff.mpr ⟨⟨count, sizes⟩, encoded⟩⟩
  · intro bytes constants
    exact decodeConstants_eq_ok_iff
  · intro constants altered different decoded
    exact different (decodeConstants_eq_ok_iff.mp decoded).2.symm

def namelessType : TypeDefinition :=
  { name := "Größe"
    fieldCount := 3
    constants := ["", "é"]
    methods :=
      [{ signature := { name := "", arity := 0, locals := 0, maxStack := 1, returnsValue := false }
         code := #[] },
       { signature := { name := "run", arity := 2, locals := 300, maxStack := 70000, returnsValue := true }
         code := #[0x61] }] }

theorem nameless_sections_are_canonical :
    ∃ written, encodeMetadata namelessType.metadata = .ok written ∧
      decodeMetadata written = .ok namelessType.metadata ∧
      decodeMetadata (written ++ [0]) ≠ .ok namelessType.metadata ∧
      decodeConstants (encodeConstants namelessType.constants) = .ok namelessType.constants ∧
      decodeConstants ((encodeConstants namelessType.constants).dropLast) ≠
        .ok namelessType.constants := by
  obtain ⟨_, readMetadata, alteredMetadata, _, readConstants, alteredConstants⟩ :=
    sections_are_canonical
  have encoded : encodeMetadata namelessType.metadata = .ok _ := rfl
  refine ⟨_, encoded, (readMetadata _ _).mpr ⟨by decide, encoded⟩,
    alteredMetadata namelessType _ _ encoded ?_,
    (readConstants _ _).mpr ⟨⟨by decide, by decide⟩, rfl⟩, alteredConstants _ _ (by decide)⟩
  intro same
  simpa using congrArg List.length same

end Section
end FragmentLisp
