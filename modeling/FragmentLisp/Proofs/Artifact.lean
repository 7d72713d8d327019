import FragmentLisp.Artifact
import FragmentLisp.Proofs.ObjectFile
import FragmentLisp.Proofs.Sequencing
import FragmentLisp.Proofs.TypeDefinition.Section
import Mathlib.Algebra.Order.BigOperators.Group.List
import Mathlib.Algebra.Order.Group.Nat

/-!
A type that has been written reads back as itself. Methods are told apart by their names, so these have
to be distinct, and as names of symbols they must not hold a zero byte.
-/

namespace FragmentLisp
namespace TypeDefinition

open Bytes

/-- What a type has to be like for its artifact to mean it: methods that can be told apart, and sizes
that fit the words of the sections and of the image. -/
structure Storable (definition : TypeDefinition) : Prop where
  distinct : (definition.methods.map fun method => method.signature.name).Nodup
  constantCount : definition.constants.length < 256 ^ 4
  constantSizes : ∀ constant ∈ definition.constants, constant.utf8ByteSize < 256 ^ 4
  footprint : ∀ metadataBytes, Section.encodeMetadata definition.metadata = .ok metadataBytes →
    (definition.objectFile metadataBytes).footprint < 2 ^ 64

def ZeroFree (definition : TypeDefinition) : Prop :=
  ∀ method ∈ definition.methods, (0 : UInt8) ∉ utf8 method.signature.name

theorem names_metadata (definition : TypeDefinition) :
    definition.metadata.signatures.map Signature.name =
      definition.methods.map fun method => method.signature.name := by
  simp [metadata]

def codeLength (methods : List Method) : Nat :=
  (methods.flatMap fun method => method.code.toList).length

theorem codeLength_cons (method : Method) (rest : List Method) :
    codeLength (method :: rest) = method.code.size + codeLength rest := by
  simp [codeLength]

def symbolOf (offset : Nat) (method : Method) : ObjectSymbol :=
  { name := utf8 method.signature.name
    sectionIndex? := some 0
    value := offset
    size := method.code.size
    isFunction := true }

theorem symbolsFrom_earlier (offset : Nat) (earlier : List ObjectSymbol) (methods : List Method) :
    symbolsFrom offset earlier methods = earlier.reverse ++ symbolsFrom offset [] methods := by
  induction methods generalizing offset earlier with
  | nil => simp [symbolsFrom]
  | cons method rest inductionHypothesis =>
      rw [symbolsFrom, symbolsFrom, inductionHypothesis]
      rw [inductionHypothesis (offset + method.code.size) [_]]
      simp

theorem symbolsFrom_cons (offset : Nat) (method : Method) (rest : List Method) :
    symbolsFrom offset [] (method :: rest) =
      symbolOf offset method :: symbolsFrom (offset + method.code.size) [] rest := by
  rw [symbolsFrom, symbolsFrom_earlier]
  rfl

theorem symbolsFrom_append (offset : Nat) (before after : List Method) :
    symbolsFrom offset [] (before ++ after) =
      symbolsFrom offset [] before ++ symbolsFrom (offset + codeLength before) [] after := by
  induction before generalizing offset with
  | nil => rfl
  | cons method rest inductionHypothesis =>
      rw [List.cons_append, symbolsFrom_cons, inductionHypothesis, symbolsFrom_cons,
        codeLength_cons, Nat.add_assoc, List.cons_append]

theorem mem_symbolsFrom {offset : Nat} {methods : List Method} {symbol : ObjectSymbol}
    (member : symbol ∈ symbolsFrom offset [] methods) :
    ∃ method ∈ methods, ∃ start, symbol = symbolOf start method ∧
      start + method.code.size ≤ offset + codeLength methods := by
  induction methods generalizing offset with
  | nil => simp [symbolsFrom] at member
  | cons method rest inductionHypothesis =>
      rw [symbolsFrom_cons] at member
      rw [codeLength_cons]
      rcases List.mem_cons.mp member with rfl | later
      · exact ⟨method, List.mem_cons_self, offset, rfl, by omega⟩
      · obtain ⟨other, inside, start, same, bounded⟩ := inductionHypothesis later
        exact ⟨other, List.mem_cons_of_mem _ inside, start, same, by omega⟩

theorem symbolsFrom_length (offset : Nat) (methods : List Method) :
    (symbolsFrom offset [] methods).length = methods.length := by
  induction methods generalizing offset with
  | nil => rfl
  | cons method rest inductionHypothesis =>
      rw [symbolsFrom_cons, List.length_cons, inductionHypothesis, List.length_cons]

section Files

variable {definition : TypeDefinition} {metadataBytes : List UInt8}

theorem zeroFree_objectFile_iff :
    (definition.objectFile metadataBytes).ZeroFree ↔ definition.ZeroFree := by
  constructor
  · intro free method member
    obtain ⟨before, after, split⟩ := List.append_of_mem member
    refine free.symbols (symbolOf (codeLength before) method) ?_
    change _ ∈ symbolsFrom 0 [] definition.methods
    rw [split, symbolsFrom_append, symbolsFrom_cons, Nat.zero_add]
    exact List.mem_append_right _ List.mem_cons_self
  · intro free
    refine ⟨?_, ?_⟩
    · have labels : ∀ label : ArtifactSection, (0 : UInt8) ∉ utf8 label.label := by
        intro label
        cases label <;> decide
      intro entry member
      simp only [objectFile, List.mem_cons, List.not_mem_nil, or_false] at member
      rcases member with rfl | rfl | rfl
      · exact labels .code
      · exact labels .constants
      · exact labels .metadata
    · intro symbol member
      obtain ⟨method, inside, start, rfl, _⟩ := mem_symbolsFrom member
      exact free method inside

theorem methods_fit (encoded : Section.encodeMetadata definition.metadata = .ok metadataBytes) :
    definition.methods.length ≤ 65535 ∧
      ∀ method ∈ definition.methods, Section.NameFits method.signature := by
  obtain ⟨⟨_, methodCount, namesFit⟩, _⟩ := Section.encodeMetadata_ok_iff.mp encoded
  refine ⟨by simpa [metadata] using methodCount, ?_⟩
  intro method member
  exact namesFit method.signature (List.mem_map.mpr ⟨method, member, rfl⟩)

theorem symbolNames_small (encoded : Section.encodeMetadata definition.metadata = .ok metadataBytes)
    (margin : Nat) :
    ((definition.objectFile metadataBytes).symbols.map fun symbol =>
      symbol.name.length + margin).sum ≤ 65535 * (255 + margin) := by
  obtain ⟨countFits, signaturesFit⟩ := methods_fit encoded
  have summed := List.sum_le_card_nsmul
    ((definition.objectFile metadataBytes).symbols.map fun symbol => symbol.name.length + margin)
    (255 + margin) fun length member => by
      obtain ⟨symbol, inside, rfl⟩ := List.mem_map.mp member
      obtain ⟨method, methodMember, start, rfl, _⟩ := mem_symbolsFrom inside
      have fits := signaturesFit method methodMember
      unfold Section.NameFits at fits
      simp only [symbolOf, utf8_length]
      omega
  have count : (definition.objectFile metadataBytes).symbols.length = definition.methods.length :=
    symbolsFrom_length 0 definition.methods
  rw [List.length_map, count, Nat.nsmul_eq_mul] at summed
  exact Nat.le_trans summed (Nat.mul_le_mul_right _ countFits)

/-- Whatever its methods are called and its constants are, a type makes a regular file. -/
theorem regular_objectFile
    (encoded : Section.encodeMetadata definition.metadata = .ok metadataBytes) :
    (definition.objectFile metadataBytes).Regular := by
  have symbols := symbolNames_small encoded 1
  refine ⟨?_, ?_, ?_, ?_⟩
  · change 3 ≤ 2 ^ 15
    decide
  · have labels : ∀ label : ArtifactSection, utf8 label.label ≠ [] := by
      intro label
      cases label <;> decide
    intro entry member
    simp only [objectFile, List.mem_cons, List.not_mem_nil, or_false] at member
    rcases member with rfl | rfl | rfl
    · exact labels .code
    · exact labels .constants
    · exact labels .metadata
  · have sections : ((definition.objectFile metadataBytes).sections.map fun entry =>
        entry.name.length + 1).sum = 37 := rfl
    rw [ObjectFile.names, List.map_append, List.sum_append, List.map_map, List.map_map]
    change ((definition.objectFile metadataBytes).sections.map fun entry =>
      entry.name.length + 1).sum + ((definition.objectFile metadataBytes).symbols.map fun symbol =>
        symbol.name.length + 1).sum < _
    omega
  · intro symbol member
    obtain ⟨method, _, start, rfl, bounded⟩ := mem_symbolsFrom member
    refine ⟨0, _, rfl, rfl, ?_⟩
    change start + method.code.size ≤ codeLength definition.methods
    omega

/-- Code and constants of less than 2^32 bytes each. -/
structure Compact (definition : TypeDefinition) : Prop where
  code : ∀ method ∈ definition.methods, method.code.size < 2 ^ 32
  constants : (Section.encodeConstants definition.constants).length < 2 ^ 32

theorem encodeConstants_length (constants : List String) :
    (Section.encodeConstants constants).length =
      4 + (constants.map fun constant => 4 + constant.utf8ByteSize).sum := by
  simp [Section.encodeConstants, Section.encodeConstant, List.length_flatMap, utf8_length]

theorem Compact.constantCount (compact : definition.Compact) :
    definition.constants.length < 2 ^ 32 := by
  have total := compact.constants
  rw [encodeConstants_length] at total
  have counted := List.card_nsmul_le_sum
    (definition.constants.map fun constant => 4 + constant.utf8ByteSize) 1 fun length member => by
      obtain ⟨constant, _, rfl⟩ := List.mem_map.mp member
      omega
  rw [List.length_map, Nat.nsmul_eq_mul, Nat.mul_one] at counted
  omega

theorem Compact.constantSize (compact : definition.Compact) {constant : String}
    (member : constant ∈ definition.constants) : constant.utf8ByteSize < 2 ^ 32 := by
  have total := compact.constants
  rw [encodeConstants_length] at total
  have own := List.le_sum_of_mem (List.mem_map.mpr ⟨constant, member, rfl⟩ :
    4 + constant.utf8ByteSize ∈ definition.constants.map fun other => 4 + other.utf8ByteSize)
  omega

theorem codeLength_le (code : ∀ method ∈ definition.methods, method.code.size < 2 ^ 32) :
    codeLength definition.methods ≤ definition.methods.length * 2 ^ 32 := by
  rw [TypeDefinition.codeLength, List.length_flatMap]
  have summed := List.sum_le_card_nsmul
    (definition.methods.map fun method => method.code.toList.length) (2 ^ 32) fun size member => by
      obtain ⟨method, inside, rfl⟩ := List.mem_map.mp member
      have small := code method inside
      rw [Array.length_toList]
      omega
  rwa [List.length_map, Nat.nsmul_eq_mul] at summed

theorem encodeMetadata_length {metadata : Section.Metadata}
    (written : Section.encodeMetadata metadata = .ok metadataBytes) :
    metadataBytes.length ≤ 2 ^ 32 := by
  obtain ⟨⟨nameFits, countFits, namesFit⟩, rfl⟩ := Section.encodeMetadata_ok_iff.mp written
  have summed := List.sum_le_card_nsmul
    (metadata.signatures.map fun signature => (Section.encodeSignature signature).length) 264
    fun length member => by
      obtain ⟨signature, inside, rfl⟩ := List.mem_map.mp member
      have fits := namesFit signature inside
      unfold Section.NameFits at fits
      simp only [Section.encodeSignature, List.length_append, littleEndian_length, utf8_length,
        List.length_cons, List.length_nil]
      omega
  rw [List.length_map, Nat.nsmul_eq_mul] at summed
  simp only [List.length_append, littleEndian_length, utf8_length, List.length_flatMap,
    show Section.magic.length = 4 from rfl]
  omega

theorem footprint_lt (code : ∀ method ∈ definition.methods, method.code.size < 2 ^ 32)
    (constants : (Section.encodeConstants definition.constants).length ≤ 2 ^ 63 + 2 ^ 32)
    (encoded : Section.encodeMetadata definition.metadata = .ok metadataBytes) :
    (definition.objectFile metadataBytes).footprint < 2 ^ 64 := by
  have metadataSmall := encodeMetadata_length encoded
  have symbols := symbolNames_small encoded 65
  have codeSmall := codeLength_le code
  have count := (methods_fit encoded).1
  have sections : ((definition.objectFile metadataBytes).sections.map fun entry =>
      entry.name.length + 65 + entry.contents.length).sum =
        229 + (codeLength definition.methods +
          ((Section.encodeConstants definition.constants).length + metadataBytes.length)) := by
    change 11 + 65 + codeLength definition.methods +
      (12 + 65 + (Section.encodeConstants definition.constants).length +
        (11 + 65 + metadataBytes.length + 0)) = _
    omega
  rw [ObjectFile.footprint, sections]
  omega

theorem storable_of_compact (compact : definition.Compact)
    (distinct : (definition.methods.map fun method => method.signature.name).Nodup) :
    definition.Storable := by
  refine ⟨distinct, compact.constantCount, fun _ member => compact.constantSize member, ?_⟩
  intro metadataBytes encoded
  have constants := compact.constants
  exact footprint_lt compact.code (by omega) encoded

end Files

/-! Opened files. -/

section Opening

variable {definition : TypeDefinition} {metadataBytes : List UInt8} {found : OpenedFile}

theorem findSection_of_opensAs {before after : List OpenedSection} {file : ObjectFile}
    (sections : found.sections = before ++ (file.opened.sections ++ after))
    (others : ∀ extra ∈ before, ∀ entry ∈ file.sections, extra.name ≠ entry.name)
    {label : ArtifactSection} {index : Nat} {entry : ObjectSection}
    (placed : file.opened.findSection? (utf8 label.label) = some index)
    (held : file.sections[index]? = some entry) (named : entry.name = utf8 label.label) :
    findSection found label = .ok (index + before.length, entry.contents) := by
  have earlier : before.findIdx? (fun candidate => candidate.name = utf8 label.label) = none := by
    rw [List.findIdx?_eq_none_iff]
    intro extra member
    have different := others extra member entry (List.mem_of_getElem? held)
    rw [named] at different
    simpa using different
  have first : found.findSection? (utf8 label.label) = some (index + before.length) := by
    unfold OpenedFile.findSection? at placed ⊢
    rw [sections, List.findIdx?_append, earlier, List.findIdx?_append, placed]
    rfl
  have there : found.sections[index + before.length]? = some entry.opened := by
    have bounded : index < file.opened.sections.length := by
      rw [ObjectFile.opened, List.length_map]
      exact (List.getElem?_eq_some_iff.mp held).1
    rw [sections, List.getElem?_append_right (by omega), Nat.add_sub_cancel,
      List.getElem?_append_left bounded, ObjectFile.opened, List.getElem?_map, held]
    rfl
  unfold findSection
  rw [first]
  simp only [there]
  rfl

section Methods

variable {count : Nat}
variable (distinct : (definition.methods.map fun method => method.signature.name).Nodup)
variable (symbols : found.symbols =
  (symbolsFrom 0 [] definition.methods).map (ObjectSymbol.moved count))

include distinct symbols

theorem function_of_symbols {before after : List Method} {method : Method}
    (split : definition.methods = before ++ method :: after) :
    found.function? count (utf8 method.signature.name) =
      some ((symbolOf (codeLength before) method).moved count) := by
  have others : ((symbolsFrom 0 [] before).map (ObjectSymbol.moved count)).find? (fun symbol =>
      symbol.isFunction && symbol.sectionIndex? = some count &&
        symbol.name = utf8 method.signature.name) = none := by
    rw [List.find?_eq_none]
    intro symbol member
    obtain ⟨original, inside, rfl⟩ := List.mem_map.mp member
    obtain ⟨other, otherMember, start, rfl, _⟩ := mem_symbolsFrom inside
    have different : other.signature.name ≠ method.signature.name := by
      rw [split, List.map_append, List.nodup_append] at distinct
      exact distinct.2.2 _ (List.mem_map.mpr ⟨other, otherMember, rfl⟩) _ (by simp)
    have differentBytes : utf8 other.signature.name ≠ utf8 method.signature.name :=
      fun same => different (utf8_injective same)
    simp [ObjectSymbol.moved, symbolOf, differentBytes]
  unfold OpenedFile.function?
  rw [symbols, split, symbolsFrom_append, symbolsFrom_cons, List.map_append, List.map_cons,
    List.find?_append, others, List.find?_cons_of_pos]
  · simp
  · simp [ObjectSymbol.moved, symbolOf]

theorem readMethod_of_symbols {before after : List Method} {method : Method}
    (split : definition.methods = before ++ method :: after) :
    readMethod found count (definition.methods.flatMap fun method => method.code.toList).toArray
      method.signature = .ok method := by
  have segment : (definition.methods.flatMap fun method => method.code.toList) =
      (before.flatMap fun method => method.code.toList) ++
        (method.code.toList ++ after.flatMap fun method => method.code.toList) := by
    rw [split, List.flatMap_append, List.flatMap_cons]
  have inside : ¬ (definition.methods.flatMap fun method => method.code.toList).toArray.size <
      codeLength before + method.code.size := by
    have size : method.code.toList.length = method.code.size := Array.length_toList
    rw [List.size_toArray, segment, List.length_append, List.length_append, size]
    change ¬ codeLength before + (method.code.size + _) < _
    omega
  have extracted : (definition.methods.flatMap fun method => method.code.toList).toArray.extract
      (codeLength before) (codeLength before + method.code.size) = method.code := by
    apply Array.toList_inj.mp
    rw [Array.toList_extract, segment, List.extract_eq_take_drop,
      List.drop_left' (show _ = codeLength before from rfl), Nat.add_sub_cancel_left,
      List.take_left' Array.length_toList]
  unfold readMethod
  rw [function_of_symbols distinct symbols split]
  simp only [ObjectSymbol.moved, symbolOf, inside, if_false, extracted]

theorem readMethods_of_symbols {before after : List Method}
    (split : definition.methods = before ++ after) :
    readMethods found count (definition.methods.flatMap fun method => method.code.toList).toArray
      before.reverse (after.map Method.signature) = .ok definition.methods := by
  induction after generalizing before with
  | nil =>
      rw [List.map_nil, readMethods, List.reverse_reverse, split, List.append_nil]
  | cons method rest inductionHypothesis =>
      have next := @inductionHypothesis (before ++ [method]) (by rw [split]; simp)
      rw [List.map_cons, readMethods, readMethod_of_symbols distinct symbols split]
      rwa [List.reverse_append] at next

end Methods

/-- The type with the constants that are found again in their section. -/
def readBack (definition : TypeDefinition) : Except ArtifactError TypeDefinition :=
  ((Section.decodeConstants (Section.encodeConstants definition.constants)).mapError
    (.malformed .constants)).map fun constants => { definition with constants }

/-- In the opened file of a type everything is found again, if the constants are. -/
theorem ofFile_of_opensAs
    (distinct : (definition.methods.map fun method => method.signature.name).Nodup)
    (encoded : Section.encodeMetadata definition.metadata = .ok metadataBytes)
    (opens : (definition.objectFile metadataBytes).OpensAs found) :
    ofFile found = definition.readBack := by
  obtain ⟨before, after, sections, others, symbols⟩ := opens
  have code := @findSection_of_opensAs _ _ _ _ sections others .code 0 _ rfl rfl rfl
  have constants := @findSection_of_opensAs _ _ _ _ sections others .constants 1 _ rfl rfl rfl
  have metadata := @findSection_of_opensAs _ _ _ _ sections others .metadata 2 _ rfl rfl rfl
  have names : (definition.metadata.signatures.map Signature.name).Nodup := by
    rwa [names_metadata]
  have read : Section.decodeMetadata metadataBytes = .ok definition.metadata :=
    Section.decode_encodeMetadata encoded names
  rw [Nat.zero_add] at code
  have methods := @readMethods_of_symbols _ _ _ distinct symbols [] definition.methods rfl
  have signatures : definition.metadata.signatures = definition.methods.map Method.signature := rfl
  unfold ofFile readBack
  simp only [code, constants, metadata, bind, Except.bind]
  cases Section.decodeConstants (Section.encodeConstants definition.constants) with
  | error malformation => rfl
  | ok decoded =>
      simp only [Except.mapError, read, signatures]
      rw [List.reverse_nil] at methods
      rw [methods]
      rfl

theorem readBack_of_fits (count : definition.constants.length < 256 ^ 4)
    (sizes : ∀ constant ∈ definition.constants, constant.utf8ByteSize < 256 ^ 4) :
    definition.readBack = .ok definition := by
  rw [readBack, Section.decode_encodeConstants count sizes]
  rfl

end Opening

/-! Images. -/

section Images

variable [ObjectFormat] {definition : TypeDefinition} {metadataBytes : List UInt8}
variable {artifact : Artifact}

theorem write_ok (written : definition.write = .ok artifact) :
    ∃ metadataBytes, Section.encodeMetadata definition.metadata = .ok metadataBytes ∧
      artifact.name = definition.name ∧
      ObjectFormat.write (definition.objectFile metadataBytes) = .ok artifact.image := by
  obtain ⟨file, made, later⟩ := bind_eq_ok.mp written
  obtain ⟨image, laidOut, last⟩ := bind_eq_ok.mp later
  rw [← Except.ok.inj last]
  unfold toObjectFile at made
  cases encoded : Section.encodeMetadata definition.metadata with
  | error malformation => simp [encoded, Except.mapError] at made
  | ok metadataBytes =>
      rw [encoded] at made
      obtain rfl := Except.ok.inj made
      exact ⟨metadataBytes, rfl, rfl, mapError_eq_ok.mp laidOut⟩

theorem read_of_readsBack
    (distinct : (definition.methods.map fun method => method.signature.name).Nodup)
    (encoded : Section.encodeMetadata definition.metadata = .ok metadataBytes) {image : List UInt8}
    (readsBack : (definition.objectFile metadataBytes).ReadsBack image) :
    read image = definition.readBack := by
  obtain ⟨found, opened, opens⟩ := readsBack
  rw [read, opened]
  exact ofFile_of_opensAs distinct encoded opens

variable [LawfulObjectFormat]

theorem read_eq_readBack
    (distinct : (definition.methods.map fun method => method.signature.name).Nodup)
    (written : definition.write = .ok artifact) (addressable : artifact.image.length < 2 ^ 64) :
    read artifact.image = definition.readBack := by
  obtain ⟨metadataBytes, encoded, _, laidOut⟩ := write_ok written
  exact read_of_readsBack distinct encoded
    (LawfulObjectFormat.readsBack (regular_objectFile encoded) laidOut addressable)

theorem read_write (storable : definition.Storable) (written : definition.write = .ok artifact) :
    artifact.name = definition.name ∧ read artifact.image = .ok definition := by
  obtain ⟨metadataBytes, encoded, named, laidOut⟩ := write_ok written
  have bounded := ObjectFile.image_length_le laidOut
  have small := storable.footprint metadataBytes encoded
  refine ⟨named, ?_⟩
  rw [read_eq_readBack storable.distinct written (by omega),
    readBack_of_fits storable.constantCount storable.constantSizes]

end Images

end TypeDefinition
end FragmentLisp
