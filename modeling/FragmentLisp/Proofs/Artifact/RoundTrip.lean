import FragmentLisp.Proofs.Artifact
import FragmentLisp.Proofs.ObjectFile.Image

/-!
Types travel in artifacts without loss. Writing succeeds unless a name or the number of methods is too
large for its word or the name of a method holds a zero byte, and reading gives back the type that was
written, down to every byte of code. What is needed of the image is that it reads back with its sections
and symbols; every image whose size 64 bits can tell does.
-/

namespace FragmentLisp
namespace TypeDefinition

open Bytes

/-- The names of a type and the number of its methods fit the words that tell their lengths. -/
structure Describable (definition : TypeDefinition) : Prop where
  name : definition.name.utf8ByteSize ≤ 65535
  methodCount : definition.methods.length ≤ 65535
  methodNames : ∀ method ∈ definition.methods, method.signature.name.utf8ByteSize ≤ 255

/-- The methods of a type can be told apart by their names, and its constants fit their words. -/
structure Restorable (definition : TypeDefinition) : Prop where
  distinct : (definition.methods.map fun method => method.signature.name).Nodup
  zeroFree : definition.ZeroFree
  constantCount : definition.constants.length < 2 ^ 32
  constantSizes : ∀ constant ∈ definition.constants, constant.utf8ByteSize < 2 ^ 32

section Writing

variable {definition : TypeDefinition} {metadataBytes : List UInt8}

theorem describable_iff :
    definition.Describable ↔
      ∃ metadataBytes, Section.encodeMetadata definition.metadata = .ok metadataBytes := by
  simp only [Section.encodeMetadata_ok_iff, exists_and_left, exists_eq, and_true]
  constructor
  · rintro ⟨name, methodCount, methodNames⟩
    refine ⟨name, by simpa [metadata] using methodCount, ?_⟩
    intro signature member
    obtain ⟨method, inside, rfl⟩ := List.mem_map.mp member
    exact methodNames method inside
  · rintro ⟨name, methodCount, methodNames⟩
    refine ⟨name, by simpa [metadata] using methodCount, ?_⟩
    intro method inside
    exact methodNames _ (List.mem_map.mpr ⟨method, inside, rfl⟩)

theorem not_describable_iff :
    ¬ definition.Describable ↔
      65535 < definition.name.utf8ByteSize ∨ 65535 < definition.methods.length ∨
        ∃ method ∈ definition.methods, 255 < method.signature.name.utf8ByteSize := by
  constructor
  · intro large
    by_contra fits
    simp only [not_or, not_exists, not_and, Nat.not_lt] at fits
    exact large ⟨fits.1, fits.2.1, fits.2.2⟩
  · rintro (name | count | ⟨method, member, name⟩) describable
    · exact Nat.not_lt.mpr describable.name name
    · exact Nat.not_lt.mpr describable.methodCount count
    · exact Nat.not_lt.mpr (describable.methodNames method member) name

theorem write_error_iff [ObjectFormat] {failure : Failure ArtifactError} :
    definition.write = .error failure ↔
      (∃ malformation, Section.encodeMetadata definition.metadata = .error malformation ∧
        failure = .refused (.malformed .metadata malformation)) ∨
      ∃ metadataBytes reason, Section.encodeMetadata definition.metadata = .ok metadataBytes ∧
        ObjectFormat.write (definition.objectFile metadataBytes) = .error reason ∧
        failure = reason.map .unwritten := by
  unfold write toObjectFile
  cases Section.encodeMetadata definition.metadata with
  | error malformation => simp [Except.mapError, bind, Except.bind, eq_comm]
  | ok metadataBytes =>
      simp only [Except.mapError, bind, Except.bind]
      cases laidOut : ObjectFormat.write (definition.objectFile metadataBytes) with
      | error reason => simp [laidOut, eq_comm]
      | ok image => simp [laidOut, pure, Except.pure]

end Writing

section Laws

variable [ObjectFormat] [LawfulObjectFormat] {definition : TypeDefinition}

/-- Nothing but the metadata can make writing refuse a type. -/
theorem write_refused_iff {error : ArtifactError} :
    definition.write = .error (.refused error) ↔
      ∃ malformation, Section.encodeMetadata definition.metadata = .error malformation ∧
        error = .malformed .metadata malformation := by
  rw [write_error_iff]
  constructor
  · rintro (⟨malformation, refused, same⟩ | ⟨metadataBytes, reason, _, failed, same⟩)
    · exact ⟨malformation, refused, Failure.refused.inj same⟩
    · obtain ⟨text?, rfl⟩ := ObjectFile.crashed_of_write failed
      cases same
  · rintro ⟨malformation, refused, rfl⟩
    exact Or.inl ⟨malformation, refused, rfl⟩

/-- Only the names of methods can make writing crash. -/
theorem zeroByte_of_crash {text? : Option String}
    (crashed : definition.write = .error (.crashed text?)) : ¬ definition.ZeroFree := by
  rcases write_error_iff.mp crashed with
    ⟨malformation, _, same⟩ | ⟨metadataBytes, reason, _, failed, _⟩
  · cases same
  · intro free
    have allowed := (@zeroFree_objectFile_iff definition metadataBytes).mpr free
    obtain ⟨image, written, _⟩ := LawfulObjectFormat.writes allowed
    cases written.symm.trans failed

theorem write_of_describable (describable : definition.Describable)
    (zeroFree : definition.ZeroFree) :
    ∃ metadataBytes artifact, Section.encodeMetadata definition.metadata = .ok metadataBytes ∧
      definition.write = .ok artifact ∧ artifact.name = definition.name ∧
      ObjectFormat.write (definition.objectFile metadataBytes) = .ok artifact.image := by
  obtain ⟨metadataBytes, encoded⟩ := describable_iff.mp describable
  have free := (@zeroFree_objectFile_iff definition metadataBytes).mpr zeroFree
  obtain ⟨image, laidOut, _⟩ := LawfulObjectFormat.writes free
  refine ⟨metadataBytes, ⟨definition.name, image⟩, encoded, ?_, rfl, laidOut⟩
  have made : definition.toObjectFile = .ok (definition.objectFile metadataBytes) := by
    rw [toObjectFile, encoded]
  rw [write, made]
  simp only [Except.mapError, bind, Except.bind, laidOut]
  rfl

end Laws

/-- Writing and reading a type is a round trip. Writing refuses a type just when its name, one of its
methods' names or the number of its methods is too large, and always with the metadata malformed; only a
zero byte in the name of a method makes it crash. The artifact of any other type reads back as the same
type, if its methods can be told apart, its constants fit their words and its image reads back; and every
image of less than 2^64 bytes does. -/
theorem artifact_round_trip [ObjectFormat] [LawfulObjectFormat] (definition : TypeDefinition) :
    ((∃ malformation, definition.write = .error (.refused (.malformed .metadata malformation))) ↔
      65535 < definition.name.utf8ByteSize ∨ 65535 < definition.methods.length ∨
        ∃ method ∈ definition.methods, 255 < method.signature.name.utf8ByteSize) ∧
    (∀ error, definition.write = .error (.refused error) →
      ∃ malformation, error = .malformed .metadata malformation) ∧
    (∀ text?, definition.write = .error (.crashed text?) → ¬ definition.ZeroFree) ∧
    (definition.Describable → definition.Restorable →
      ∃ file artifact, definition.toObjectFile = .ok file ∧
        definition.write = .ok artifact ∧ artifact.name = definition.name ∧
        ObjectFormat.write file = .ok artifact.image ∧
        (file.ReadsBack artifact.image → read artifact.image = .ok definition) ∧
        (artifact.image.length < 2 ^ 64 → file.ReadsBack artifact.image)) := by
  refine ⟨?_, ?_, fun _ => zeroByte_of_crash, ?_⟩
  · rw [← not_describable_iff, describable_iff]
    simp only [write_refused_iff, ArtifactError.malformed.injEq, true_and, exists_eq_right']
    cases Section.encodeMetadata definition.metadata <;> simp
  · intro error failed
    obtain ⟨malformation, _, same⟩ := write_refused_iff.mp failed
    exact ⟨malformation, same⟩
  · intro describable restorable
    obtain ⟨metadataBytes, artifact, encoded, written, named, laidOut⟩ :=
      write_of_describable describable restorable.zeroFree
    refine ⟨definition.objectFile metadataBytes, artifact, ?_, written, named, laidOut, ?_, ?_⟩
    · rw [toObjectFile, encoded]
    · intro readsBack
      rw [read_of_readsBack restorable.distinct encoded readsBack,
        readBack_of_fits restorable.constantCount restorable.constantSizes]
    · exact LawfulObjectFormat.readsBack (regular_objectFile encoded) laidOut

def greetingType : TypeDefinition :=
  { name := "Greeting"
    fieldCount := 1
    constants := ["héllo", ""]
    methods :=
      [{ signature :=
           { name := constructorName, arity := 0, locals := 0, maxStack := 1, returnsValue := false }
         code := #[] },
       { signature := { name := "run", arity := 0, locals := 2, maxStack := 1, returnsValue := true }
         code := #[0x04, 0, 0, 0, 0, 0x60] }] }

theorem greeting_round_trip :
    greetingType.Describable ∧ greetingType.Restorable ∧
      ∃ artifact, greetingType.write = .ok artifact ∧ artifact.image.length < 2 ^ 64 ∧
        read artifact.image = .ok greetingType := by
  have describable : greetingType.Describable := ⟨by decide, by decide, by decide⟩
  have zeroFree : ∀ method ∈ greetingType.methods, (0 : UInt8) ∉ utf8 method.signature.name := by
    decide
  have restorable : greetingType.Restorable := ⟨by decide, zeroFree, by decide, by decide⟩
  obtain ⟨_, _, _, roundTrip⟩ := artifact_round_trip greetingType
  obtain ⟨file, artifact, made, written, _, laidOut, reads, back⟩ :=
    roundTrip describable restorable
  have compact : greetingType.Compact := ⟨by decide, by decide⟩
  have small := (storable_of_compact compact restorable.distinct).footprint _ rfl
  have bounded := ObjectFile.image_length_le laidOut
  obtain rfl := Except.ok.inj made
  have addressable : artifact.image.length < 2 ^ 64 := Nat.lt_of_le_of_lt bounded small
  exact ⟨describable, restorable, artifact, written, addressable, reads (back addressable)⟩

end TypeDefinition
end FragmentLisp
