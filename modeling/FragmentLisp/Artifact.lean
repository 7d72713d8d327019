import FragmentLisp.ObjectFile
import FragmentLisp.TypeDefinition.Section

/-!
Compiled types as object files. The code of all methods stands in one section, where a function symbol
marks each method. The two other sections hold the constants and the metadata.
-/

namespace FragmentLisp

structure Artifact where
  name : String
  image : List UInt8
deriving DecidableEq

inductive ArtifactSection where
  | code
  | constants
  | metadata
deriving DecidableEq

def ArtifactSection.label : ArtifactSection → String
  | code => ".slisp.code"
  | constants => ".slisp.const"
  | metadata => ".slisp.meta"

inductive ArtifactError where
  | unreadable (text : String)
  | unwritten (text : String)
  | missingSection (name : ArtifactSection)
  | malformed (name : ArtifactSection) (malformation : Malformation)
deriving DecidableEq

namespace ArtifactError

def message : ArtifactError → String
  | unreadable text => String.join ["malformed object container: ", text]
  | unwritten text => String.join ["failed to write object container: ", text]
  | missingSection name => String.join ["missing section ", name.label]
  | malformed name malformation =>
      String.join ["malformed ", name.label, ": ", malformation.message]

def chain (error : ArtifactError) : List String :=
  match error with
  | unreadable text => [error.message, text]
  | unwritten text => [error.message, text]
  | _ => [error.message]

end ArtifactError

namespace TypeDefinition

def metadata (definition : TypeDefinition) : Section.Metadata :=
  { name := definition.name
    fieldCount := definition.fieldCount
    signatures := definition.methods.map fun method => method.signature }

/-- The symbols of methods whose code begins at an offset of the code section, behind the symbols made
before, which stand last first. -/
def symbolsFrom : Nat → List ObjectSymbol → List Method → List ObjectSymbol
  | _, earlier, [] => earlier.reverse
  | offset, earlier, method :: rest =>
      let symbol : ObjectSymbol :=
        { name := Bytes.utf8 method.signature.name
          sectionIndex? := some 0
          value := offset
          size := method.code.size
          isFunction := true }
      symbolsFrom (offset + method.code.size) (symbol :: earlier) rest

def objectFile (definition : TypeDefinition) (metadataBytes : List UInt8) : ObjectFile :=
  { sections :=
      [{ name := Bytes.utf8 ArtifactSection.code.label
         executable := true
         contents := definition.methods.flatMap fun method => method.code.toList },
       { name := Bytes.utf8 ArtifactSection.constants.label
         executable := false
         contents := Section.encodeConstants definition.constants },
       { name := Bytes.utf8 ArtifactSection.metadata.label
         executable := false
         contents := metadataBytes }]
    symbols := symbolsFrom 0 [] definition.methods }

def toObjectFile (definition : TypeDefinition) : Except ArtifactError ObjectFile :=
  match Section.encodeMetadata definition.metadata with
  | .ok metadataBytes => .ok (definition.objectFile metadataBytes)
  | .error malformation => .error (.malformed .metadata malformation)

def write [ObjectFormat] (definition : TypeDefinition) : Except (Failure ArtifactError) Artifact := do
  let file ← definition.toObjectFile.mapError .refused
  let image ← (ObjectFormat.write file).mapError (Failure.map .unwritten)
  return { name := definition.name, image }

def readMethod (file : OpenedFile) (codeIndex : Nat) (code : Array UInt8)
    (signature : Signature) : Except ArtifactError Method :=
  match file.function? codeIndex (Bytes.utf8 signature.name) with
  | none => .error (.malformed .code (.missingCode signature.name))
  | some symbol =>
      if code.size < symbol.value + symbol.size then
        .error (.malformed .code (.outsideSection signature.name))
      else
        .ok { signature, code := code.extract symbol.value (symbol.value + symbol.size) }

def readMethods (file : OpenedFile) (codeIndex : Nat) (code : Array UInt8) :
    List Method → List Signature → Except ArtifactError (List Method)
  | earlier, [] => .ok earlier.reverse
  | earlier, signature :: rest =>
      match readMethod file codeIndex code signature with
      | .error error => .error error
      | .ok method => readMethods file codeIndex code (method :: earlier) rest

def findSection (file : OpenedFile) (name : ArtifactSection) :
    Except ArtifactError (Nat × List UInt8) :=
  match file.findSection? (Bytes.utf8 name.label) with
  | none => .error (.missingSection name)
  | some index =>
      match file.sections[index]? with
      | none => .error (.missingSection name)
      | some found => (found.contents.mapError .unreadable).map fun contents => (index, contents)

def ofFile (file : OpenedFile) : Except ArtifactError TypeDefinition := do
  let (codeIndex, code) ← findSection file .code
  let (_, constantsBytes) ← findSection file .constants
  let (_, metadataBytes) ← findSection file .metadata
  let constants ← (Section.decodeConstants constantsBytes).mapError (.malformed .constants)
  let metadata ← (Section.decodeMetadata metadataBytes).mapError (.malformed .metadata)
  let methods ← readMethods file codeIndex code.toArray [] metadata.signatures
  return { name := metadata.name, fieldCount := metadata.fieldCount, constants, methods }

def read [ObjectFormat] (image : List UInt8) : Except ArtifactError TypeDefinition :=
  match ObjectFormat.read image with
  | .ok file => ofFile file
  | .error text => .error (.unreadable text)

end TypeDefinition
end FragmentLisp
