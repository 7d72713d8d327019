import FragmentLisp.Bytes
import FragmentLisp.TypeDefinition

/-!
The two descriptive sections of a compiled type. The constants section holds a count and the constants,
each after its length. The metadata section holds a magic word, the format version, the name of the
type, its field count and the signatures of its methods. Reading refuses bytes that are left over, so a
section has one meaning or none.
-/

namespace FragmentLisp

inductive Malformation where
  | typeNameTooLong
  | tooManyMethods
  | methodNameTooLong
  | unexpectedEnd
  | invalidText
  | trailingBytes
  | badMagic
  | unsupportedVersion (version : Nat)
  | duplicateMethod (name : String)
  | badReturnFlag
  | missingCode (method : String)
  | outsideSection (method : String)
deriving DecidableEq

def Malformation.message : Malformation → String
  | typeNameTooLong => "type name too long"
  | tooManyMethods => "too many methods"
  | methodNameTooLong => "method name too long"
  | unexpectedEnd => "unexpected end of data"
  | invalidText => "invalid UTF-8"
  | trailingBytes => "trailing bytes"
  | badMagic => "bad magic"
  | unsupportedVersion version => String.join ["unsupported format version ", toString version]
  | duplicateMethod name => String.join ["duplicate method ", name]
  | badReturnFlag => "bad return flag"
  | missingCode method => String.join ["no code for method ", method]
  | outsideSection method => String.join ["method ", method, " lies outside the section"]

namespace Section

def readField (length : Nat) (input : List UInt8) :
    Except Malformation (List UInt8 × List UInt8) :=
  match Bytes.readFixed length input with
  | some found => .ok found
  | none => .error .unexpectedEnd

def readWord (width : Nat) (input : List UInt8) : Except Malformation (Nat × List UInt8) := do
  let (field, rest) ← readField width input
  return (Bytes.ofLittleEndian field, rest)

def readText (length : Nat) (input : List UInt8) : Except Malformation (String × List UInt8) := do
  let (field, rest) ← readField length input
  match Bytes.text? field with
  | some text => return (text, rest)
  | none => throw .invalidText

def expect (condition : Bool) (malformation : Malformation) : Except Malformation Unit :=
  if condition then .ok () else .error malformation

def encodeConstant (constant : String) : List UInt8 :=
  Bytes.littleEndian 4 constant.utf8ByteSize ++ Bytes.utf8 constant

def encodeConstants (constants : List String) : List UInt8 :=
  Bytes.littleEndian 4 constants.length ++ constants.flatMap encodeConstant

def readConstants : Nat → List String → List UInt8 →
    Except Malformation (List String × List UInt8)
  | 0, earlier, input => .ok (earlier.reverse, input)
  | count + 1, earlier, input =>
      match readWord 4 input with
      | .error malformation => .error malformation
      | .ok (length, afterLength) =>
          match readText length afterLength with
          | .error malformation => .error malformation
          | .ok (constant, rest) => readConstants count (constant :: earlier) rest

def decodeConstants (input : List UInt8) : Except Malformation (List String) := do
  let (count, afterCount) ← readWord 4 input
  let (constants, rest) ← readConstants count [] afterCount
  expect rest.isEmpty .trailingBytes
  return constants

def magic : List UInt8 := [0x53, 0x4c, 0x46, 0x52]

def formatVersion : Nat := 1

structure Metadata where
  name : String
  fieldCount : UInt16
  signatures : List Signature
deriving DecidableEq

def encodeSignature (signature : Signature) : List UInt8 :=
  Bytes.littleEndian 1 signature.name.utf8ByteSize ++ Bytes.utf8 signature.name ++
    [signature.arity] ++ Bytes.littleEndian 2 signature.locals.toNat ++
    Bytes.littleEndian 4 signature.maxStack.toNat ++ [if signature.returnsValue then 1 else 0]

def encodeMetadata (metadata : Metadata) : Except Malformation (List UInt8) :=
  if 65535 < metadata.name.utf8ByteSize then .error .typeNameTooLong
  else if 65535 < metadata.signatures.length then .error .tooManyMethods
  else if metadata.signatures.any fun signature => decide (255 < signature.name.utf8ByteSize) then
    .error .methodNameTooLong
  else
    .ok (magic ++ Bytes.littleEndian 2 formatVersion ++
      Bytes.littleEndian 2 metadata.name.utf8ByteSize ++ Bytes.utf8 metadata.name ++
      Bytes.littleEndian 2 metadata.fieldCount.toNat ++
      Bytes.littleEndian 2 metadata.signatures.length ++
      metadata.signatures.flatMap encodeSignature)

def readFlag (input : List UInt8) : Except Malformation (Bool × List UInt8) := do
  let (flag, rest) ← readWord 1 input
  match flag with
  | 0 => return (false, rest)
  | 1 => return (true, rest)
  | _ => throw .badReturnFlag

def readSignature (earlier : List Signature) (input : List UInt8) :
    Except Malformation (Signature × List UInt8) := do
  let (length, input) ← readWord 1 input
  let (name, input) ← readText length input
  expect (earlier.all fun signature => decide (signature.name ≠ name)) (.duplicateMethod name)
  let (arity, input) ← readWord 1 input
  let (locals, input) ← readWord 2 input
  let (maxStack, input) ← readWord 4 input
  let (returnsValue, input) ← readFlag input
  let signature : Signature :=
    { name
      arity := UInt8.ofNat arity
      locals := UInt16.ofNat locals
      maxStack := UInt32.ofNat maxStack
      returnsValue }
  return (signature, input)

def readSignatures : Nat → List Signature → List UInt8 →
    Except Malformation (List Signature × List UInt8)
  | 0, earlier, input => .ok (earlier.reverse, input)
  | count + 1, earlier, input =>
      match readSignature earlier input with
      | .error malformation => .error malformation
      | .ok (signature, rest) => readSignatures count (signature :: earlier) rest

def decodeMetadata (input : List UInt8) : Except Malformation Metadata := do
  let (word, input) ← readField 4 input
  expect (word = magic) .badMagic
  let (version, input) ← readWord 2 input
  expect (version = formatVersion) (.unsupportedVersion version)
  let (length, input) ← readWord 2 input
  let (name, input) ← readText length input
  let (fieldCount, input) ← readWord 2 input
  let (count, input) ← readWord 2 input
  let (signatures, rest) ← readSignatures count [] input
  expect rest.isEmpty .trailingBytes
  return { name, fieldCount := UInt16.ofNat fieldCount, signatures }

end Section
end FragmentLisp
