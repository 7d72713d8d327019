/-!
Bytes as they stand in code and in the sections of an object file: unsigned words with the least
significant byte first, and UTF-8 text.
-/

namespace FragmentLisp
namespace Bytes

/-- The `width` bytes of `value`, least significant first; higher bytes are dropped. -/
def littleEndian : Nat → Nat → List UInt8
  | 0, _ => []
  | width + 1, value => UInt8.ofNat value :: littleEndian width (value / 256)

def ofLittleEndian : List UInt8 → Nat
  | [] => 0
  | byte :: rest => byte.toNat + 256 * ofLittleEndian rest

def readFixed (count : Nat) (input : List UInt8) : Option (List UInt8 × List UInt8) :=
  let field := input.take count
  if field.length = count then some (field, input.drop count) else none

def utf8 (text : String) : List UInt8 :=
  text.toUTF8.data.toList

/-- The text that the bytes spell; none when they are not UTF-8. -/
def text? (bytes : List UInt8) : Option String :=
  String.fromUTF8? (ByteArray.mk bytes.toArray)

@[simp] theorem littleEndian_length (width value : Nat) :
    (littleEndian width value).length = width := by
  induction width generalizing value with
  | zero => rfl
  | succ width inductionHypothesis =>
      simp [littleEndian, inductionHypothesis]

end Bytes
end FragmentLisp
