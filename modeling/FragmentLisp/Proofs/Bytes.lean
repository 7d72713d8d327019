import FragmentLisp.Bytes
import Mathlib.Algebra.GroupWithZero.Nat

/-!
Writing and reading bytes undo each other: words of a fixed width, fields of a known length, and text.
What has been read is written back as the bytes that it was read from.
-/

namespace FragmentLisp
namespace Bytes

theorem of_littleEndian (width value : Nat) :
    ofLittleEndian (littleEndian width value) = value % 256 ^ width := by
  induction width generalizing value with
  | zero => simp [littleEndian, ofLittleEndian, Nat.mod_one]
  | succ width inductionHypothesis =>
      have low : (UInt8.ofNat value).toNat = value % 256 := by simp
      rw [littleEndian, ofLittleEndian, inductionHypothesis, low, Nat.pow_succ',
        Nat.mod_mul]

theorem of_littleEndian_of_lt {width value : Nat} (fits : value < 256 ^ width) :
    ofLittleEndian (littleEndian width value) = value := by
  rw [of_littleEndian, Nat.mod_eq_of_lt fits]

theorem littleEndian_of (field : List UInt8) :
    littleEndian field.length (ofLittleEndian field) = field := by
  induction field with
  | nil => rfl
  | cons byte rest inductionHypothesis =>
      have low : UInt8.ofNat (byte.toNat + 256 * ofLittleEndian rest) = byte := by
        apply UInt8.toNat_inj.mp
        have fits := byte.toNat_lt
        rw [UInt8.toNat_ofNat']
        omega
      have high : (byte.toNat + 256 * ofLittleEndian rest) / 256 = ofLittleEndian rest := by
        have fits := byte.toNat_lt
        omega
      rw [List.length_cons, ofLittleEndian, littleEndian, low, high, inductionHypothesis]

theorem ofLittleEndian_lt (field : List UInt8) : ofLittleEndian field < 256 ^ field.length := by
  induction field with
  | nil => simp [ofLittleEndian]
  | cons byte rest inductionHypothesis =>
      have fits := byte.toNat_lt
      rw [ofLittleEndian, List.length_cons, Nat.pow_succ]
      omega

theorem readFixed_append
    {count : Nat} {field : List UInt8} (rest : List UInt8) (length : field.length = count) :
    readFixed count (field ++ rest) = some (field, rest) := by
  simp [readFixed, ← length]

theorem readFixed_sound {count : Nat} {input field rest : List UInt8}
    (found : readFixed count input = some (field, rest)) :
    field.length = count ∧ input = field ++ rest := by
  simp only [readFixed] at found
  split at found
  · rename_i sized
    obtain ⟨rfl, rfl⟩ := Prod.mk.inj (Option.some.inj found)
    exact ⟨sized, (List.take_append_drop count input).symm⟩
  · simp at found

theorem utf8_length (text : String) : (utf8 text).length = text.utf8ByteSize := by
  rw [utf8, Array.length_toList, ← String.size_toByteArray]
  rfl

theorem text_utf8 (text : String) : text? (utf8 text) = some text := by
  have bytes : ByteArray.mk (utf8 text).toArray = text.toByteArray := by
    rw [utf8, Array.toArray_toList, String.toUTF8_eq_toByteArray]
  rw [text?, bytes, String.fromUTF8?, dif_pos text.isValidUTF8]
  rfl

theorem utf8_of_text {bytes : List UInt8} {text : String} (spelled : text? bytes = some text) :
    utf8 text = bytes := by
  rw [text?, String.fromUTF8?] at spelled
  split at spelled
  · obtain rfl := Option.some.inj spelled
    rw [utf8, String.toUTF8_eq_toByteArray]
    rfl
  · simp at spelled

theorem utf8_injective {left right : String} (same : utf8 left = utf8 right) : left = right := by
  have texts := congrArg text? same
  rw [text_utf8, text_utf8] at texts
  exact Option.some.inj texts

end Bytes
end FragmentLisp
