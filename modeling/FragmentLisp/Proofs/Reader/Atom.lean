import FragmentLisp.Proofs.Integer
import FragmentLisp.Proofs.Reader.Grammar

/-!
What the text of an atom is taken for. The reader tries the text as an integer first; the grammar tells
numbers and symbols apart without an order between them.
-/

namespace FragmentLisp

namespace Reader

theorem isBlank_iff {character : Char} : isBlank character = true ↔ character ∈ blanks := by
  simp [isBlank, isWhiteSpace, blanks, or_assoc]

theorem isDelimiter_iff {character : Char} :
    isDelimiter character = true ↔ character ∈ delimiters := by
  simp [isDelimiter, isBlank_iff, delimiters, or_assoc]

theorem digitsValue_eq (digits : List Char) : digitsValue digits = Nat.ofDigitChars 10 digits 0 := rfl

theorem natural?_eq_some_iff {digits : List Char} {value : Nat} :
    natural? digits = some value ↔ Digits digits ∧ Nat.ofDigitChars 10 digits 0 = value := by
  rw [natural?, Digits, digitsValue_eq]
  cases digits <;> simp

theorem signed_eq_some_iff {sign : Int → Int} {digits : List Char} {value : Int} :
    ((do let magnitude ← natural? digits; pure (magnitude : Int)) : Option Int).map sign =
        some value ↔
      Digits digits ∧ sign (Nat.ofDigitChars 10 digits 0) = value := by
  constructor
  · intro spelled
    obtain ⟨_, lifted, rfl⟩ := Option.map_eq_some_iff.mp spelled
    obtain ⟨magnitude, read, same⟩ := Option.bind_eq_some_iff.mp lifted
    obtain ⟨digital, rfl⟩ := natural?_eq_some_iff.mp read
    exact ⟨digital, congrArg sign (Option.some.inj same)⟩
  · rintro ⟨digital, rfl⟩
    rw [natural?_eq_some_iff.mpr ⟨digital, rfl⟩]
    rfl

theorem Digits.head_isDigit {first : Char} {rest : List Char} (digits : Digits (first :: rest)) :
    first.isDigit = true :=
  digits.2 first List.mem_cons_self

theorem integer?_eq_some_iff {text : List Char} {value : Int} :
    integer? text = some value ↔ Decimal text value := by
  fun_cases integer? text with
  | case1 digits =>
      rw [signed_eq_some_iff]
      constructor
      · rintro ⟨digital, rfl⟩
        exact .negative digital
      · rintro (digital | _ | digital)
        · exact absurd digital.head_isDigit (by decide)
        · exact ⟨digital, rfl⟩
  | case2 digits =>
      rw [signed_eq_some_iff]
      constructor
      · rintro ⟨digital, rfl⟩
        exact .positive digital
      · rintro (digital | digital | _)
        · exact absurd digital.head_isDigit (by decide)
        · exact ⟨digital, rfl⟩
  | case3 text noMinus noPlus =>
      rw [signed_eq_some_iff]
      constructor
      · rintro ⟨digital, rfl⟩
        exact .unsigned digital
      · rintro (digital | digital | digital)
        · exact ⟨digital, rfl⟩
        · exact absurd rfl (noPlus _)
        · exact absurd rfl (noMinus _)

theorem Decimal.unique {text : List Char} {first second : Int} (left : Decimal text first)
    (right : Decimal text second) : first = second :=
  Option.some.inj ((integer?_eq_some_iff.mpr left).symm.trans (integer?_eq_some_iff.mpr right))

/-- An integer that 64 bits cannot hold still looks like a number, unless it begins with a plus sign. -/
theorem Decimal.shape {text : List Char} {value : Int} (decimal : Decimal text value) :
    Digits text ∨ text.head? = some '+' ∨ ∃ digits, text = '-' :: digits ∧ Digits digits := by
  rcases decimal with digital | digital | digital
  · exact .inl digital
  · exact .inr (.inl rfl)
  · exact .inr (.inr ⟨_, rfl, digital⟩)

theorem ofText_of_decimal {text : List Char} {value : Int64} (decimal : Decimal text value.toInt) :
    Atom.ofText text = .number value := by
  rw [Atom.ofText, integer?_eq_some_iff.mpr decimal]
  simp only [int64?_eq_some_iff.mpr rfl]

theorem ofText_of_symbolic {text : List Char} (symbolic : Symbolic text) :
    Atom.ofText text = .symbol (String.ofList text) := by
  rw [Atom.ofText]
  split
  next => rfl
  next value spelled =>
    have decimal := integer?_eq_some_iff.mp spelled
    split
    next fitting fits =>
      rw [← int64?_eq_some_iff.mp fits] at decimal
      exact absurd decimal (symbolic.noInteger fitting)
    next =>
      have plus : text.head? = some '+' := by
        rcases decimal.shape with digital | plus | ⟨digits, rfl, digital⟩
        · exact absurd digital symbolic.noDigits
        · exact plus
        · exact absurd digital (symbolic.noNegative digits rfl)
      rw [if_pos plus]

theorem decimal_of_ofText {text : List Char} {value : Int64}
    (taken : Atom.ofText text = .number value) : Decimal text value.toInt := by
  rw [Atom.ofText] at taken
  split at taken
  next => cases taken
  next spelled =>
    split at taken
    next fitting fits =>
      cases taken
      rw [int64?_eq_some_iff.mp fits]
      exact integer?_eq_some_iff.mp spelled
    next => split at taken <;> cases taken

/-- A text that is taken for a symbol holds all of a symbol's characters, and no number. -/
theorem symbolic_of_ofText {text : List Char} {name : String} (nonempty : text ≠ [])
    (plain : ∀ character ∈ text, character ∉ delimiters)
    (taken : Atom.ofText text = .symbol name) : name = String.ofList text ∧ Symbolic text := by
  rw [Atom.ofText] at taken
  split at taken
  next unspelled =>
    cases taken
    have noDecimal : ∀ value, ¬Decimal text value := by
      intro value decimal
      rw [integer?_eq_some_iff.mpr decimal] at unspelled
      cases unspelled
    refine ⟨rfl, nonempty, plain, fun value => noDecimal _, fun digital => ?_, ?_⟩
    · exact noDecimal _ (.unsigned digital)
    · rintro digits rfl digital
      exact noDecimal _ (.negative digital)
  next value spelled =>
    have decimal := integer?_eq_some_iff.mp spelled
    split at taken
    next => cases taken
    next unfitting =>
      split at taken
      next plus =>
        cases taken
        refine ⟨rfl, nonempty, plain, fun fitting fits => ?_, fun digital => ?_, ?_⟩
        · rw [int64?_eq_some_iff.mpr (fits.unique decimal)] at unfitting
          cases unfitting
        · obtain ⟨first, rest, rfl⟩ := List.exists_cons_of_ne_nil nonempty
          cases plus
          exact absurd digital.head_isDigit (by decide)
        · rintro digits rfl
          cases plus
      next => cases taken

/-- The node of an atom that covers a range of bytes; an integer that is out of range has none. -/
def Atom.node? (span : Span) : Atom → Option Node
  | .number value => some (.number value span)
  | .symbol name => some (.symbol name span)
  | .outOfRange _ => none

theorem node?_of_atomic {text : List Char} {span : Span} {node : Node}
    (atomic : Atomic text span node) : (Atom.ofText text).node? span = some node := by
  cases atomic with
  | number decimal => rw [ofText_of_decimal decimal, Atom.node?]
  | symbol symbolic => rw [ofText_of_symbolic symbolic, Atom.node?]

theorem atomic_of_node? {text : List Char} {span : Span} {node : Node} (nonempty : text ≠ [])
    (plain : ∀ character ∈ text, character ∉ delimiters)
    (taken : (Atom.ofText text).node? span = some node) : Atomic text span node := by
  cases atom : Atom.ofText text with
  | number value =>
      rw [atom] at taken
      cases taken
      exact .number (decimal_of_ofText atom)
  | symbol name =>
      rw [atom] at taken
      cases taken
      obtain ⟨rfl, symbolic⟩ := symbolic_of_ofText nonempty plain atom
      exact .symbol symbolic
  | outOfRange literal =>
      rw [atom] at taken
      cases taken

end Reader
end FragmentLisp
