import FragmentLisp.Lisp.Source
import FragmentLisp.Proofs.Lisp.Literal
import FragmentLisp.Proofs.Reader.Quotation
import FragmentLisp.Proofs.Reader.Rendering

/-!
Readable forms that are evaluated again. Integers, truth values and nil come back. A string does when it can
stand between quotes as it is and its length fits the word before a constant, and no other string ever does.
-/

namespace FragmentLisp
namespace Lisp

/-- A value whose readable form means this value. -/
def Legible : Value → Prop
  | .string text => Reader.Unescaped text.toList ∧ text.utf8ByteSize < 2 ^ 32
  | _ => True

/-- The readable form of a value is read as its literal, if it has nothing to escape. -/
theorem read_display {value : Value} (real : value ≠ .nothing)
    (plain : ∀ text, value = .string text → Reader.Unescaped text.toList) (limit : Nat) :
    ∃ node, Reader.read value.display limit = .ok [node] ∧ Literal node value := by
  cases value with
  | integer value =>
      have spells := (@Reader.Written.atom 0 _ _ (.number (Reader.decimal_toString value.toInt))).spells
      refine ⟨_, Reader.read_of_spells (List.append_nil _).symm spells (.inl rfl) ?_, .number value _⟩
      refine List.forall_mem_singleton.mpr ?_
      rw [Node.depth_eq_nesting, Node.nesting]
      exact Nat.zero_le limit
  | boolean value =>
      cases value with
      | true => exact ⟨_, rfl, .truth _⟩
      | false => exact ⟨_, rfl, .falsity _⟩
  | string text => exact ⟨_, Reader.read_enclosed (plain text rfl) limit, .string text _⟩
  | nil => exact ⟨_, rfl, .nil _⟩
  | nothing => exact absurd rfl real

section

variable [ObjectFormat] {host : Host} {value : Value}

theorem evaluateSource_of_ok {options : Options} {bindings : Bindings} {source : String}
    {nodes : List Node} (read : Reader.read source options.nestingLimit = .ok nodes) (steps : Nat) :
    host.evaluateSource options bindings steps source =
      host.evaluate frontEnd options bindings steps nodes := by
  rw [Host.evaluateSource, read]

theorem Legible.settles [LawfulObjectFormat] (real : value ≠ .nothing)
    (fresh : host.registry.get? (host.nextName {}) = none) (legible : Legible value) :
    Settles (fun steps => (host.evaluateSource {} .empty steps value.display).1)
      (.ok { value, output := "", typeName := host.nextName {} }) := by
  have each : ∀ text, value = .string text →
      Reader.Unescaped text.toList ∧ text.utf8ByteSize < 2 ^ 32 := by
    rintro text rfl
    exact legible
  obtain ⟨node, read, literal⟩ := read_display real (fun text same => (each text same).1)
    ({} : Options).nestingLimit
  simp only [evaluateSource_of_ok read]
  exact literal.settles fresh fun text same => (each text same).2

theorem single_of_answer {options : Options} {bindings : Bindings} {steps : Nat} {source : String}
    {evaluation : Evaluation} (noBlocks : options.allowBlocks = false)
    (answered : (host.evaluateSource options bindings steps source).1 = some (.ok evaluation)) :
    ∃ node, Reader.read source options.nestingLimit = .ok [node] := by
  cases read : Reader.read source options.nestingLimit with
  | error error =>
      rw [Host.evaluateSource, read] at answered
      cases answered
  | ok nodes =>
      rw [evaluateSource_of_ok read, evaluate_answer] at answered
      cases wrapped : CompilationUnit.wrap frontEnd options bindings host.nextNumber nodes with
      | error error =>
          rw [wrapped] at answered
          cases answered
      | ok unit =>
          obtain ⟨node, rfl⟩ := single_of_wrap noBlocks wrapped
          exact ⟨node, rfl⟩

/-- A string that comes back from between quotes had nothing to escape and fits its word. -/
theorem legible_of_answer [LawfulObjectFormat] {text : String} {steps : Nat}
    {evaluation : Evaluation} (stored : text.utf8ByteSize < 2 ^ 63) (fresh : host.registry.get? (host.nextName {}) = none)
    (answered : (host.evaluateSource {} .empty steps (Value.string text).display).1 =
      some (.ok evaluation))
    (same : evaluation.value = .string text) : Legible (.string text) := by
  obtain ⟨node, read⟩ := single_of_answer rfl answered
  obtain ⟨first, span, others, only, size, unescaped⟩ := Reader.string_of_read read
  obtain ⟨rfl, -⟩ := List.cons.inj only
  have literal := Literal.string first span
  rw [evaluateSource_of_ok read] at answered
  by_cases long : 2 ^ 32 ≤ first.utf8ByteSize
  · obtain ⟨malformation, refused⟩ := literal.refused fresh long (Nat.lt_of_le_of_lt size stored)
    rw [refused] at answered
    cases answered
  · have short := Nat.lt_of_not_le long
    have settles := literal.settles fresh fun other same => Value.string.inj same ▸ short
    have unique := Except.ok.inj (settles.unique answered)
    rw [unique] at same
    obtain rfl := Value.string.inj same
    exact ⟨unescaped rfl, short⟩

end

/-- The readable form of a value is evaluated to the value just when it is legible. The form itself has to
fit into memory, and no loaded type may have the name that comes next. -/
theorem readable_form_reads_back [ObjectFormat] [LawfulObjectFormat] {host : Host} {value : Value}
    (real : value ≠ .nothing)
    (stored : value.display.utf8ByteSize < 2 ^ 63)
    (fresh : host.registry.get? (host.nextName {}) = none) :
    (Legible value →
      Settles (fun steps => (host.evaluateSource {} .empty steps value.display).1)
        (.ok { value, output := "", typeName := host.nextName {} })) ∧
    ∀ steps evaluation,
      (host.evaluateSource {} .empty steps value.display).1 = some (.ok evaluation) →
        (evaluation.value = value ↔ Legible value) := by
  have settles := Legible.settles real fresh
  refine ⟨settles, fun steps evaluation answered => ⟨fun same => ?_, fun legible => ?_⟩⟩
  · cases value with
    | string text =>
        have shorter : text.utf8ByteSize ≤ (Value.string text).display.utf8ByteSize := by
          rw [Value.display, String.utf8ByteSize_append, String.utf8ByteSize_append]
          omega
        exact legible_of_answer (Nat.lt_of_le_of_lt shorter stored) fresh answered same
    | _ => trivial
  · rw [Except.ok.inj ((settles legible).unique answered)]

theorem lines_are_read_back :
    Value.string "a\nb" ≠ .nothing ∧ (Value.string "a\nb").display.utf8ByteSize < 2 ^ 63 ∧
      Host.initial.registry.get? (Host.initial.nextName {}) = none ∧
      Legible (.string "a\nb") ∧
      Settles
        (fun steps => (Host.initial.evaluateSource {} .empty steps (Value.string "a\nb").display).1)
        (.ok { value := .string "a\nb", output := "", typeName := Host.initial.nextName {} }) := by
  have real : Value.string "a\nb" ≠ .nothing := nofun
  have stored : (Value.string "a\nb").display.utf8ByteSize < 2 ^ 63 := by decide
  have fresh : Host.initial.registry.get? (Host.initial.nextName {}) = none := rfl
  have legible : Legible (.string "a\nb") := ⟨by decide, by decide⟩
  exact ⟨real, stored, fresh, legible, (readable_form_reads_back real stored fresh).1 legible⟩

/-- A quote ends the string too early, and a backslash takes the next character with it. -/
theorem quotes_and_backslashes_are_lost :
    (Value.string "\"").display = "\"\"\"" ∧
      (∀ steps, (Host.initial.evaluateSource {} .empty steps (Value.string "\"").display).1 =
        some (.error (.ofReading ⟨.unterminatedString, 2⟩))) ∧
      (Value.string "\\n").display = "\"\\n\"" ∧
      Settles (fun steps => (Host.initial.evaluateSource {} .empty steps (Value.string "\\n").display).1)
        (.ok { value := .string "\n", output := "", typeName := Host.initial.nextName {} }) := by
  have read : Reader.read (Value.string "\\n").display ({} : Options).nestingLimit =
      .ok [.string "\n" ⟨0, 4⟩] := rfl
  have settles := @Literal.settles _ _ _ Host.initial _ (.string "\n" ⟨0, 4⟩) rfl
    fun text same => Value.string.inj same ▸ (by decide : "\n".utf8ByteSize < 2 ^ 32)
  refine ⟨rfl, fun _ => rfl, rfl, ?_⟩
  simp only [evaluateSource_of_ok read]
  exact settles

end Lisp
end FragmentLisp
