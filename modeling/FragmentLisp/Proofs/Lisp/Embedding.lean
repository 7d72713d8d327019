import FragmentLisp.Proofs.Lisp.Occurrence

/-!
Where the code of an expression stands, the code of everything in it stands too, each at its own place.
-/

namespace FragmentLisp
namespace Lisp
namespace Code

open Instruction (Holds)
open Occurrence (inTurn inSequence Occurs)

def Embedded (constants : Constants) (code : Array UInt8) (occurrence : Occurrence) : Prop :=
  ∃ own, ofExpr constants occurrence.base occurrence.expr = .ok own ∧
    Holds code occurrence.base own

section Lists

variable {constants : Constants} {code : Array UInt8}

theorem embedded_pieces {gap base : Nat} (kinds : List Kind) (suffix : List Instruction)
    {exprs : List Expr} {pieces : List (List Instruction)}
    (made : Pieces constants gap base exprs pieces) (sized : codeSize suffix = gap)
    (held : Holds code base (pieces.flatMap fun piece => piece ++ suffix)) :
    ∀ child ∈ inTurn kinds gap base exprs, Embedded constants code child := by
  induction made with
  | nil base => exact fun child member => absurd member List.not_mem_nil
  | @cons base expr rest own pieces head tail inductionHypothesis =>
      have width := codeSize_of_ok head
      rw [List.flatMap_cons, Holds.append_iff, Holds.append_iff] at held
      obtain ⟨⟨heldOwn, _⟩, heldRest⟩ := held
      rw [codeSize_append, sized, ← Nat.add_assoc] at heldRest
      have others := inductionHypothesis heldRest
      rw [width] at others
      intro child member
      rcases List.mem_cons.mp member with rfl | later
      · exact ⟨own, head, heldOwn⟩
      · exact others child later

theorem embedded_intersperse {gap base : Nat} (kinds : List Kind) {exprs : List Expr}
    {pieces : List (List Instruction)} {between : List Instruction}
    (made : Pieces constants gap base exprs pieces) (sized : codeSize between = gap)
    (held : Holds code base (pieces.intersperse between).flatten) :
    ∀ child ∈ inTurn kinds gap base exprs, Embedded constants code child := by
  induction made with
  | nil base => exact fun child member => absurd member List.not_mem_nil
  | @cons base expr rest own pieces head tail inductionHypothesis =>
      have width := codeSize_of_ok head
      intro child member
      cases tail with
      | nil =>
          obtain rfl := List.mem_singleton.mp member
          exact ⟨own, head, by simpa using held⟩
      | cons nextHead nextTail =>
          rw [List.intersperse_cons_cons, List.flatten_cons, List.flatten_cons, Holds.append_iff,
            Holds.append_iff, sized] at held
          obtain ⟨heldOwn, _, heldRest⟩ := held
          have others := inductionHypothesis heldRest
          rw [width] at others
          rcases List.mem_cons.mp member with rfl | later
          · exact ⟨own, head, heldOwn⟩
          · exact others child later

theorem embedded_sequence {fieldKinds : List Kind} (kinds : List Kind) {base : Nat}
    {statements : List Statement} {whole : List Instruction}
    (made : Sequence constants base statements whole) (held : Holds code base whole) :
    ∀ child ∈ inSequence fieldKinds kinds base statements, Embedded constants code child := by
  induction made generalizing kinds with
  | nil base => exact fun child member => absurd member List.not_mem_nil
  | @definition base slot value rest own more head tail inductionHypothesis =>
      have width := codeSize_of_ok head
      obtain ⟨heldOwn, heldMore⟩ := Holds.append_iff.mp held
      have others := inductionHypothesis (kinds ++ [value.kind fieldKinds kinds])
        (Holds.cons_iff.mp heldMore).2
      rw [width] at others
      intro child member
      rcases List.mem_cons.mp member with rfl | later
      · exact ⟨own, head, heldOwn⟩
      · exact others child later
  | @last base value own head =>
      intro child member
      obtain rfl := List.mem_singleton.mp member
      exact ⟨own, head, held⟩
  | @expression base value next rest own more head tail inductionHypothesis =>
      have width := codeSize_of_ok head
      obtain ⟨heldOwn, heldMore⟩ := Holds.append_iff.mp held
      have others := inductionHypothesis kinds (Holds.cons_iff.mp heldMore).2
      rw [width] at others
      intro child member
      rcases List.mem_cons.mp member with rfl | later
      · exact ⟨own, head, heldOwn⟩
      · exact others child later

theorem embedded_shortCircuit (stopAtTrue : Bool) {base : Nat} (kinds : List Kind)
    {operands : List Expr} {pieces : List (List Instruction)}
    (made : Pieces constants (stopGap stopAtTrue) base operands pieces)
    (held : Holds code base (shortCircuit stopAtTrue base pieces)) :
    ∀ child ∈ inTurn kinds (stopGap stopAtTrue) base operands, Embedded constants code child := by
  rw [shortCircuit_eq] at held
  apply embedded_pieces kinds _ made _ (Holds.append_iff.mp held).1
  rw [codeSize_append, ← stopTest_size]
  rfl

end Lists

variable {constants : Constants} {code : Array UInt8} {fieldKinds : List Kind}

theorem Embedded.child {parent child : Occurrence} (embedded : Embedded constants code parent)
    (member : child ∈ parent.children fieldKinds) : Embedded constants code child := by
  obtain ⟨whole, succeeded, held⟩ := embedded
  obtain ⟨kinds, base, expr⟩ := parent
  cases made_of_ok succeeded with
  | arithmetic firstMade restMade =>
      obtain ⟨heldFirst, heldRest⟩ := Holds.append_iff.mp held
      have others := embedded_pieces kinds _ restMade rfl heldRest
      rw [codeSize_of_ok firstMade] at others
      rcases List.mem_cons.mp member with rfl | later
      · exact ⟨_, firstMade, heldFirst⟩
      · exact others child later
  | negate made | not made | count made =>
      obtain rfl := List.mem_singleton.mp member
      exact ⟨_, made, (Holds.append_iff.mp held).1⟩
  | equal leftMade rightMade | order leftMade rightMade =>
      obtain ⟨heldLeft, heldRight⟩ := Holds.append_iff.mp (Holds.append_iff.mp held).1
      rw [codeSize_of_ok leftMade] at rightMade heldRight
      rcases List.mem_cons.mp member with rfl | later
      · exact ⟨_, leftMade, heldLeft⟩
      · obtain rfl := List.mem_singleton.mp later
        exact ⟨_, rightMade, heldRight⟩
  | conjunction made | disjunction made =>
      exact embedded_shortCircuit _ kinds made held child member
  | conditional testMade chosenMade otherMade =>
      simp only [Holds.append_iff, codeSize_append, ← Nat.add_assoc] at held
      obtain ⟨⟨⟨⟨heldTest, _⟩, heldChosen⟩, _⟩, heldOther⟩ := held
      rw [codeSize_of_ok testMade] at chosenMade otherMade heldChosen heldOther
      rw [codeSize_of_ok chosenMade] at otherMade heldOther
      rcases List.mem_cons.mp member with rfl | later
      · exact ⟨_, testMade, heldTest⟩
      · rcases List.mem_cons.mp later with rfl | last
        · exact ⟨_, chosenMade, heldChosen⟩
        · obtain rfl := List.mem_singleton.mp last
          exact ⟨_, otherMade, heldOther⟩
  | localBinding made => exact embedded_sequence kinds made (Holds.append_iff.mp held).1 child member
  | concat made few =>
      apply embedded_pieces kinds [] made rfl _ child member
      simpa using (Holds.append_iff.mp held).1
  | print made few =>
      exact embedded_intersperse kinds made rfl (Holds.append_iff.mp held).1 child member
  | _ => exact absurd member List.not_mem_nil

theorem Embedded.occurs {outer inner : Occurrence} (embedded : Embedded constants code outer)
    (occurs : Occurs fieldKinds outer inner) : Embedded constants code inner := by
  induction occurs with
  | self => exact embedded
  | child _ member inductionHypothesis => exact inductionHypothesis.child member

end Code
end Lisp
end FragmentLisp
