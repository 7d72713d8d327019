import FragmentLisp.Proofs.Instruction.Jumps
import FragmentLisp.Proofs.Lisp.Occurrence

/-!
Where the code of an expression can go. All jumps in it go forward and stay in it, whatever the expression
was made of. If resolution has made it, its code names only what exists, and it neither returns nor stores
a field.
-/

namespace FragmentLisp
namespace Lisp
namespace Code

open Instruction (Boundary Directed boundary_start boundary_right)
open Occurrence (inTurn inSequence Fine Occurs)

def Ordinary (slots fields constantCount : Nat) : Instruction → Prop
  | .pushConstant index => index.toNat < constantCount
  | .loadLocal slot => slot.toNat < slots
  | .storeLocal slot => slot.toNat < slots
  | .loadField index => index.toNat < fields
  | .storeField _ => False
  | .return => False
  | .returnVoid => False
  | _ => True

/-- Instructions that name nothing and go on within the code. -/
def Free : Instruction → Prop
  | .pushConstant _ => False
  | .loadLocal _ => False
  | .storeLocal _ => False
  | .loadField _ => False
  | .storeField _ => False
  | .return => False
  | .returnVoid => False
  | _ => True

theorem ordinary_of_free {slots fields constantCount : Nat} {instruction : Instruction}
    (free : Free instruction) : Ordinary slots fields constantCount instruction := by
  cases instruction with
  | pushConstant | loadLocal | storeLocal | loadField | storeField | «return» | returnVoid =>
      exact free.elim
  | _ => trivial

/-- The instructions of an expression, apart from those of its parts, that name something. -/
inductive Names (constants : Constants) : Expr → Instruction → Prop
  | string (text : String) :
      Names constants (.string text) (.pushConstant (constants.number text))
  | localSlot (slot : UInt16) : Names constants (.localSlot slot) (.loadLocal slot)
  | field (index : UInt16) : Names constants (.field index) (.loadField index)
  | binding {bindings : List (UInt16 × Expr)} {body : List Expr} {slot : UInt16} {value : Expr}
      (member : .definition slot value ∈ bindingSteps bindings body) :
      Names constants (.localBinding bindings body) (.storeLocal slot)
  | separator (newline : Bool) (arguments : List Expr) :
      Names constants (.print newline arguments)
        (.pushConstant (constants.number Constants.separator))

section Lists

variable {constants : Constants} {allowed : Instruction → Prop} {exits : Nat → Prop}

def ChildrenDirected (constants : Constants) (allowed : Instruction → Prop)
    (children : List Occurrence) : Prop :=
  ∀ child ∈ children, ∀ code, ofExpr constants child.base child.expr = .ok code →
    ∀ exits, Directed allowed exits child.base code

theorem directed_pieces {gap base : Nat} (kinds : List Kind) {exprs : List Expr}
    {pieces : List (List Instruction)} {suffix : List Instruction}
    (made : Pieces constants gap base exprs pieces) (sized : codeSize suffix = gap)
    (each : ChildrenDirected constants allowed (inTurn kinds gap base exprs))
    (between : ∀ offset, offset + gap ≤ base + piecesSize gap pieces →
      Directed allowed exits offset suffix) :
    Directed allowed exits base (pieces.flatMap fun piece => piece ++ suffix) := by
  induction made with
  | nil base => exact Directed.nil allowed exits base
  | @cons base expr rest code pieces head tail inductionHypothesis =>
      have width := codeSize_of_ok head
      rw [piecesSize_cons] at between
      rw [List.flatMap_cons]
      apply Directed.append
      · apply Directed.append
        · exact each _ List.mem_cons_self _ head _
        · exact between _ (by omega)
      · rw [codeSize_append, sized, ← Nat.add_assoc]
        apply inductionHypothesis
        · rw [width]
          exact fun child member => each child (List.mem_cons_of_mem _ member)
        · intro offset inside
          exact between offset (by omega)

theorem directed_intersperse {gap base : Nat} {kinds : List Kind} {exprs : List Expr}
    {pieces : List (List Instruction)} {between : List Instruction}
    (made : Pieces constants gap base exprs pieces) (sized : codeSize between = gap)
    (each : ChildrenDirected constants allowed (inTurn kinds gap base exprs))
    (directed : ∀ offset, Directed allowed exits offset between) :
    Directed allowed exits base (pieces.intersperse between).flatten := by
  induction made with
  | nil base => exact Directed.nil allowed exits base
  | @cons base expr rest code pieces head tail inductionHypothesis =>
      have width := codeSize_of_ok head
      have own := each _ List.mem_cons_self _ head exits
      have others := inductionHypothesis (by
        rw [width]
        exact fun child member => each child (List.mem_cons_of_mem _ member))
      cases pieces with
      | nil => simpa using own
      | cons next more =>
          rw [List.intersperse_cons_cons, List.flatten_cons, List.flatten_cons]
          apply Directed.append own
          apply Directed.append (directed _)
          rw [sized]
          exact others

theorem directed_sequence {base : Nat} {fieldKinds kinds : List Kind}
    {statements : List Statement} {code : List Instruction}
    (made : Sequence constants base statements code) (pops : allowed .pop)
    (stores : ∀ slot value, .definition slot value ∈ statements → allowed (.storeLocal slot))
    (each : ChildrenDirected constants allowed (inSequence fieldKinds kinds base statements)) :
    Directed allowed exits base code := by
  induction made generalizing kinds with
  | nil base => exact Directed.nil _ exits base
  | @definition base slot value rest code more head tail inductionHypothesis =>
      have width := codeSize_of_ok head
      apply Directed.append (each _ List.mem_cons_self _ head _)
      apply Directed.cons (Directed.plain (stores slot value List.mem_cons_self) rfl)
      apply @inductionHypothesis (kinds ++ [value.kind fieldKinds kinds])
      · exact fun slot value member => stores slot value (List.mem_cons_of_mem _ member)
      · rw [width]
        exact fun child member => each child (List.mem_cons_of_mem _ member)
  | last head => exact each _ List.mem_cons_self _ head _
  | @expression base value next rest code more head tail inductionHypothesis =>
      have width := codeSize_of_ok head
      apply Directed.append (each _ List.mem_cons_self _ head _)
      apply Directed.cons (Directed.plain pops rfl)
      apply @inductionHypothesis kinds
      · exact fun slot value member => stores slot value (List.mem_cons_of_mem _ member)
      · rw [width]
        exact fun child member => each child (List.mem_cons_of_mem _ member)

theorem word_toNat (offset : Nat) (small : offset < 2 ^ 32) :
    (UInt32.ofNat offset).toNat = offset :=
  UInt32.toNat_ofNat_of_lt' small

theorem directed_stopTest (free : ∀ instruction, Free instruction → allowed instruction)
    (offset : Nat) (stopAtTrue : Bool) :
    Directed allowed exits offset (stopTest stopAtTrue) := by
  cases stopAtTrue
  · exact Directed.nil _ exits offset
  · exact Directed.plain (free _ trivial) rfl

theorem directed_shortCircuit {base : Nat} {kinds : List Kind}
    {operands : List Expr} {pieces : List (List Instruction)} (stopAtTrue : Bool)
    (free : ∀ instruction, Free instruction → allowed instruction)
    (made : Pieces constants (stopGap stopAtTrue) base operands pieces)
    (small : base + codeSize (shortCircuit stopAtTrue base pieces) < 2 ^ 32)
    (each : ChildrenDirected constants allowed
      (inTurn kinds (stopGap stopAtTrue) base operands)) :
    Directed allowed exits base (shortCircuit stopAtTrue base pieces) := by
  rw [shortCircuit_size] at small
  rw [shortCircuit_eq]
  have place : stopOffset stopAtTrue base pieces =
      base + piecesSize (stopGap stopAtTrue) pieces + 7 := rfl
  generalize stopOffset stopAtTrue base pieces = stopped at place
  have stoppedWord := word_toNat stopped (by omega)
  have finishWord := word_toNat (stopped + 2) (by omega)
  have gapSize := stopTest_size stopAtTrue
  apply @Directed.close _ (fun target => target = stopped ∨ target = stopped + 2)
  · apply Directed.append
    · refine directed_pieces kinds made ?_ each ?_
      · rw [codeSize_append, ← gapSize]
        rfl
      · intro offset inside
        apply Directed.append (directed_stopTest free _ _)
        refine Directed.jump (free _ trivial) (congrArg some stoppedWord) ?_ (Or.inl rfl)
        omega
    · rw [stopPieces_size]
      refine Directed.cons (Directed.plain (free _ trivial) rfl) ?_
      apply Directed.cons
      · refine Directed.jump (free _ trivial) (congrArg some finishWord) ?_ (Or.inr rfl)
        simp only [Instruction.size]
        omega
      · exact Directed.plain (free _ trivial) rfl
  · rintro target (rfl | rfl)
    · have start := boundary_start target [.pushBoolean stopAtTrue]
      apply boundary_right
      apply @boundary_right _ _ [_, _]
      rw [stopPieces_size]
      simp only [codeSize_cons, codeSize_nil, Instruction.size]
      rwa [show base + piecesSize (stopGap stopAtTrue) pieces + (2 + (5 + 0)) = target by omega]
    · right
      rw [codeSize_append, stopPieces_size]
      simp only [codeSize_cons, codeSize_nil, Instruction.size]
      omega

theorem directed_conditional {base alternative finish : Nat}
    {test chosen other : List Instruction}
    (free : ∀ instruction, Free instruction → allowed instruction)
    (alternativeStart : alternative = base + codeSize test + 5 + codeSize chosen + 5)
    (finishes : finish = alternative + codeSize other) (small : finish < 2 ^ 32)
    (nonempty : 0 < codeSize other)
    (testDirected : ∀ exits, Directed allowed exits base test)
    (chosenDirected : ∀ exits, Directed allowed exits
      (base + codeSize test + 5) chosen)
    (otherDirected : ∀ exits, Directed allowed exits
      alternative other) :
    Directed allowed exits base
      (test ++ [.jumpIfFalse (UInt32.ofNat alternative)] ++ chosen ++
        [.jump (UInt32.ofNat finish)] ++ other) := by
  have alternativeWord := word_toNat alternative (by omega)
  have finishWord := word_toNat finish small
  have before : base + codeSize (test ++ [.jumpIfFalse (UInt32.ofNat alternative)] ++ chosen ++
      [.jump (UInt32.ofNat finish)]) = alternative := by
    simp only [codeSize_append, codeSize_cons, codeSize_nil, Instruction.size]
    omega
  apply @Directed.close _ (fun target => target = alternative ∨ target = finish)
  · apply Directed.append
    · apply Directed.append
      · apply Directed.append
        · apply Directed.append (testDirected _)
          refine Directed.jump (free _ trivial) (congrArg some alternativeWord) ?_ (Or.inl rfl)
          omega
        · have start : base + codeSize (test ++ [.jumpIfFalse (UInt32.ofNat alternative)]) =
              base + codeSize test + 5 := by
            simp [Instruction.size, Nat.add_assoc]
          rw [start]
          exact chosenDirected _
      · refine Directed.jump (free _ trivial) (congrArg some finishWord) ?_ (Or.inr rfl)
        simp only [codeSize_append, codeSize_cons, codeSize_nil, Instruction.size]
        omega
    · rw [before]
      exact otherDirected _
  · rintro target (rfl | rfl)
    · apply boundary_right
      rw [before]
      exact boundary_start _ _
    · right
      rw [codeSize_append, ← Nat.add_assoc, before, finishes]

end Lists

/-- The code of an expression goes forward within itself. What its instructions name is left to those who
know what the expression was made of. -/
theorem directed_of_ok {fieldKinds : List Kind} {constants : Constants}
    {allowed : Instruction → Prop} (free : ∀ instruction, Free instruction → allowed instruction)
    (occurrence : Occurrence)
    (named : ∀ inner, Occurs fieldKinds occurrence inner →
      ∀ instruction, Names constants inner.expr instruction → allowed instruction)
    (small : occurrence.finish < 2 ^ 32) {code : List Instruction}
    (whole : ofExpr constants occurrence.base occurrence.expr = .ok code)
    (exits : Nat → Prop) : Directed allowed exits occurrence.base code := by
  induction occurrence using Occurrence.childInduction fieldKinds
    generalizing code exits with
  | step occurrence childHypothesis =>
      have each : ChildrenDirected constants allowed (occurrence.children fieldKinds) := by
        intro child member code childMade exits
        have within := Occurrence.child_within member
        exact childHypothesis child member
          (fun inner below => named inner ((Occurs.child .self member).trans below))
          (by omega) childMade exits
      have own := named occurrence .self
      have reach : occurrence.base + codeSize code < 2 ^ 32 := by
        rw [codeSize_of_ok whole]
        exact small
      obtain ⟨kinds, base, expr⟩ := occurrence
      cases made_of_ok whole with
      | number value => exact Directed.plain (free _ trivial) rfl
      | boolean value => exact Directed.plain (free _ trivial) rfl
      | string value => exact Directed.plain (own _ (.string value)) rfl
      | nil => exact Directed.plain (free _ trivial) rfl
      | localSlot slot => exact Directed.plain (own _ (.localSlot slot)) rfl
      | field index => exact Directed.plain (own _ (.field index)) rfl
      | arithmetic firstMade restMade =>
          apply Directed.append (each _ List.mem_cons_self _ firstMade exits)
          rw [codeSize_of_ok firstMade] at restMade ⊢
          refine directed_pieces kinds restMade rfl ?_ fun _ _ =>
            Directed.plain (free _ trivial) rfl
          exact fun child member => each child (List.mem_cons_of_mem _ member)
      | negate made | not made | count made =>
          exact Directed.append (each _ List.mem_cons_self _ made exits)
            (Directed.plain (free _ trivial) rfl)
      | equal leftMade rightMade | order leftMade rightMade =>
          refine Directed.append ?_ (Directed.plain (free _ trivial) rfl)
          apply Directed.append (each _ List.mem_cons_self _ leftMade exits)
          rw [codeSize_of_ok leftMade] at rightMade ⊢
          exact each _ (List.mem_cons_of_mem _ List.mem_cons_self) _ rightMade exits
      | conjunction made | disjunction made =>
          exact directed_shortCircuit _ free made reach each
      | @conditional condition consequent alternative test chosen other testMade chosenMade
          otherMade =>
          have testSize := codeSize_of_ok testMade
          have chosenSize := codeSize_of_ok chosenMade
          have testDirected := each ⟨kinds, base, condition⟩ List.mem_cons_self _ testMade
          have chosenDirected := each ⟨kinds, base + condition.width + 5, consequent⟩
            (List.mem_cons_of_mem _ List.mem_cons_self) chosen (by rwa [testSize] at chosenMade)
          have otherDirected := each
            ⟨kinds, base + condition.width + 5 + consequent.width + 5, alternative⟩
            (List.mem_cons_of_mem _ (List.mem_cons_of_mem _ List.mem_cons_self)) other
            (by rwa [testSize, chosenSize] at otherMade)
          rw [← testSize] at chosenDirected otherDirected
          rw [← chosenSize] at otherDirected
          have nonempty : 0 < codeSize other := by
            rw [codeSize_of_ok otherMade]
            exact alternative.width_positive
          refine directed_conditional free rfl rfl ?_ nonempty testDirected chosenDirected otherDirected
          simp only [codeSize_append, codeSize_cons, codeSize_nil, Instruction.size] at reach
          simp only
          omega
      | localBinding sequence =>
          rename_i bindings body inner
          apply Directed.append (directed_sequence sequence (free _ trivial)
            (fun slot value member => own _ (.binding member)) each)
          split
          · exact Directed.plain (free _ trivial) rfl
          · exact Directed.nil _ exits _
      | concat made few =>
          refine Directed.append ?_ (Directed.plain (free _ trivial) rfl)
          have flat := @directed_pieces _ _ exits _ _ kinds _ _ [] made rfl each
            fun _ _ => Directed.nil _ _ _
          simpa using flat
      | print made few =>
          have separator := own _ (.separator _ _)
          apply Directed.append
          · exact directed_intersperse made rfl each fun _ => Directed.plain separator rfl
          · refine Directed.cons (Directed.plain (free _ trivial) rfl) ?_
            exact Directed.cons (Directed.plain (free _ trivial) rfl)
              (Directed.plain (free _ trivial) rfl)

theorem stored_of_numbered {slots next : Nat} {statements : List Statement}
    (numbered : Numbered slots next statements) {slot : UInt16} {value : Expr}
    (member : .definition slot value ∈ statements) : slot.toNat < slots := by
  induction statements generalizing next with
  | nil => simp at member
  | cons statement rest inductionHypothesis =>
      rcases List.mem_cons.mp member with rfl | later
      · exact numbered.1 ▸ numbered.2.1
      · cases statement with
        | definition other otherValue => exact inductionHypothesis numbered.2.2 later
        | expression otherValue => exact inductionHypothesis numbered later

/-- What resolution has promised of an expression exists where the expression names it. -/
theorem ordinary_of_names {fieldKinds : List Kind} {slots : Nat} {constants : Constants}
    (constantsSmall : constants.size < 2 ^ 32) {occurrence : Occurrence}
    (fine : Fine fieldKinds slots occurrence)
    (pooled : ∀ text, occurrence.expr.literal? = some text → text ∈ constants)
    {instruction : Instruction} (names : Names constants occurrence.expr instruction) :
    Ordinary slots fieldKinds.length constants.size instruction := by
  have constant : ∀ text ∈ constants,
      Ordinary slots fieldKinds.length constants.size (.pushConstant (constants.number text)) := by
    intro text member
    exact (Array.getElem?_eq_some_iff.mp (constant_at_number member constantsSmall)).1
  obtain ⟨kinds, base, expr⟩ := occurrence
  cases names with
  | string text => exact constant text (pooled text rfl)
  | localSlot slot => exact Nat.lt_of_lt_of_le (fine.localSlot slot rfl) fine.room
  | field index => exact fine.field index rfl
  | binding member => exact stored_of_numbered (fine.numbered _ _ rfl) member
  | separator newline arguments => exact constant _ (pooled _ rfl)

end Code
end Lisp
end FragmentLisp
