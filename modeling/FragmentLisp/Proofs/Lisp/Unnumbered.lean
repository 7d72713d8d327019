import FragmentLisp.Proofs.Instruction.Numbering
import FragmentLisp.Proofs.Lisp.Layout

/-!
Bodies without the numbers of their fields. Code generation does not look at these numbers, nor at the
numbers of constants: apart from them, the code of a body is the code of the body without numbers.
-/

namespace FragmentLisp
namespace Lisp

open Instruction (unnumbered)

mutual
def Expr.unnumbered : Expr → Expr
  | .number value => .number value
  | .boolean value => .boolean value
  | .string value => .string value
  | .nil => .nil
  | .localSlot slot => .localSlot slot
  | .field _ => .field 0
  | .arithmetic op operands => .arithmetic op (unnumberedAll operands)
  | .negate operand => .negate operand.unnumbered
  | .equal left right => .equal left.unnumbered right.unnumbered
  | .order op left right => .order op left.unnumbered right.unnumbered
  | .not operand => .not operand.unnumbered
  | .conjunction operands => .conjunction (unnumberedAll operands)
  | .disjunction operands => .disjunction (unnumberedAll operands)
  | .conditional condition consequent alternative =>
      .conditional condition.unnumbered consequent.unnumbered alternative.unnumbered
  | .localBinding bindings body => .localBinding (unnumberedBindings bindings) (unnumberedAll body)
  | .concat parts => .concat (unnumberedAll parts)
  | .count operand => .count operand.unnumbered
  | .print newline arguments => .print newline (unnumberedAll arguments)

def unnumberedAll : List Expr → List Expr
  | [] => []
  | expression :: rest => expression.unnumbered :: unnumberedAll rest

def unnumberedBindings : List (UInt16 × Expr) → List (UInt16 × Expr)
  | [] => []
  | (slot, value) :: rest => (slot, value.unnumbered) :: unnumberedBindings rest
end

@[simp] theorem unnumberedAll_eq_map (expressions : List Expr) :
    unnumberedAll expressions = expressions.map Expr.unnumbered := by
  induction expressions with
  | nil => rfl
  | cons expression rest inductionHypothesis =>
      rw [unnumberedAll, inductionHypothesis, List.map_cons]

@[simp] theorem unnumberedBindings_eq_map (bindings : List (UInt16 × Expr)) :
    unnumberedBindings bindings = bindings.map fun (slot, value) => (slot, value.unnumbered) := by
  induction bindings with
  | nil => rfl
  | cons binding rest inductionHypothesis =>
      rw [unnumberedBindings, inductionHypothesis, List.map_cons]

def Statement.unnumbered : Statement → Statement
  | .definition slot value => .definition slot value.unnumbered
  | .expression value => .expression value.unnumbered

def Body.unnumbered (body : Body) : Body :=
  { body with statements := body.statements.map Statement.unnumbered }

namespace Code

variable {constants : Constants}

def NumbersOnly (constants : Constants) (expr : Expr) : Prop :=
  ∀ base, ofExpr #[] base expr.unnumbered = List.map unnumbered <$> ofExpr constants base expr

@[simp] theorem number_empty (text : String) : Constants.number #[] text = 0 := by
  simp [Constants.number]

section Lists

theorem ofExprs_unnumbered {exprs : List Expr} (each : ∀ expr ∈ exprs, NumbersOnly constants expr)
    (gap base : Nat) (made : List (List Instruction)) :
    ofExprs #[] gap base (made.map (List.map unnumbered)) (exprs.map Expr.unnumbered) =
      List.map (List.map unnumbered) <$> ofExprs constants gap base made exprs := by
  induction exprs generalizing base made with
  | nil => exact congrArg Except.ok List.map_reverse.symm
  | cons expr rest inductionHypothesis =>
      have later := inductionHypothesis fun other member => each other (List.mem_cons_of_mem _ member)
      rw [List.map_cons, ofExprs, ofExprs, each expr List.mem_cons_self]
      simp only [map_bind, bind_map_left, Instruction.codeSize_unnumbered, ← later, List.map_cons]

theorem operands_unnumbered {exprs : List Expr}
    (each : ∀ expr ∈ exprs, NumbersOnly constants expr) (gap base : Nat) :
    ofExprs #[] gap base [] (exprs.map Expr.unnumbered) =
      List.map (List.map unnumbered) <$> ofExprs constants gap base [] exprs :=
  ofExprs_unnumbered each gap base []

theorem ofBindings_unnumbered {bindings : List (UInt16 × Expr)}
    (each : ∀ binding ∈ bindings, NumbersOnly constants binding.2)
    (base : Nat) (made : List (List Instruction)) :
    ofBindings #[] base (made.map (List.map unnumbered))
        (bindings.map fun (slot, value) => (slot, value.unnumbered)) =
      List.map (List.map unnumbered) <$> ofBindings constants base made bindings := by
  induction bindings generalizing base made with
  | nil => exact congrArg Except.ok List.map_reverse.symm
  | cons binding rest inductionHypothesis =>
      obtain ⟨slot, value⟩ := binding
      have later := inductionHypothesis fun other member => each other (List.mem_cons_of_mem _ member)
      rw [List.map_cons, ofBindings, ofBindings, each _ List.mem_cons_self]
      simp only [map_bind, bind_map_left, Instruction.codeSize_unnumbered, ← later, List.map_cons,
        List.map_append, List.map_nil]
      rfl

theorem piecesSize_unnumbered (gap : Nat) (pieces : List (List Instruction)) :
    piecesSize gap (pieces.map (List.map unnumbered)) = piecesSize gap pieces := by
  induction pieces with
  | nil => rfl
  | cons piece rest inductionHypothesis =>
      rw [List.map_cons, piecesSize_cons, piecesSize_cons, inductionHypothesis,
        Instruction.codeSize_unnumbered]

theorem shortCircuit_unnumbered (stopAtTrue : Bool) (base : Nat) (pieces : List (List Instruction)) :
    shortCircuit stopAtTrue base (pieces.map (List.map unnumbered)) =
      (shortCircuit stopAtTrue base pieces).map unnumbered := by
  have test : (stopTest stopAtTrue).map unnumbered = stopTest stopAtTrue := by
    cases stopAtTrue <;> rfl
  simp only [shortCircuit_eq, stopOffset, piecesSize_unnumbered, List.map_append, List.flatMap_map,
    List.map_flatMap, test]
  rfl

theorem intersperse_unnumbered (between : List Instruction) (pieces : List (List Instruction)) :
    ((pieces.map (List.map unnumbered)).intersperse (between.map unnumbered)).flatten =
      (pieces.intersperse between).flatten.map unnumbered := by
  rw [List.map_flatten]
  congr 1
  induction pieces with
  | nil => rfl
  | cons piece rest inductionHypothesis =>
      cases rest with
      | nil => rfl
      | cons next others =>
          simp only [List.map_cons, List.intersperse_cons_cons] at inductionHypothesis ⊢
          rw [inductionHypothesis]

end Lists

/-- Nothing but the numbers in the code depends on the numbers in an expression. -/
theorem numbersOnly (expr : Expr) : NumbersOnly constants expr := by
  induction expr using Expr.partsInduction with
  | step expr each =>
      intro base
      cases expr with
      | number | boolean | nil | localSlot | field => rfl
      | string value =>
          exact congrArg (fun number => Except.ok [Instruction.pushConstant number]) (number_empty value)
      | arithmetic op operands =>
          cases operands with
          | nil => rfl
          | cons first rest =>
              have head := each first List.mem_cons_self
              have others := operands_unnumbered fun expr member =>
                each expr (List.mem_cons_of_mem first member)
              simp [Expr.unnumbered, ofExpr, head base, others, List.map_flatMap, List.flatMap_map,
                unnumbered]
      | negate operand | not operand | count operand =>
          have inner := each operand List.mem_cons_self
          simp [Expr.unnumbered, ofExpr, inner base, unnumbered]
      | equal left right | order _ left right =>
          have first := each left List.mem_cons_self
          have second := each right (List.mem_cons_of_mem _ List.mem_cons_self)
          simp [Expr.unnumbered, ofExpr, first base, second _, unnumbered]
      | conditional condition consequent alternative =>
          have first := each condition List.mem_cons_self
          have second := each consequent (List.mem_cons_of_mem _ List.mem_cons_self)
          have third := each alternative
            (List.mem_cons_of_mem _ (List.mem_cons_of_mem _ List.mem_cons_self))
          simp [Expr.unnumbered, ofExpr, first base, second _, third _, unnumbered]
      | conjunction operands | disjunction operands =>
          have pieces := @operands_unnumbered _ operands each
          simp [Expr.unnumbered, ofExpr, pieces, shortCircuit_unnumbered]
      | localBinding bindings body =>
          have stores := ofBindings_unnumbered (fun binding member =>
            each binding.2 (List.mem_append_left _ (List.mem_map.mpr ⟨binding, member, rfl⟩))) base []
          have pieces := @operands_unnumbered constants body fun expr member =>
            each expr (List.mem_append_right _ member)
          rw [List.map_nil] at stores
          simp only [Expr.unnumbered, unnumberedAll_eq_map, unnumberedBindings_eq_map, ofExpr, stores,
            bind_map_left, map_bind, piecesSize_unnumbered, pieces]
          refine congrArg _ (funext fun stored => congrArg _ (funext fun made => ?_))
          have joined := intersperse_unnumbered [.pop] made
          cases made with
          | nil => simp [unnumbered]
          | cons piece rest =>
              simp only [List.map_cons, List.map_nil, unnumbered] at joined
              simp [joined]
      | concat parts =>
          have pieces := @operands_unnumbered _ parts each
          simp [Expr.unnumbered, ofExpr, pieces, unnumbered]
      | print newline arguments =>
          have pieces := @operands_unnumbered _ arguments each
          have separated := intersperse_unnumbered
            [.pushConstant (constants.number Constants.separator)]
          simp only [List.map_cons, List.map_nil, unnumbered] at separated
          simp [Expr.unnumbered, ofExpr, pieces, separated, unnumbered, -List.map_flatten]

theorem ofStatements_unnumbered (base : Nat) (made : List (List Instruction))
    (statements : List Statement) :
    ofStatements #[] base (made.map (List.map unnumbered)) (statements.map Statement.unnumbered) =
      List.map (List.map unnumbered) <$> ofStatements constants base made statements := by
  induction statements generalizing base made with
  | nil => exact congrArg Except.ok List.map_reverse.symm
  | cons statement rest inductionHypothesis =>
      cases statement with
      | definition slot value =>
          rw [List.map_cons, Statement.unnumbered, ofStatements, ofStatements, numbersOnly value base]
          simp only [map_bind, bind_map_left, Instruction.codeSize_unnumbered, ← inductionHypothesis,
            List.map_cons, List.map_append, List.map_nil]
          rfl
      | expression value =>
          rw [List.map_cons, Statement.unnumbered, ofStatements, ofStatements, numbersOnly value base]
          simp only [map_bind, bind_map_left, List.isEmpty_map]
          refine congrArg _ (funext fun code => ?_)
          split
          · simp
          · rw [← inductionHypothesis, Instruction.codeSize_unnumbered]
            simp [unnumbered]

theorem ending_unnumbered (body : Body) : ending body.unnumbered = (ending body).map unnumbered := by
  unfold ending
  rw [Body.unnumbered, List.getLast?_map]
  cases body.result? <;> cases body.statements.getLast? <;> rfl

theorem ofBody_unnumbered (constants : Constants) (body : Body) :
    ofBody #[] body.unnumbered = List.map unnumbered <$> ofBody constants body := by
  have statements := @ofStatements_unnumbered constants 0 [] body.statements
  rw [List.map_nil] at statements
  unfold ofBody
  rw [ending_unnumbered, Body.unnumbered, statements, bind_map_left, map_bind, List.getLast?_map]
  refine congrArg _ (funext fun pieces => ?_)
  cases body.result? with
  | none => simp
  | some kind =>
      cases body.statements.getLast? with
      | none => simp
      | some last =>
          cases last with
          | definition slot value => rfl
          | expression value => simp [Statement.unnumbered]

end Code
end Lisp
end FragmentLisp
