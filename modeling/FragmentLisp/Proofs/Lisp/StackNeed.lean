import FragmentLisp.Proofs.Lisp.Layout

/-!
How much of the operand stack an expression needs, told by its form alone. An operand needs what it would
need by itself, on top of the values that wait below it. Operands that are consumed one by one wait for
nobody, those that are joined wait for all that follow them.
-/

namespace FragmentLisp
namespace Lisp

def largest (numbers : List Nat) : Nat :=
  numbers.max?.getD 0

/-- What values need that stay on the stack in turn: each stands above as many as came before it. -/
def stacked (needs : List Nat) : List Nat :=
  needs.mapIdx fun index need => index + need

mutual
/-- How many entries the stack holds at most, above those that it held before, while the code of an
expression runs. No code is made for arithmetic without operands. -/
def Expr.need : Expr → Nat
  | .number _ => 1
  | .boolean _ => 1
  | .string _ => 1
  | .nil => 1
  | .localSlot _ => 1
  | .field _ => 1
  | .arithmetic _ [] => 1
  | .arithmetic _ (first :: rest) => largest (first.need :: (needs rest).map (1 + ·))
  | .negate operand => operand.need
  | .equal left right => largest [left.need, 1 + right.need]
  | .order _ left right => largest [left.need, 1 + right.need]
  | .not operand => operand.need
  | .conjunction operands => largest (1 :: needs operands)
  | .disjunction operands => largest (1 :: needs operands)
  | .conditional condition consequent alternative =>
      largest [condition.need, consequent.need, alternative.need]
  | .localBinding bindings body =>
      largest (boundNeeds bindings ++ if body.isEmpty then [1] else needs body)
  | .concat parts => largest (1 :: stacked (needs parts))
  | .count operand => operand.need
  | .print _ arguments => largest (1 :: stacked ((needs arguments).intersperse 1))

def needs : List Expr → List Nat
  | [] => []
  | expr :: rest => expr.need :: needs rest

def boundNeeds : List (UInt16 × Expr) → List Nat
  | [] => []
  | (_, value) :: rest => value.need :: boundNeeds rest
end

/-- What the entry method of a body needs. Without statements it returns a nil. -/
def Body.need (body : Body) : Nat :=
  if body.statements.isEmpty then 1
  else largest (body.statements.map fun statement => statement.value.need)

/-- What the constructor of a type with these fields needs: the values are stored one by one. -/
def constructorNeed (fields : List Field) : Nat :=
  if fields.isEmpty then 0 else 1

theorem largest_mem {numbers : List Nat} (nonempty : numbers ≠ []) : largest numbers ∈ numbers := by
  obtain ⟨first, rest, rfl⟩ := List.exists_cons_of_ne_nil nonempty
  exact List.max?_mem rfl

theorem le_largest {numbers : List Nat} {number : Nat} (member : number ∈ numbers) :
    number ≤ largest numbers :=
  List.le_max?_getD_of_mem member

theorem add_largest_le {height peak : Nat} {numbers : List Nat}
    (room : height + largest numbers ≤ peak) : ∀ number ∈ numbers, height + number ≤ peak :=
  fun _ member => Nat.le_trans (Nat.add_le_add_left (le_largest member) height) room

theorem stacked_cons (need : Nat) (rest : List Nat) :
    stacked (need :: rest) = need :: (stacked rest).map (1 + ·) := by
  rw [stacked, List.mapIdx_cons, Nat.zero_add]
  congr 1
  apply List.ext_getElem?
  intro index
  simp only [stacked, List.getElem?_map, List.getElem?_mapIdx, Option.map_map]
  congr 1
  funext other
  exact (Nat.add_right_comm index 1 other).trans (Nat.add_comm _ 1)

theorem needs_eq (exprs : List Expr) : needs exprs = exprs.map Expr.need := by
  induction exprs with
  | nil => rfl
  | cons expr rest inductionHypothesis => rw [needs, inductionHypothesis, List.map_cons]

/-- Between two operands one more value is pushed, on which all later ones stand too. -/
theorem stacked_separated (expr next : Expr) (more : List Expr) :
    stacked ((needs (expr :: next :: more)).intersperse 1) =
      expr.need :: 2 :: (stacked ((needs (next :: more)).intersperse 1)).map (2 + ·) := by
  rw [needs, needs, List.intersperse_cons_cons, ← needs, stacked_cons, stacked_cons, List.map_cons,
    List.map_map]
  congr 3
  funext need
  exact (Nat.add_assoc 1 1 need).symm

theorem boundNeeds_eq (bindings : List (UInt16 × Expr)) :
    boundNeeds bindings = bindings.map fun binding => binding.2.need := by
  induction bindings with
  | nil => rfl
  | cons binding rest inductionHypothesis =>
      rw [boundNeeds, inductionHypothesis, List.map_cons]

/-- What a local binding needs is what its statements need, or a nil where it has no body. -/
theorem Expr.need_localBinding (bindings : List (UInt16 × Expr)) (body : List Expr) :
    (Expr.localBinding bindings body).need =
      largest (((bindingSteps bindings body).map fun statement => statement.value.need) ++
        if body.isEmpty then [1] else []) := by
  rw [Expr.need, boundNeeds_eq, needs_eq, bindingSteps, List.map_append, List.map_map, List.map_map,
    List.append_assoc]
  congr 2
  cases body <;> simp [Statement.value]

/-- Every expression leaves a value, for which there must be room. -/
theorem Expr.need_positive (expr : Expr) : 0 < expr.need := by
  induction expr using Expr.partsInduction with
  | step expr partsHypothesis =>
      have of_part : ∀ {numbers : List Nat} {part : Expr}, part ∈ expr.parts →
          part.need ∈ numbers → 0 < largest numbers := fun inside member =>
        Nat.lt_of_lt_of_le (partsHypothesis _ inside) (le_largest member)
      have of_one : ∀ {numbers : List Nat}, 1 ∈ numbers → 0 < largest numbers := le_largest
      cases expr with
      | arithmetic op operands =>
          cases operands with
          | nil => exact Nat.one_pos
          | cons first rest => exact of_part List.mem_cons_self List.mem_cons_self
      | negate operand | not operand | count operand =>
          rw [need]
          exact partsHypothesis operand List.mem_cons_self
      | equal left right | order op left right =>
          exact of_part List.mem_cons_self List.mem_cons_self
      | conditional condition consequent alternative =>
          exact of_part List.mem_cons_self List.mem_cons_self
      | conjunction | disjunction | concat | print => exact of_one List.mem_cons_self
      | localBinding bindings body =>
          cases body with
          | nil => exact of_one (List.mem_append_right _ List.mem_cons_self)
          | cons first rest =>
              exact of_part (List.mem_append_right _ List.mem_cons_self)
                (List.mem_append_right _ List.mem_cons_self)
      | _ => exact Nat.one_pos

theorem Body.le_need {body : Body} {statement : Statement} (member : statement ∈ body.statements) :
    statement.value.need ≤ body.need := by
  have nonempty : ¬ body.statements.isEmpty = true := by
    rw [List.isEmpty_iff]
    exact List.ne_nil_of_mem member
  rw [Body.need, if_neg nonempty]
  exact le_largest (List.mem_map_of_mem member)

theorem Body.need_positive (body : Body) : 0 < body.need := by
  cases listed : body.statements with
  | nil => simp [Body.need, listed]
  | cons statement rest =>
      have member : statement ∈ body.statements := listed ▸ List.mem_cons_self
      exact Nat.lt_of_lt_of_le statement.value.need_positive (Body.le_need member)

theorem constructorNeed_le (fields : List Field) : constructorNeed fields ≤ 1 := by
  unfold constructorNeed
  split <;> decide

end Lisp
end FragmentLisp
