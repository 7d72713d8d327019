import FragmentLisp.Proofs.Lisp.Layout

/-!
Occurrences of expressions in the code of a body: where the code of each stands, and what is known there
of the values in the local slots. The slots in use are numbered from 0, and a binding takes the next one.
-/

namespace FragmentLisp
namespace Lisp

mutual
def Expr.kind (fieldKinds kinds : List Kind) : Expr → Kind
  | .number _ => .number
  | .boolean _ => .boolean
  | .string _ => .string
  | .nil => .nil
  | .localSlot slot => kinds[slot.toNat]?.getD .any
  | .field index => fieldKinds[index.toNat]?.getD .any
  | .arithmetic _ _ => .number
  | .negate _ => .number
  | .equal _ _ => .boolean
  | .order _ _ _ => .boolean
  | .not _ => .boolean
  | .conjunction _ => .boolean
  | .disjunction _ => .boolean
  | .conditional _ consequent alternative =>
      (consequent.kind fieldKinds kinds).join (alternative.kind fieldKinds kinds)
  | .localBinding bindings body =>
      lastKind fieldKinds (boundKinds fieldKinds kinds bindings) .nil body
  | .concat _ => .string
  | .count _ => .number
  | .print _ _ => .nil

def boundKinds (fieldKinds kinds : List Kind) : List (UInt16 × Expr) → List Kind
  | [] => kinds
  | (_, value) :: rest => boundKinds fieldKinds (kinds ++ [value.kind fieldKinds kinds]) rest

def lastKind (fieldKinds kinds : List Kind) (last : Kind) : List Expr → Kind
  | [] => last
  | expr :: rest => lastKind fieldKinds kinds (expr.kind fieldKinds kinds) rest
end

/-- An expression at a place of the code, with the kinds of the slots that are in use there. -/
structure Occurrence where
  kinds : List Kind
  base : Nat
  expr : Expr

namespace Occurrence

def kind (fieldKinds : List Kind) (occurrence : Occurrence) : Kind :=
  occurrence.expr.kind fieldKinds occurrence.kinds

def finish (occurrence : Occurrence) : Nat :=
  occurrence.base + occurrence.expr.width

theorem base_lt_finish (occurrence : Occurrence) : occurrence.base < occurrence.finish := by
  have positive := occurrence.expr.width_positive
  unfold finish
  omega

def inTurn (kinds : List Kind) (gap : Nat) : Nat → List Expr → List Occurrence
  | _, [] => []
  | base, expr :: rest =>
      { kinds, base, expr } :: inTurn kinds gap (base + expr.width + gap) rest

/-- The values of statements in turn. A definition adds a slot for the statements after it. -/
def inSequence (fieldKinds : List Kind) :
    List Kind → Nat → List Statement → List Occurrence
  | _, _, [] => []
  | kinds, base, .definition _ value :: rest =>
      { kinds, base, expr := value } ::
        inSequence fieldKinds (kinds ++ [value.kind fieldKinds kinds]) (base + value.width + 3) rest
  | kinds, base, .expression value :: rest =>
      { kinds, base, expr := value } ::
        inSequence fieldKinds kinds (base + value.width + 1) rest

def gap : Expr → Nat
  | .conjunction _ => 5
  | .disjunction _ => 6
  | .conditional _ _ _ => 5
  | .print _ _ => 5
  | _ => 0

def children (fieldKinds : List Kind) (occurrence : Occurrence) : List Occurrence :=
  match occurrence with
  | { kinds, base, expr := .arithmetic _ (first :: rest) } =>
      { kinds, base, expr := first } :: inTurn kinds 1 (base + first.width) rest
  | { kinds, base, expr := .localBinding bindings body } =>
      inSequence fieldKinds kinds base (bindingSteps bindings body)
  | { kinds, base, expr } => inTurn kinds (gap expr) base expr.parts

theorem mem_inTurn {kinds : List Kind} {gap base : Nat} {exprs : List Expr} {child : Occurrence}
    (member : child ∈ inTurn kinds gap base exprs) :
    child.kinds = kinds ∧ base ≤ child.base ∧ child.expr ∈ exprs ∧
      child.finish + gap ≤ base + widthAll gap exprs := by
  induction exprs generalizing base with
  | nil => simp [inTurn] at member
  | cons expr rest inductionHypothesis =>
      rw [widthAll]
      rcases List.mem_cons.mp member with rfl | later
      · refine ⟨rfl, Nat.le_refl _, List.mem_cons_self, ?_⟩
        simp only [finish]
        omega
      · obtain ⟨same, above, inside, below⟩ := inductionHypothesis later
        exact ⟨same, by omega, List.mem_cons_of_mem _ inside, by omega⟩

theorem mem_inSequence {fieldKinds kinds : List Kind} {base : Nat} {statements : List Statement}
    {child : Occurrence} (member : child ∈ inSequence fieldKinds kinds base statements) :
    base ≤ child.base ∧ (child.base = base → child.kinds = kinds) ∧
      (∃ statement ∈ statements, statement.value = child.expr) ∧
      child.finish ≤ base + Code.widthSteps statements := by
  induction statements generalizing kinds base with
  | nil => simp [inSequence] at member
  | cons statement rest inductionHypothesis =>
      cases statement with
      | definition slot value =>
          rcases List.mem_cons.mp member with rfl | later
          · refine ⟨Nat.le_refl _, fun _ => rfl, ⟨_, List.mem_cons_self, rfl⟩, ?_⟩
            simp only [finish, Code.widthSteps]
            omega
          · obtain ⟨above, _, ⟨other, inside, same⟩, below⟩ := inductionHypothesis later
            refine ⟨by omega, fun equal => by omega,
              ⟨other, List.mem_cons_of_mem _ inside, same⟩, ?_⟩
            simp only [Code.widthSteps]
            omega
      | expression value =>
          rcases List.mem_cons.mp member with rfl | later
          · refine ⟨Nat.le_refl _, fun _ => rfl, ⟨_, List.mem_cons_self, rfl⟩, ?_⟩
            cases rest <;> simp only [finish, Code.widthSteps] <;> omega
          · obtain ⟨above, _, ⟨other, inside, same⟩, below⟩ := inductionHypothesis later
            refine ⟨by omega, fun equal => by omega,
              ⟨other, List.mem_cons_of_mem _ inside, same⟩, ?_⟩
            cases rest with
            | nil => simp at inside
            | cons next others =>
                simp only [Code.widthSteps]
                omega

theorem widthAll_parts (expr : Expr) (ordinary : ∀ op operands, expr ≠ .arithmetic op operands)
    (unbound : ∀ bindings body, expr ≠ .localBinding bindings body) :
    widthAll (gap expr) expr.parts ≤ expr.width + gap expr := by
  cases expr with
  | arithmetic op operands => exact absurd rfl (ordinary op operands)
  | localBinding bindings body => exact absurd rfl (unbound bindings body)
  | _ =>
      simp only [Expr.parts, Expr.width, widthAll, gap]
      omega

/-- The code of a child stands within the code of its parent, and the slots in use at the parent's first
byte are in use in a child that begins there. -/
theorem child_within {fieldKinds : List Kind} {parent child : Occurrence}
    (member : child ∈ parent.children fieldKinds) :
    parent.base ≤ child.base ∧ child.finish ≤ parent.finish ∧
      (child.base = parent.base → child.kinds = parent.kinds) ∧
      child.expr ∈ parent.expr.parts := by
  unfold children at member
  split at member
  · rename_i kinds base op first rest
    rcases List.mem_cons.mp member with rfl | later
    · refine ⟨Nat.le_refl _, ?_, fun _ => rfl, List.mem_cons_self⟩
      simp only [finish, Expr.width]
      omega
    · obtain ⟨same, above, inside, below⟩ := mem_inTurn later
      refine ⟨Nat.le_trans (Nat.le_add_right _ _) above, ?_, fun _ => same,
        List.mem_cons_of_mem _ inside⟩
      simp only [finish, Expr.width] at below ⊢
      omega
  · rename_i kinds base bindings body
    obtain ⟨above, same, ⟨statement, inside, value⟩, below⟩ := mem_inSequence member
    refine ⟨above, ?_, same, value ▸ Code.mem_bindingSteps inside⟩
    rw [Code.widthSteps_bindingSteps] at below
    simp only [finish, Expr.width] at below ⊢
    cases body with
    | nil =>
        simp only [widthAll] at below
        simp only [List.isEmpty_nil, if_true]
        omega
    | cons first rest =>
        simp only [List.isEmpty_cons, Bool.false_eq_true, if_false]
        exact below
  · rename_i kinds base expr ordinary unbound
    obtain ⟨same, above, inside, below⟩ := mem_inTurn member
    refine ⟨above, ?_, fun _ => same, inside⟩
    have nonempty : ∀ op operands, expr ≠ .arithmetic op operands := by
      rintro op operands rfl
      cases operands with
      | nil => simp [Expr.parts] at inside
      | cons first rest => exact ordinary _ _ _ rfl
    have width := widthAll_parts expr nonempty fun bindings body same => by
      subst same
      exact unbound _ _ rfl
    simp only [finish] at below ⊢
    omega

theorem inTurn_exprs (kinds : List Kind) (gap base : Nat) (exprs : List Expr) :
    (inTurn kinds gap base exprs).map expr = exprs := by
  induction exprs generalizing base with
  | nil => rfl
  | cons expr rest inductionHypothesis => rw [inTurn, List.map_cons, inductionHypothesis]

theorem inSequence_exprs (fieldKinds kinds : List Kind) (base : Nat)
    (statements : List Statement) :
    (inSequence fieldKinds kinds base statements).map expr = statements.map Statement.value := by
  induction statements generalizing kinds base with
  | nil => rfl
  | cons statement rest inductionHypothesis =>
      cases statement with
      | definition slot value =>
          rw [inSequence, List.map_cons, List.map_cons, inductionHypothesis]
          rfl
      | expression value =>
          rw [inSequence, List.map_cons, List.map_cons, inductionHypothesis]
          rfl

theorem children_exprs (fieldKinds : List Kind) (parent : Occurrence) :
    (parent.children fieldKinds).map expr = parent.expr.parts := by
  unfold children
  split
  · rename_i kinds base op first rest
    rw [List.map_cons, inTurn_exprs]
    rfl
  · rename_i kinds base bindings body
    rw [inSequence_exprs, bindingSteps, List.map_append, List.map_map, List.map_map]
    exact congrArg (bindings.map Prod.snd ++ ·) (List.map_id body)
  · exact inTurn_exprs _ _ _ _

theorem inTurn_apart (kinds : List Kind) (gap base : Nat) (exprs : List Expr) :
    (inTurn kinds gap base exprs).Pairwise
      fun earlier later => earlier.finish + gap ≤ later.base := by
  induction exprs generalizing base with
  | nil => exact .nil
  | cons expr rest inductionHypothesis =>
      refine .cons ?_ (inductionHypothesis _)
      intro later member
      exact (mem_inTurn member).2.1

theorem inSequence_apart (fieldKinds kinds : List Kind) (base : Nat)
    (statements : List Statement) :
    (inSequence fieldKinds kinds base statements).Pairwise
      fun earlier later => earlier.finish + 1 ≤ later.base := by
  induction statements generalizing kinds base with
  | nil => exact .nil
  | cons statement rest inductionHypothesis =>
      cases statement with
      | definition slot value =>
          refine .cons ?_ (inductionHypothesis _ _)
          intro later member
          have above := (mem_inSequence member).1
          simp only [finish]
          omega
      | expression value =>
          refine .cons ?_ (inductionHypothesis _ _)
          intro later member
          exact (mem_inSequence member).1

/-- The code of one child ends before that of the next begins. -/
theorem children_apart (fieldKinds : List Kind) (parent : Occurrence) :
    (parent.children fieldKinds).Pairwise fun earlier later => earlier.finish ≤ later.base := by
  unfold children
  split
  · refine .cons ?_ ((inTurn_apart _ _ _ _).imp fun apart => by omega)
    intro later member
    exact (mem_inTurn member).2.1
  · exact (inSequence_apart _ _ _ _).imp fun apart => by omega
  · exact (inTurn_apart _ _ _ _).imp fun apart => by omega

theorem eq_or_apart {gap : Nat} {occurrences : List Occurrence} {left right : Occurrence}
    (apart : occurrences.Pairwise fun earlier later => earlier.finish + gap ≤ later.base)
    (leftMember : left ∈ occurrences) (rightMember : right ∈ occurrences) :
    left = right ∨ left.finish + gap ≤ right.base ∨ right.finish + gap ≤ left.base := by
  induction apart with
  | nil => simp at leftMember
  | cons first rest inductionHypothesis =>
      rcases List.mem_cons.mp leftMember with rfl | leftLater
      · rcases List.mem_cons.mp rightMember with rfl | rightLater
        · exact Or.inl rfl
        · exact Or.inr (Or.inl (first right rightLater))
      · rcases List.mem_cons.mp rightMember with rfl | rightLater
        · exact Or.inr (Or.inr (first left leftLater))
        · exact inductionHypothesis leftLater rightLater

/-- The bytes that follow the code of an occurrence are in the code of none. -/
theorem free_behind {gap offset : Nat} {occurrences : List Occurrence} {child other : Occurrence}
    (apart : occurrences.Pairwise fun earlier later => earlier.finish + gap ≤ later.base)
    (member : child ∈ occurrences) (otherMember : other ∈ occurrences)
    (behind : child.finish ≤ offset) (before : offset < child.finish + gap) :
    other.finish ≤ offset ∨ offset < other.base := by
  have positive := child.base_lt_finish
  rcases eq_or_apart apart member otherMember with rfl | later | earlier
  · exact Or.inl behind
  · exact Or.inr (by omega)
  · exact Or.inl (by omega)

/-- What holds of an occurrence whenever it holds of its children holds of all occurrences. -/
theorem childInduction (fieldKinds : List Kind) {motive : Occurrence → Prop}
    (step : ∀ occurrence, (∀ child ∈ occurrence.children fieldKinds, motive child) →
      motive occurrence) (occurrence : Occurrence) : motive occurrence :=
  step occurrence fun child _ => childInduction fieldKinds step child
termination_by sizeOf occurrence.expr
decreasing_by exact Expr.sizeOf_parts (child_within ‹_›).2.2.2

inductive Occurs (fieldKinds : List Kind) (outer : Occurrence) : Occurrence → Prop
  | self : Occurs fieldKinds outer outer
  | child {middle inner : Occurrence} (within : Occurs fieldKinds outer middle)
      (member : inner ∈ middle.children fieldKinds) : Occurs fieldKinds outer inner

theorem Occurs.trans {fieldKinds : List Kind} {outer middle inner : Occurrence}
    (first : Occurs fieldKinds outer middle) (second : Occurs fieldKinds middle inner) :
    Occurs fieldKinds outer inner := by
  induction second with
  | self => exact first
  | child _ member inductionHypothesis => exact .child inductionHypothesis member

/-- What stands in an occurrence is the occurrence or stands in one of its children. -/
theorem Occurs.cases_first {fieldKinds : List Kind} {outer inner : Occurrence}
    (occurs : Occurs fieldKinds outer inner) :
    inner = outer ∨ ∃ child ∈ outer.children fieldKinds, Occurs fieldKinds child inner := by
  induction occurs with
  | self => exact Or.inl rfl
  | child _ member inductionHypothesis =>
      rcases inductionHypothesis with rfl | ⟨first, firstMember, below⟩
      · exact Or.inr ⟨_, member, .self⟩
      · exact Or.inr ⟨first, firstMember, .child below member⟩

theorem Occurs.within {fieldKinds : List Kind} {outer inner : Occurrence}
    (occurs : Occurs fieldKinds outer inner) :
    outer.base ≤ inner.base ∧ inner.finish ≤ outer.finish := by
  induction occurs with
  | self => exact ⟨Nat.le_refl _, Nat.le_refl _⟩
  | child _ member inductionHypothesis =>
      obtain ⟨above, below, _, _⟩ := child_within member
      omega

/-- A byte of an occurrence that is in the code of none of its children. -/
structure Owns (fieldKinds : List Kind) (occurrence : Occurrence) (offset : Nat) : Prop where
  above : occurrence.base ≤ offset
  below : offset < occurrence.finish
  free : ∀ child ∈ occurrence.children fieldKinds, child.finish ≤ offset ∨ offset < child.base

theorem owns_behind {fieldKinds : List Kind} {parent child : Occurrence} {offset : Nat}
    (member : child ∈ parent.children fieldKinds) (behind : child.finish ≤ offset)
    (below : offset < parent.finish)
    (free : ∀ other ∈ parent.children fieldKinds, other.finish ≤ offset ∨ offset < other.base) :
    parent.Owns fieldKinds offset := by
  have bounds := child_within member
  have positive := child.base_lt_finish
  exact ⟨by omega, below, free⟩

end Occurrence

def Expr.demand? : Expr → Option Kind
  | .arithmetic _ _ => some .number
  | .negate _ => some .number
  | .order _ _ _ => some .number
  | .count _ => some .string
  | _ => none

/-- Definitions take the slots from a number on, one after another, and stay below the last one. -/
def Numbered (slots : Nat) : Nat → List Statement → Prop
  | _, [] => True
  | next, .definition slot _ :: rest =>
      slot.toNat = next ∧ next < slots ∧ Numbered slots (next + 1) rest
  | next, .expression _ :: rest => Numbered slots next rest

theorem Numbered.more {slots more next : Nat} {statements : List Statement}
    (numbered : Numbered slots next statements) (le : slots ≤ more) :
    Numbered more next statements := by
  induction statements generalizing next with
  | nil => trivial
  | cons statement rest inductionHypothesis =>
      cases statement with
      | definition slot value =>
          exact ⟨numbered.1, Nat.lt_of_lt_of_le numbered.2.1 le, inductionHypothesis numbered.2.2⟩
      | expression value => exact inductionHypothesis numbered

namespace Occurrence

/-- What resolution promises of an expression where it stands, apart from what is inside its operands:
names lead to slots and fields that are in use, and operands have kinds that may do. -/
structure Fine (fieldKinds : List Kind) (slots : Nat) (occurrence : Occurrence) : Prop where
  room : occurrence.kinds.length ≤ slots
  localSlot : ∀ slot, occurrence.expr = .localSlot slot → slot.toNat < occurrence.kinds.length
  field : ∀ index, occurrence.expr = .field index → index.toNat < fieldKinds.length
  several : ∀ op operands, occurrence.expr = .arithmetic op operands → 2 ≤ operands.length
  operands : ∀ wanted, occurrence.expr.demand? = some wanted →
    ∀ child ∈ occurrence.children fieldKinds, (child.kind fieldKinds).admits wanted = true
  numbered : ∀ bindings body, occurrence.expr = .localBinding bindings body →
    Numbered slots occurrence.kinds.length (bindingSteps bindings body)

def Settled (fieldKinds : List Kind) (slots : Nat) (occurrence : Occurrence) : Prop :=
  ∀ inner, Occurs fieldKinds occurrence inner → Fine fieldKinds slots inner

theorem Settled.child {fieldKinds : List Kind} {slots : Nat} {parent child : Occurrence}
    (settled : Settled fieldKinds slots parent) (member : child ∈ parent.children fieldKinds) :
    Settled fieldKinds slots child :=
  fun inner below => settled inner ((Occurs.child .self member).trans below)

end Occurrence

def Expr.literal? : Expr → Option String
  | .string text => some text
  | .print _ _ => some Constants.separator
  | _ => none

def Pooled (fieldKinds : List Kind) (constants : Constants) (occurrence : Occurrence) : Prop :=
  ∀ inner, Occurrence.Occurs fieldKinds occurrence inner →
    ∀ text, inner.expr.literal? = some text → text ∈ constants

theorem Pooled.child {fieldKinds : List Kind} {constants : Constants} {parent child : Occurrence}
    (pooled : Pooled fieldKinds constants parent) (member : child ∈ parent.children fieldKinds) :
    Pooled fieldKinds constants child :=
  fun inner below => pooled inner ((Occurrence.Occurs.child .self member).trans below)

theorem constant_at_number {constants : Constants} {text : String} (member : text ∈ constants)
    (small : constants.size < 2 ^ 32) :
    constants[(constants.number text).toNat]? = some text := by
  obtain ⟨texts⟩ := constants
  cases found : texts.idxOf? text with
  | none => exact absurd member (by simpa using found)
  | some index =>
      obtain ⟨inside, same, _⟩ := List.idxOf?_eq_some_iff.mp found
      have below : index < 2 ^ 32 := Nat.lt_trans inside small
      have number : (Constants.number texts.toArray text).toNat = index := by
        simp only [Constants.number, List.idxOf?_toArray, found, Option.getD_some]
        exact UInt32.toNat_ofNat_of_lt' below
      rw [number, List.getElem?_toArray, List.getElem?_eq_getElem inside, same]

end Lisp
end FragmentLisp
