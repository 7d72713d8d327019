import FragmentLisp.Proofs.Lisp.Occurrence
import FragmentLisp.Proofs.Lisp.Operation

/-!
Expressions with slots evaluated without code. The evaluation reads fields, keeps local slots and
gathers what is printed; a fault ends it. It respects kinds: where the slots in use hold values of their
kinds, an expression gives a value of its own kind and leaves those slots alone.
-/

namespace FragmentLisp
namespace Lisp

/-- What an evaluation changes. -/
structure Store where
  locals : Array Value
  output : String

namespace Store

def assign (store : Store) (slot : UInt16) (value : Value) : Except Fault Store :=
  if slot.toNat < store.locals.size then
    .ok { store with locals := store.locals.setIfInBounds slot.toNat value }
  else
    .error (.invalidLocal slot)

def print (store : Store) (text : String) : Store :=
  { store with output := store.output ++ text }

end Store

section Evaluation

variable (fields : Array Value)

mutual
/-- The value of an expression, and the store behind it. -/
def Expr.evaluate (store : Store) : Expr → Except Fault (Value × Store)
  | .number value => .ok (.integer value, store)
  | .boolean value => .ok (.boolean value, store)
  | .string value => .ok (.string value, store)
  | .nil => .ok (.nil, store)
  | .localSlot slot =>
      match store.locals[slot.toNat]? with
      | some value => .ok (value, store)
      | none => .error (.invalidLocal slot)
  | .field index =>
      match fields[index.toNat]? with
      | some value => .ok (value, store)
      | none => .error (.invalidField index)
  | .arithmetic op operands => evaluateFold op none store operands
  | .negate operand => do
      let (value, store) ← operand.evaluate store
      let result ← Operation.negate value
      return (result, store)
  | .equal left right => do
      let (left, store) ← left.evaluate store
      let (right, store) ← right.evaluate store
      return (.boolean (decide (left = right)), store)
  | .order op left right => do
      let (left, store) ← left.evaluate store
      let (right, store) ← right.evaluate store
      let result ← Operation.compare op left right
      return (result, store)
  | .not operand => do
      let (value, store) ← operand.evaluate store
      return (.boolean !value.isTruthy, store)
  | .conjunction operands => evaluateUntil false store operands
  | .disjunction operands => evaluateUntil true store operands
  | .conditional condition consequent alternative => do
      let (value, store) ← condition.evaluate store
      if value.isTruthy then consequent.evaluate store else alternative.evaluate store
  | .localBinding bindings body => do
      let store ← evaluateBindings store bindings
      evaluateLast .nil store body
  | .concat parts => do
      let (values, store) ← evaluateAll store parts
      return (.string (Operation.join values), store)
  | .count operand => do
      let (value, store) ← operand.evaluate store
      let result ← Operation.count value
      return (result, store)
  | .print newline arguments => do
      let (values, store) ← evaluateAll store arguments
      return (.nil, store.print (Operation.printed newline values))

def evaluateFold (op : ArithmeticOp) (result? : Option Value) (store : Store) :
    List Expr → Except Fault (Value × Store)
  | [] => .ok (result?.getD .nil, store)
  | operand :: rest => do
      let (value, store) ← operand.evaluate store
      match result? with
      | none => evaluateFold op (some value) store rest
      | some result => do
          let next ← Operation.combine op result value
          evaluateFold op (some next) store rest

def evaluateUntil (stopAtTrue : Bool) (store : Store) :
    List Expr → Except Fault (Value × Store)
  | [] => .ok (.boolean !stopAtTrue, store)
  | operand :: rest => do
      let (value, store) ← operand.evaluate store
      if value.isTruthy = stopAtTrue then return (.boolean stopAtTrue, store)
      else evaluateUntil stopAtTrue store rest

def evaluateAll (store : Store) : List Expr → Except Fault (List Value × Store)
  | [] => .ok ([], store)
  | expr :: rest => do
      let (value, store) ← expr.evaluate store
      let (values, store) ← evaluateAll store rest
      return (value :: values, store)

def evaluateBindings (store : Store) : List (UInt16 × Expr) → Except Fault Store
  | [] => .ok store
  | (slot, value) :: rest => do
      let (value, store) ← value.evaluate store
      let store ← store.assign slot value
      evaluateBindings store rest

/-- The value of the last form, or the given one without forms. -/
def evaluateLast (last : Value) (store : Store) : List Expr → Except Fault (Value × Store)
  | [] => .ok (last, store)
  | expr :: rest => do
      let (value, store) ← expr.evaluate store
      evaluateLast value store rest
end

def evaluateStatements (last? : Option Value) (store : Store) :
    List Statement → Except Fault (Option Value × Store)
  | [] => .ok (last?, store)
  | .definition slot value :: rest => do
      let (value, store) ← value.evaluate fields store
      let store ← store.assign slot value
      evaluateStatements none store rest
  | .expression value :: rest => do
      let (value, store) ← value.evaluate fields store
      evaluateStatements (some value) store rest

theorem evaluateAll_length {store after : Store} {exprs : List Expr} {values : List Value}
    (evaluated : evaluateAll fields store exprs = .ok (values, after)) :
    values.length = exprs.length := by
  induction exprs generalizing store values with
  | nil =>
      rw [evaluateAll] at evaluated
      obtain ⟨rfl, _⟩ := Prod.mk.inj (Except.ok.inj evaluated)
      rfl
  | cons expr rest inductionHypothesis =>
      rw [evaluateAll] at evaluated
      obtain ⟨⟨value, middle⟩, _, later⟩ := bind_eq_ok.mp evaluated
      obtain ⟨⟨more, last⟩, others, result⟩ := bind_eq_ok.mp later
      obtain ⟨rfl, rfl⟩ := Prod.mk.inj (Except.ok.inj result)
      rw [List.length_cons, List.length_cons, inductionHypothesis others]

/-! A local binding is the statements that it is made of. -/

theorem evaluateStatements_expressions (last? : Option Value) (store : Store) (body : List Expr) :
    (evaluateStatements fields last? store (body.map .expression)).map
        (fun result => (result.1.getD .nil, result.2)) =
      evaluateLast fields (last?.getD .nil) store body := by
  induction body generalizing last? store with
  | nil => rfl
  | cons expr rest inductionHypothesis =>
      rw [List.map_cons, evaluateStatements, evaluateLast]
      cases expr.evaluate fields store with
      | error fault => rfl
      | ok result => exact inductionHypothesis (some result.1) result.2

theorem evaluate_localBinding (store : Store) (bindings : List (UInt16 × Expr))
    (body : List Expr) :
    (Expr.localBinding bindings body).evaluate fields store =
      (evaluateStatements fields none store (bindingSteps bindings body)).map
        fun result => (result.1.getD .nil, result.2) := by
  rw [Expr.evaluate]
  unfold bindingSteps
  induction bindings generalizing store with
  | nil => exact (evaluateStatements_expressions fields none store body).symm
  | cons binding rest inductionHypothesis =>
      obtain ⟨slot, value⟩ := binding
      rw [List.map_cons, List.cons_append, evaluateStatements, evaluateBindings]
      cases value.evaluate fields store with
      | error fault => rfl
      | ok result =>
          cases assigned : result.2.assign slot result.1 with
          | error fault => simp [bind, Except.bind, assigned, Except.map]
          | ok next => simpa [bind, Except.bind, assigned] using inductionHypothesis next

end Evaluation

/-! Kinds of values. -/

/-- A value is one of those that a kind stands for. -/
def Covers (kind : Kind) (value : Value) : Prop :=
  kind = .any ∨ kind = Kind.ofValue value

/-- Values have the kinds that are known of them, one by one. -/
def Conforms (kinds : List Kind) (values : Array Value) : Prop :=
  ∀ (index : Nat) (kind : Kind), kinds[index]? = some kind →
    ∃ value, values[index]? = some value ∧ Covers kind value

theorem conforms_nil (values : Array Value) : Conforms [] values := by
  intro index kind known
  simp at known

/-- The first slots have the values that they had. -/
structure Kept (live : Nat) (before after : Store) : Prop where
  size : after.locals.size = before.locals.size
  slots : ∀ slot : Nat, slot < live → after.locals[slot]? = before.locals[slot]?

theorem Kept.refl (live : Nat) (store : Store) : Kept live store store :=
  ⟨rfl, fun _ _ => rfl⟩

theorem Kept.trans {live : Nat} {first second third : Store} (left : Kept live first second)
    (right : Kept live second third) : Kept live first third :=
  ⟨right.size.trans left.size,
    fun slot below => (right.slots slot below).trans (left.slots slot below)⟩

theorem Kept.fewer {more live : Nat} {before after : Store} (kept : Kept more before after)
    (fewer : live ≤ more) : Kept live before after :=
  ⟨kept.size, fun slot below => kept.slots slot (Nat.lt_of_lt_of_le below fewer)⟩

theorem Kept.conforms {kinds : List Kind} {before after : Store}
    (kept : Kept kinds.length before after) (conforms : Conforms kinds before.locals) :
    Conforms kinds after.locals := by
  intro index kind known
  obtain ⟨inside, _⟩ := List.getElem?_eq_some_iff.mp known
  rw [kept.slots index inside]
  exact conforms index kind known

theorem covers_any (value : Value) : Covers .any value :=
  Or.inl rfl

theorem Covers.join_left {left right : Kind} {value : Value} (covers : Covers left value) :
    Covers (left.join right) value := by
  unfold Kind.join
  split
  · exact covers
  · exact covers_any value

theorem Covers.join_right {left right : Kind} {value : Value} (covers : Covers right value) :
    Covers (left.join right) value := by
  unfold Kind.join
  split
  · rename_i same
    rw [same]
    exact covers
  · exact covers_any value

theorem assign_next {kinds : List Kind} {kind : Kind} {slot : UInt16} {value : Value}
    {store after : Store} (conforms : Conforms kinds store.locals) (next : slot.toNat = kinds.length)
    (covers : Covers kind value) (assigned : store.assign slot value = .ok after) :
    Conforms (kinds ++ [kind]) after.locals ∧ Kept kinds.length store after := by
  unfold Store.assign at assigned
  split at assigned
  · rename_i inside
    obtain rfl := Except.ok.inj assigned
    constructor
    · intro index other known
      by_cases last : index = kinds.length
      · subst last
        obtain rfl : kind = other := by simpa using known
        exact ⟨value, by simp [next ▸ inside, next], covers⟩
      · have different : slot.toNat ≠ index := by omega
        have within : index < kinds.length := by
          have bound := (List.getElem?_eq_some_iff.mp known).1
          rw [List.length_append, List.length_singleton] at bound
          omega
        rw [List.getElem?_append_left within] at known
        simpa [different] using conforms index other known
    · refine ⟨by simp, ?_⟩
      intro index below
      have different : slot.toNat ≠ index := by omega
      simp [different]
  · simp at assigned

/-! Evaluation respects kinds. -/

/-- Where the slots in use conform, the expression gives values of its kind and leaves these slots. -/
def RespectsKinds (fieldKinds : List Kind) (slots : Nat) (fields : Array Value)
    (occurrence : Occurrence) : Prop :=
  ∀ store, Conforms occurrence.kinds store.locals → store.locals.size = slots →
    ∀ value after, occurrence.expr.evaluate fields store = .ok (value, after) →
      Covers (occurrence.kind fieldKinds) value ∧ Kept occurrence.kinds.length store after

section Soundness

open Occurrence (inTurn inSequence Settled Fine)

variable {fieldKinds : List Kind} {slots : Nat} {fields : Array Value}

theorem evaluateAll_respects {kinds : List Kind} {gap base : Nat} {exprs : List Expr}
    (each : ∀ child ∈ inTurn kinds gap base exprs, RespectsKinds fieldKinds slots fields child)
    {store after : Store} (conforms : Conforms kinds store.locals)
    (sized : store.locals.size = slots) {values : List Value}
    (evaluated : evaluateAll fields store exprs = .ok (values, after)) :
    Kept kinds.length store after := by
  induction exprs generalizing base store values with
  | nil =>
      rw [evaluateAll] at evaluated
      obtain ⟨_, rfl⟩ := Prod.mk.inj (Except.ok.inj evaluated)
      exact Kept.refl _ _
  | cons expr rest inductionHypothesis =>
      rw [evaluateAll] at evaluated
      obtain ⟨⟨value, middle⟩, first, later⟩ := bind_eq_ok.mp evaluated
      obtain ⟨⟨more, last⟩, others, result⟩ := bind_eq_ok.mp later
      obtain ⟨_, rfl⟩ := Prod.mk.inj (Except.ok.inj result)
      have kept := (each _ List.mem_cons_self store conforms sized value middle first).2
      exact kept.trans (inductionHypothesis
        (fun child member => each child (List.mem_cons_of_mem _ member)) (kept.conforms conforms)
        (kept.size.trans sized) others)

theorem evaluateUntil_respects {kinds : List Kind} {gap base : Nat} {exprs : List Expr}
    (each : ∀ child ∈ inTurn kinds gap base exprs, RespectsKinds fieldKinds slots fields child)
    {stopAtTrue : Bool} {store after : Store} (conforms : Conforms kinds store.locals)
    (sized : store.locals.size = slots) {value : Value}
    (evaluated : evaluateUntil fields stopAtTrue store exprs = .ok (value, after)) :
    Covers .boolean value ∧ Kept kinds.length store after := by
  induction exprs generalizing base store with
  | nil =>
      rw [evaluateUntil] at evaluated
      obtain ⟨rfl, rfl⟩ := Prod.mk.inj (Except.ok.inj evaluated)
      exact ⟨Or.inr rfl, Kept.refl _ _⟩
  | cons expr rest inductionHypothesis =>
      rw [evaluateUntil] at evaluated
      obtain ⟨⟨operand, middle⟩, first, later⟩ := bind_eq_ok.mp evaluated
      have kept := (each _ List.mem_cons_self store conforms sized operand middle first).2
      simp only at later
      split at later
      · obtain ⟨rfl, rfl⟩ := Prod.mk.inj (Except.ok.inj later)
        exact ⟨Or.inr rfl, kept⟩
      · obtain ⟨covers, more⟩ := inductionHypothesis
          (fun child member => each child (List.mem_cons_of_mem _ member))
          (kept.conforms conforms) (kept.size.trans sized) later
        exact ⟨covers, kept.trans more⟩

theorem combine_integer {op : ArithmeticOp} {left right value : Value}
    (combined : Operation.combine op left right = .ok value) : Covers .number value := by
  obtain ⟨⟨_, _⟩, _, later⟩ := bind_eq_ok.mp combined
  obtain ⟨_, _, result⟩ := bind_eq_ok.mp later
  obtain rfl := Except.ok.inj result
  exact Or.inr rfl

/-- Arithmetic gives an integer once there is an operand behind the first one. -/
theorem evaluateFold_respects {kinds : List Kind} {gap base : Nat} {exprs : List Expr}
    (each : ∀ child ∈ inTurn kinds gap base exprs, RespectsKinds fieldKinds slots fields child)
    {op : ArithmeticOp} {result : Value} {store after : Store}
    (conforms : Conforms kinds store.locals) (sized : store.locals.size = slots) {value : Value}
    (evaluated : evaluateFold fields op (some result) store exprs = .ok (value, after)) :
    (Covers .number result ∨ exprs ≠ [] → Covers .number value) ∧
      Kept kinds.length store after := by
  induction exprs generalizing base store result with
  | nil =>
      rw [evaluateFold] at evaluated
      obtain ⟨rfl, rfl⟩ := Prod.mk.inj (Except.ok.inj evaluated)
      refine ⟨fun known => ?_, Kept.refl _ _⟩
      rcases known with covers | nonempty
      · exact covers
      · exact absurd rfl nonempty
  | cons expr rest inductionHypothesis =>
      rw [evaluateFold] at evaluated
      obtain ⟨⟨operand, middle⟩, first, later⟩ := bind_eq_ok.mp evaluated
      obtain ⟨next, combined, others⟩ := bind_eq_ok.mp later
      have kept := (each _ List.mem_cons_self store conforms sized operand middle first).2
      obtain ⟨covers, more⟩ := inductionHypothesis
        (fun child member => each child (List.mem_cons_of_mem _ member))
        (kept.conforms conforms) (kept.size.trans sized) others
      exact ⟨fun _ => covers (Or.inl (combine_integer combined)), kept.trans more⟩

theorem arithmetic_respects {kinds : List Kind} {base : Nat} {op : ArithmeticOp}
    {operands : List Expr} (several : 2 ≤ operands.length)
    (each : ∀ child ∈ Occurrence.children fieldKinds ⟨kinds, base, .arithmetic op operands⟩,
      RespectsKinds fieldKinds slots fields child)
    {store after : Store} (conforms : Conforms kinds store.locals)
    (sized : store.locals.size = slots) {value : Value}
    (evaluated : evaluateFold fields op none store operands = .ok (value, after)) :
    Covers .number value ∧ Kept kinds.length store after := by
  match operands, several with
  | first :: second :: rest, _ =>
      rw [evaluateFold] at evaluated
      obtain ⟨⟨operand, middle⟩, evaluatedFirst, later⟩ := bind_eq_ok.mp evaluated
      have kept := (each _ List.mem_cons_self store conforms sized operand middle evaluatedFirst).2
      obtain ⟨covers, more⟩ := evaluateFold_respects
        (fun child member => each child (List.mem_cons_of_mem _ member)) (kept.conforms conforms)
        (kept.size.trans sized) later
      exact ⟨covers (Or.inr (List.cons_ne_nil _ _)), kept.trans more⟩

theorem pair_kept {kinds : List Kind} {gap base : Nat} {left right : Expr}
    (each : ∀ child ∈ inTurn kinds gap base [left, right],
      RespectsKinds fieldKinds slots fields child)
    {store middle after : Store} (conforms : Conforms kinds store.locals)
    (sized : store.locals.size = slots) {leftValue rightValue : Value}
    (first : left.evaluate fields store = .ok (leftValue, middle))
    (second : right.evaluate fields middle = .ok (rightValue, after)) :
    Kept kinds.length store after := by
  have kept := (each _ List.mem_cons_self store conforms sized leftValue middle first).2
  have more := (each _ (List.mem_cons_of_mem _ List.mem_cons_self) middle (kept.conforms conforms)
    (kept.size.trans sized) rightValue after second).2
  exact kept.trans more

def resultKind? (fieldKinds : List Kind) : List Kind → Option Kind → List Statement → Option Kind
  | _, last?, [] => last?
  | kinds, _, .definition _ value :: rest =>
      resultKind? fieldKinds (kinds ++ [value.kind fieldKinds kinds]) none rest
  | kinds, _, .expression value :: rest =>
      resultKind? fieldKinds kinds (some (value.kind fieldKinds kinds)) rest

theorem lastKind_eq (kinds : List Kind) (last? : Option Kind) (body : List Expr) :
    lastKind fieldKinds kinds (last?.getD .nil) body =
      (resultKind? fieldKinds kinds last? (body.map .expression)).getD .nil := by
  induction body generalizing last? with
  | nil => rfl
  | cons expr rest inductionHypothesis => exact inductionHypothesis (some _)

theorem kind_localBinding (kinds : List Kind) (bindings : List (UInt16 × Expr))
    (body : List Expr) :
    (Expr.localBinding bindings body).kind fieldKinds kinds =
      (resultKind? fieldKinds kinds none (bindingSteps bindings body)).getD .nil := by
  rw [Expr.kind]
  unfold bindingSteps
  induction bindings generalizing kinds with
  | nil => exact lastKind_eq kinds none body
  | cons binding rest inductionHypothesis => exact inductionHypothesis _

def CoversResult (kind? : Option Kind) (value? : Option Value) : Prop :=
  match kind?, value? with
  | some kind, some value => Covers kind value
  | none, none => True
  | _, _ => False

/-- Whether the last of some statements has a value, or there is one without statements. -/
def endsWithValue (otherwise : Bool) (statements : List Statement) : Bool :=
  match statements.getLast? with
  | none => otherwise
  | some (.expression _) => true
  | some (.definition _ _) => false

theorem endsWithValue_cons (left right : Bool) (statement next : Statement)
    (rest : List Statement) :
    endsWithValue left (next :: rest) = endsWithValue right (statement :: next :: rest) := by
  simp only [endsWithValue, List.getLast?_cons, Option.getD_some]
  cases rest.getLast?.getD next <;> rfl

theorem endsWithValue_bindingSteps (bindings : List (UInt16 × Expr)) (body : List Expr) :
    endsWithValue false (bindingSteps bindings body) = !body.isEmpty := by
  unfold bindingSteps endsWithValue
  cases body with
  | nil =>
      rw [List.map_nil, List.append_nil, List.getLast?_map]
      cases bindings.getLast? <;> rfl
  | cons first rest =>
      rw [List.getLast?_append, List.getLast?_map, List.getLast?_cons]
      rfl

theorem resultKind?_isSome (kinds : List Kind) (last? : Option Kind)
    (statements : List Statement) :
    (resultKind? fieldKinds kinds last? statements).isSome =
      endsWithValue last?.isSome statements := by
  induction statements generalizing kinds last? with
  | nil => rfl
  | cons statement rest inductionHypothesis =>
      cases statement with
      | definition slot value =>
          rw [resultKind?, inductionHypothesis]
          cases rest with
          | nil => rfl
          | cons next others => exact endsWithValue_cons _ _ _ _ _
      | expression value =>
          rw [resultKind?, inductionHypothesis]
          cases rest with
          | nil => rfl
          | cons next others => exact endsWithValue_cons _ _ _ _ _

theorem CoversResult.isSome {kind? : Option Kind} {value? : Option Value}
    (covers : CoversResult kind? value?) : value?.isSome = kind?.isSome := by
  cases kind? <;> cases value? <;> first | rfl | exact covers.elim

/-- Where nothing gives a value, nil is the value and its kind. -/
theorem CoversResult.getD {kind? : Option Kind} {value? : Option Value}
    (covers : CoversResult kind? value?) : Covers (kind?.getD .nil) (value?.getD .nil) := by
  cases kind? <;> cases value?
  · exact Or.inr rfl
  · exact covers.elim
  · exact covers.elim
  · exact covers

theorem evaluateStatements_respects {kinds : List Kind} {base : Nat} {statements : List Statement}
    (each : ∀ child ∈ inSequence fieldKinds kinds base statements,
      RespectsKinds fieldKinds slots fields child)
    (numbered : Numbered slots kinds.length statements)
    {lastKind? : Option Kind} {last? : Option Value} (covered : CoversResult lastKind? last?)
    {store after : Store} (conforms : Conforms kinds store.locals)
    (sized : store.locals.size = slots) {value? : Option Value}
    (evaluated : evaluateStatements fields last? store statements = .ok (value?, after)) :
    CoversResult (resultKind? fieldKinds kinds lastKind? statements) value? ∧
      Kept kinds.length store after := by
  induction statements generalizing kinds base store last? lastKind? with
  | nil =>
      rw [evaluateStatements] at evaluated
      obtain ⟨rfl, rfl⟩ := Prod.mk.inj (Except.ok.inj evaluated)
      exact ⟨covered, Kept.refl _ _⟩
  | cons statement rest inductionHypothesis =>
      cases statement with
      | definition slot expr =>
          rw [evaluateStatements] at evaluated
          obtain ⟨⟨value, middle⟩, first, later⟩ := bind_eq_ok.mp evaluated
          obtain ⟨next, assigned, others⟩ := bind_eq_ok.mp later
          obtain ⟨own, below, following⟩ := numbered
          obtain ⟨covers, kept⟩ := each _ List.mem_cons_self store conforms sized value middle first
          obtain ⟨conformsNext, keptNext⟩ :=
            assign_next (kept.conforms conforms) own covers assigned
          obtain ⟨result, keptLater⟩ := inductionHypothesis
            (fun child member => each child (List.mem_cons_of_mem _ member))
            (by rw [List.length_append]; exact following) (show CoversResult none none from trivial) conformsNext
            (keptNext.size.trans (kept.size.trans sized)) others
          refine ⟨result, (kept.trans keptNext).trans (keptLater.fewer ?_)⟩
          rw [List.length_append]
          exact Nat.le_add_right _ _
      | expression expr =>
          rw [evaluateStatements] at evaluated
          obtain ⟨⟨value, middle⟩, first, others⟩ := bind_eq_ok.mp evaluated
          obtain ⟨covers, kept⟩ := each _ List.mem_cons_self store conforms sized value middle first
          obtain ⟨result, keptLater⟩ := inductionHypothesis
            (fun child member => each child (List.mem_cons_of_mem _ member)) numbered
            (show CoversResult (some _) (some _) from covers) (kept.conforms conforms) (kept.size.trans sized) others
          exact ⟨result, kept.trans keptLater⟩

/-- Everything that resolution has promised respects kinds. -/
theorem respectsKinds (fieldsConform : Conforms fieldKinds fields) (occurrence : Occurrence)
    (settled : Settled fieldKinds slots occurrence) :
    RespectsKinds fieldKinds slots fields occurrence := by
  induction occurrence using Occurrence.childInduction fieldKinds with
  | step occurrence childHypothesis =>
      have each : ∀ child ∈ occurrence.children fieldKinds,
          RespectsKinds fieldKinds slots fields child :=
        fun child member => childHypothesis child member (settled.child member)
      have fine := settled occurrence .self
      intro store conforms sized value after evaluated
      obtain ⟨kinds, base, expr⟩ := occurrence
      cases expr with
      | localSlot slot =>
          obtain ⟨kind, known⟩ : ∃ kind, kinds[slot.toNat]? = some kind :=
            ⟨_, List.getElem?_eq_getElem (fine.localSlot slot rfl)⟩
          obtain ⟨held, found, covers⟩ := conforms _ _ known
          simp only [Expr.evaluate, found, Except.ok.injEq, Prod.mk.injEq] at evaluated
          obtain ⟨rfl, rfl⟩ := evaluated
          refine ⟨?_, Kept.refl _ _⟩
          simpa [Occurrence.kind, Expr.kind, known] using covers
      | field index =>
          obtain ⟨kind, known⟩ : ∃ kind, fieldKinds[index.toNat]? = some kind :=
            ⟨_, List.getElem?_eq_getElem (fine.field index rfl)⟩
          obtain ⟨held, found, covers⟩ := fieldsConform _ _ known
          simp only [Expr.evaluate, found, Except.ok.injEq, Prod.mk.injEq] at evaluated
          obtain ⟨rfl, rfl⟩ := evaluated
          refine ⟨?_, Kept.refl _ _⟩
          simpa [Occurrence.kind, Expr.kind, known] using covers
      | arithmetic op operands =>
          rw [Expr.evaluate] at evaluated
          exact arithmetic_respects (fine.several op operands rfl) each conforms sized evaluated
      | negate operand =>
          rw [Expr.evaluate] at evaluated
          obtain ⟨⟨found, middle⟩, first, later⟩ := bind_eq_ok.mp evaluated
          obtain ⟨result, negated, last⟩ := bind_eq_ok.mp later
          obtain ⟨rfl, rfl⟩ := Prod.mk.inj (Except.ok.inj last)
          obtain ⟨_, _, wrapped⟩ := bind_eq_ok.mp negated
          obtain ⟨_, _, integer⟩ := bind_eq_ok.mp wrapped
          obtain rfl := Except.ok.inj integer
          exact ⟨Or.inr rfl, (each _ List.mem_cons_self store conforms sized found _ first).2⟩
      | equal left right =>
          rw [Expr.evaluate] at evaluated
          obtain ⟨⟨leftValue, middle⟩, first, later⟩ := bind_eq_ok.mp evaluated
          obtain ⟨⟨rightValue, last⟩, second, result⟩ := bind_eq_ok.mp later
          obtain ⟨rfl, rfl⟩ := Prod.mk.inj (Except.ok.inj result)
          exact ⟨Or.inr rfl, pair_kept each conforms sized first second⟩
      | order op left right =>
          rw [Expr.evaluate] at evaluated
          obtain ⟨⟨leftValue, middle⟩, first, later⟩ := bind_eq_ok.mp evaluated
          obtain ⟨⟨rightValue, last⟩, second, compared⟩ := bind_eq_ok.mp later
          obtain ⟨answer, ordered, result⟩ := bind_eq_ok.mp compared
          obtain ⟨rfl, rfl⟩ := Prod.mk.inj (Except.ok.inj result)
          obtain ⟨_, _, truth⟩ := bind_eq_ok.mp ordered
          obtain rfl := Except.ok.inj truth
          exact ⟨Or.inr rfl, pair_kept each conforms sized first second⟩
      | not operand =>
          rw [Expr.evaluate] at evaluated
          obtain ⟨⟨found, middle⟩, first, result⟩ := bind_eq_ok.mp evaluated
          obtain ⟨rfl, rfl⟩ := Prod.mk.inj (Except.ok.inj result)
          exact ⟨Or.inr rfl, (each _ List.mem_cons_self store conforms sized found _ first).2⟩
      | conjunction operands | disjunction operands =>
          rw [Expr.evaluate] at evaluated
          exact evaluateUntil_respects each conforms sized evaluated
      | conditional condition consequent alternative =>
          rw [Expr.evaluate] at evaluated
          obtain ⟨⟨test, middle⟩, first, chosen⟩ := bind_eq_ok.mp evaluated
          have kept := (each _ List.mem_cons_self store conforms sized test middle first).2
          simp only at chosen
          split at chosen
          · obtain ⟨covers, more⟩ := each _ (List.mem_cons_of_mem _ List.mem_cons_self) middle
              (kept.conforms conforms) (kept.size.trans sized) value after chosen
            exact ⟨covers.join_left, kept.trans more⟩
          · obtain ⟨covers, more⟩ := each _
              (List.mem_cons_of_mem _ (List.mem_cons_of_mem _ List.mem_cons_self)) middle
              (kept.conforms conforms) (kept.size.trans sized) value after chosen
            exact ⟨covers.join_right, kept.trans more⟩
      | localBinding bindings body =>
          rw [evaluate_localBinding] at evaluated
          cases steps : evaluateStatements fields none store (bindingSteps bindings body) with
          | error fault => simp [steps, Except.map] at evaluated
          | ok result =>
              obtain ⟨value?, last⟩ := result
              simp only [steps, Except.map, Except.ok.injEq, Prod.mk.injEq] at evaluated
              obtain ⟨rfl, rfl⟩ := evaluated
              obtain ⟨covers, kept⟩ := evaluateStatements_respects each
                (fine.numbered bindings body rfl) (show CoversResult none none from trivial) conforms sized steps
              refine ⟨?_, kept⟩
              rw [Occurrence.kind, kind_localBinding]
              exact covers.getD
      | concat parts =>
          rw [Expr.evaluate] at evaluated
          obtain ⟨⟨values, middle⟩, all, result⟩ := bind_eq_ok.mp evaluated
          obtain ⟨rfl, rfl⟩ := Prod.mk.inj (Except.ok.inj result)
          exact ⟨Or.inr rfl, evaluateAll_respects each conforms sized all⟩
      | count operand =>
          rw [Expr.evaluate] at evaluated
          obtain ⟨⟨found, middle⟩, first, later⟩ := bind_eq_ok.mp evaluated
          obtain ⟨result, counted, last⟩ := bind_eq_ok.mp later
          obtain ⟨rfl, rfl⟩ := Prod.mk.inj (Except.ok.inj last)
          refine ⟨?_, (each _ List.mem_cons_self store conforms sized found _ first).2⟩
          cases found with
          | string text =>
              obtain rfl := Except.ok.inj counted
              exact Or.inr rfl
          | _ => simp [Operation.count] at counted
      | print newline arguments =>
          rw [Expr.evaluate] at evaluated
          obtain ⟨⟨values, middle⟩, all, result⟩ := bind_eq_ok.mp evaluated
          obtain ⟨rfl, rfl⟩ := Prod.mk.inj (Except.ok.inj result)
          have kept := evaluateAll_respects each conforms sized all
          exact ⟨Or.inr rfl, kept.size, kept.slots⟩
      | _ =>
          obtain ⟨rfl, rfl⟩ := Prod.mk.inj (Except.ok.inj evaluated)
          exact ⟨Or.inr rfl, Kept.refl _ _⟩

end Soundness

end Lisp
end FragmentLisp
