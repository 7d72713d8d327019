import FragmentLisp.Proofs.Lisp.Control
import FragmentLisp.Proofs.Lisp.Steps

/-!
Stretches of a run in the code of expressions, and what becomes of expressions in turn if the code of each
does what its evaluation says. A stretch stays within the code of its expression; wherever it comes to an
expression inside, the slots in use have the kinds that are known of them there.
-/

namespace FragmentLisp

namespace Lisp
namespace Code

open Machine (Program State Passes Follows)
open Instruction (Holds)
open Occurrence (inTurn inSequence Settled Occurs)

structure Within (fieldKinds : List Kind) (occurrence : Occurrence) (state : State) : Prop where
  above : occurrence.base ≤ state.offset
  below : state.offset < occurrence.finish
  conforms : ∀ inner, Occurs fieldKinds occurrence inner → inner.base = state.offset →
    Conforms inner.kinds state.locals

/-- The instruction at a state takes the value that a child has left: the one on top of the stack, or
the one of the first child under that of the second. -/
inductive Takes (fieldKinds : List Kind) (parent child : Occurrence) (state : State)
    (value : Value) : Prop
  | upper {rest : List Value} (member : child ∈ parent.children fieldKinds)
      (finished : child.finish = state.offset) (held : state.stack.entries = value :: rest) :
      Takes fieldKinds parent child state value
  | lower {next : Occurrence} {others : List Occurrence} {top : Value} {rest : List Value}
      (children : parent.children fieldKinds = child :: next :: others)
      (finished : next.finish = state.offset)
      (held : state.stack.entries = top :: value :: rest) :
      Takes fieldKinds parent child state value

theorem Takes.mem {fieldKinds : List Kind} {parent child : Occurrence} {state : State} {value : Value}
    (takes : Takes fieldKinds parent child state value) : child ∈ parent.children fieldKinds := by
  cases takes with
  | upper member finished held => exact member
  | lower children finished held =>
      rw [children]
      exact List.mem_cons_self

/-- Only faults of a wrong kind are blamed on someone: on an operand of the form whose instruction was to
be performed, which left a value of another kind than is wanted there, and of which nothing was known. -/
def Blamed (fieldKinds : List Kind) (occurrence : Occurrence) (state : State) (fault : Fault) : Prop :=
  fault.IsMismatch →
    ∃ inner child value wanted, Occurs fieldKinds occurrence inner ∧
      inner.Owns fieldKinds state.offset ∧ inner.expr.demand? = some wanted ∧
      Takes fieldKinds inner child state value ∧ Kind.ofValue value ≠ wanted ∧
      child.kind fieldKinds = .any

def Delivers (program : Program) (fields : Array Value) (slots : Nat) (inside : State → Prop)
    (blame : State → Fault → Prop) (occurrence : Occurrence) : Prop :=
  ∀ entries store, Conforms occurrence.kinds store.locals → store.locals.size = slots →
    Follows program inside blame (place fields occurrence.base entries store)
      (occurrence.expr.evaluate fields store)
      fun result => place fields occurrence.finish (result.1 :: entries) result.2

def ChildrenDeliver (constants : Constants) (fieldKinds : List Kind) (program : Program)
    (fields : Array Value) (slots : Nat) (inside : State → Prop) (blame : State → Fault → Prop)
    (children : List Occurrence) : Prop :=
  ∀ child ∈ children, RespectsKinds fieldKinds slots fields child ∧
    ∀ code, ofExpr constants child.base child.expr = .ok code →
      Holds program.code child.base code → Delivers program fields slots inside blame child

theorem Within.lift {fieldKinds : List Kind} {parent child : Occurrence}
    (member : child ∈ parent.children fieldKinds) {state : State}
    (within : Within fieldKinds child state) : Within fieldKinds parent state := by
  obtain ⟨above, below, same, _⟩ := Occurrence.child_within member
  refine ⟨Nat.le_trans above within.above, Nat.lt_of_lt_of_le within.below below, ?_⟩
  intro inner occurs start
  rcases occurs.cases_first with rfl | ⟨other, otherMember, deeper⟩
  · have childStart : child.base = inner.base := by
      have own := within.above
      omega
    rw [← same childStart]
    exact within.conforms child .self (childStart.trans start)
  · have bounds := deeper.within
    have positive := inner.base_lt_finish
    have own := within.above
    have ends := within.below
    have apart := Occurrence.children_apart fieldKinds parent
    rcases @Occurrence.eq_or_apart 0 _ _ _ apart member otherMember with rfl | before | behind
    · exact within.conforms inner deeper start
    · omega
    · omega

theorem within_own {fieldKinds : List Kind} {parent : Occurrence} {state : State}
    (owns : parent.Owns fieldKinds state.offset)
    (conforms : state.offset = parent.base → Conforms parent.kinds state.locals) :
    Within fieldKinds parent state := by
  refine ⟨owns.above, owns.below, ?_⟩
  intro inner occurs start
  rcases occurs.cases_first with rfl | ⟨child, member, deeper⟩
  · exact conforms start.symm
  · have bounds := deeper.within
    have positive := inner.base_lt_finish
    rcases owns.free child member with behind | before
    · omega
    · omega

theorem within_behind {fieldKinds : List Kind} {parent child : Occurrence} {state : State}
    (member : child ∈ parent.children fieldKinds) (behind : child.finish ≤ state.offset)
    (owns : parent.Owns fieldKinds state.offset) : Within fieldKinds parent state := by
  have bounds := Occurrence.child_within member
  have positive := child.base_lt_finish
  apply within_own owns
  intro start
  omega

/-- What stands in the gap behind a child is an instruction of the form itself. -/
theorem within_gap {fieldKinds : List Kind} {parent child : Occurrence} {gap : Nat} {state : State}
    (apart : (parent.children fieldKinds).Pairwise
      fun earlier later => earlier.finish + gap ≤ later.base)
    (member : child ∈ parent.children fieldKinds) (behind : child.finish ≤ state.offset)
    (before : state.offset < child.finish + gap) (below : state.offset < parent.finish) :
    Within fieldKinds parent state := by
  apply within_behind member behind
  apply Occurrence.owns_behind member behind below
  intro other otherMember
  exact Occurrence.free_behind apart member otherMember behind before

theorem within_end {fieldKinds : List Kind} {parent : Occurrence} {state : State}
    (behind : ∀ child ∈ parent.children fieldKinds, child.finish ≤ state.offset)
    (above : parent.base ≤ state.offset) (below : state.offset < parent.finish)
    (conforms : Conforms parent.kinds state.locals) : Within fieldKinds parent state :=
  within_own ⟨above, below, fun child member => Or.inl (behind child member)⟩ fun _ => conforms

theorem Blamed.lift {fieldKinds : List Kind} {parent child : Occurrence}
    (member : child ∈ parent.children fieldKinds) {state : State} {fault : Fault}
    (blamed : Blamed fieldKinds child state fault) : Blamed fieldKinds parent state fault := by
  intro mismatch
  obtain ⟨inner, operand, value, wanted, occurs, rest⟩ := blamed mismatch
  exact ⟨inner, operand, value, wanted, (Occurs.child .self member).trans occurs, rest⟩

theorem any_of_unwanted {kind wanted : Kind} {value : Value} (covers : Covers kind value)
    (admits : kind.admits wanted = true) (unwanted : Kind.ofValue value ≠ wanted) : kind = .any := by
  rcases covers with any | known
  · exact any
  · rw [Kind.admits, Bool.or_eq_true, decide_eq_true_iff, decide_eq_true_iff] at admits
    rcases admits with same | any
    · exact absurd (known.symm.trans same) unwanted
    · exact any

section Lists

variable {constants : Constants} {fieldKinds kinds : List Kind} {program : Program}
variable {fields : Array Value} {slots : Nat} {inside : State → Prop} {blame : State → Fault → Prop}

/-- Operands that are combined one after another with a result so far. Only a first result can be
something else than a number; it is suspect then. -/
theorem follows_fold (suspect : Occurrence → Prop) {op : ArithmeticOp} {base : Nat} {rest : List Expr}
    {pieces : List (List Instruction)} (made : Pieces constants 1 base rest pieces)
    (held : Holds program.code base (pieces.flatMap fun piece => piece ++ [.arithmetic op]))
    (each : ChildrenDeliver constants fieldKinds program fields slots inside blame
      (inTurn kinds 1 base rest))
    (own : ∀ child ∈ inTurn kinds 1 base rest, ∀ state : State,
      state.offset = child.finish → inside state)
    (blamed : ∀ child ∈ inTurn kinds 1 base rest, ∀ (state : State) (fault : Fault)
      (value result : Value) (entries : List Value), state.offset = child.finish →
      state.stack.entries = value :: result :: entries →
      (fault.IsMismatch →
        Kind.ofValue value ≠ .number ∧ child.kind fieldKinds = .any ∨
          Kind.ofValue result ≠ .number ∧ suspect child) → blame state fault)
    (admits : ∀ child ∈ inTurn kinds 1 base rest, (child.kind fieldKinds).admits .number = true)
    {result : Value} (entries : List Value) {store : Store}
    (sure : ∀ child others, inTurn kinds 1 base rest = child :: others →
      Kind.ofValue result ≠ .number → suspect child)
    (conforms : Conforms kinds store.locals)
    (sized : store.locals.size = slots) :
    Follows program inside blame (place fields base (result :: entries) store)
      (evaluateFold fields op (some result) store rest)
      fun answer => place fields (base + widthAll 1 rest) (answer.1 :: entries) answer.2 := by
  induction made generalizing result store with
  | nil base => exact .done _
  | @cons base expr rest code pieces head tail inductionHypothesis =>
      have width := codeSize_of_ok head
      have finish : base + widthAll 1 (expr :: rest) = base + expr.width + 1 + widthAll 1 rest := by
        rw [widthAll]
        omega
      rw [List.flatMap_cons, Holds.append_iff, Holds.append_iff] at held
      obtain ⟨⟨heldCode, heldOwn⟩, heldRest⟩ := held
      rw [codeSize_append, ← Nat.add_assoc] at heldRest
      rw [width] at heldOwn heldRest inductionHypothesis
      obtain ⟨respects, delivers⟩ := each _ List.mem_cons_self
      rw [evaluateFold, finish]
      apply Follows.bind (delivers code head heldCode (result :: entries) store conforms sized)
      rintro ⟨value, after⟩ evaluated
      obtain ⟨covers, kept⟩ := respects store conforms sized value after evaluated
      have operation : Follows program inside blame
          (place fields (base + expr.width) (value :: result :: entries) after)
          (Operation.combine op result value)
          fun next => place fields (base + expr.width + 1) (next :: entries) after := by
        apply follows_operation heldOwn (own _ List.mem_cons_self _ rfl) ?_
          (perform_arithmetic op result value)
        intro fault failed
        apply blamed _ List.mem_cons_self _ fault value result entries rfl rfl
        intro mismatch
        rcases Operation.combine_mismatch failed mismatch with wrong | wrong
        · exact Or.inl ⟨wrong, any_of_unwanted covers (admits _ List.mem_cons_self) wrong⟩
        · exact Or.inr ⟨wrong, sure _ _ rfl wrong⟩
      apply Follows.bind operation
      intro next combined
      have number : Kind.ofValue next = .number := by
        rcases combine_integer combined with any | known
        · simp at any
        · exact known.symm
      apply inductionHypothesis heldRest
      · exact fun child member => each child (List.mem_cons_of_mem _ member)
      · exact fun child member => own child (List.mem_cons_of_mem _ member)
      · exact fun child member => blamed child (List.mem_cons_of_mem _ member)
      · exact fun child member => admits child (List.mem_cons_of_mem _ member)
      · exact fun _ _ _ wrong => absurd number wrong
      · exact kept.conforms conforms
      · exact kept.size.trans sized

theorem passes_stopTest {stopAtTrue : Bool} {stopped offset : Nat} {value : Value}
    {entries : List Value} {store : Store}
    (held : Holds program.code offset (stopTest stopAtTrue ++
      [.jumpIfFalse (UInt32.ofNat stopped)]))
    (small : stopped < 2 ^ 32)
    (own : ∀ state : State, offset ≤ state.offset →
      state.offset < offset + stopGap stopAtTrue → inside state) :
    Passes program inside (place fields offset (value :: entries) store)
      (place fields (if value.isTruthy = stopAtTrue then stopped else offset + stopGap stopAtTrue)
        entries store) := by
  have gapSize := stopTest_size stopAtTrue
  have first := own (place fields offset (value :: entries) store) (Nat.le_refl _)
    (by simp only [place]; omega)
  have target := word_toNat stopped small
  cases stopAtTrue with
  | false =>
      have jumped := passes_branch target held first
      cases truth : value.isTruthy <;> simpa [truth, stopGap] using jumped
  | true =>
      rw [stopTest, if_pos rfl, List.cons_append, Holds.cons_iff] at held
      obtain ⟨heldNot, heldJump⟩ := held
      have second := own
        (place fields (offset + 1) (.boolean (!value.isTruthy) :: entries) store)
        (Nat.le_add_right _ 1) (Nat.add_lt_add_left (by decide : 1 < 6) _)
      have turned : Passes program inside (place fields offset (value :: entries) store)
          (place fields (offset + 1) (.boolean (!value.isTruthy) :: entries) store) :=
        Passes.leave heldNot first rfl
      have jumped := turned.trans (passes_branch target heldJump second)
      have asked : (Value.boolean (!value.isTruthy)).isTruthy = !value.isTruthy := rfl
      rw [asked] at jumped
      cases truth : value.isTruthy <;> simpa [truth, stopGap, Nat.add_assoc] using jumped

/-- Operands of which the first of a truth value ends the form. What happens at its two ends is left
open. -/
theorem follows_until {stopAtTrue : Bool} {stopped base : Nat} {operands : List Expr}
    {pieces : List (List Instruction)}
    (made : Pieces constants (stopGap stopAtTrue) base operands pieces)
    (held : Holds program.code base (pieces.flatMap fun piece => piece ++ (stopTest stopAtTrue ++
      [.jumpIfFalse (UInt32.ofNat stopped)])))
    (small : stopped < 2 ^ 32)
    (each : ChildrenDeliver constants fieldKinds program fields slots inside blame
      (inTurn kinds (stopGap stopAtTrue) base operands))
    (own : ∀ child ∈ inTurn kinds (stopGap stopAtTrue) base operands, ∀ state : State,
      child.finish ≤ state.offset → state.offset < child.finish + stopGap stopAtTrue → inside state)
    {entries : List Value} {store : Store} {target : Value × Store → State}
    (exhausted : ∀ store, Conforms kinds store.locals → store.locals.size = slots →
      Passes program inside
        (place fields (base + widthAll (stopGap stopAtTrue) operands) entries store)
        (target (.boolean !stopAtTrue, store)))
    (decided : ∀ store, Conforms kinds store.locals → store.locals.size = slots →
      Passes program inside (place fields stopped entries store)
        (target (.boolean stopAtTrue, store)))
    (conforms : Conforms kinds store.locals) (sized : store.locals.size = slots) :
    Follows program inside blame (place fields base entries store)
      (evaluateUntil fields stopAtTrue store operands) target := by
  induction made generalizing store with
  | nil base =>
      rw [evaluateUntil]
      exact exhausted store conforms sized
  | @cons base expr rest code pieces head tail inductionHypothesis =>
      have width := codeSize_of_ok head
      have finish : base + widthAll (stopGap stopAtTrue) (expr :: rest) =
          base + expr.width + stopGap stopAtTrue + widthAll (stopGap stopAtTrue) rest := by
        rw [widthAll]
        omega
      have gapSize := stopTest_size stopAtTrue
      rw [List.flatMap_cons, Holds.append_iff, Holds.append_iff] at held
      obtain ⟨⟨heldCode, heldOwn⟩, heldRest⟩ := held
      rw [codeSize_append, codeSize_append, ← Nat.add_assoc] at heldRest
      rw [width] at heldOwn heldRest inductionHypothesis
      obtain ⟨respects, delivers⟩ := each _ List.mem_cons_self
      rw [evaluateUntil]
      apply Follows.bind (delivers code head heldCode entries store conforms sized)
      rintro ⟨value, after⟩ evaluated
      obtain ⟨covers, kept⟩ := respects store conforms sized value after evaluated
      have conformsAfter := kept.conforms conforms
      have sizedAfter := kept.size.trans sized
      apply Passes.follows (passes_stopTest heldOwn small (own _ List.mem_cons_self))
      by_cases ends : value.isTruthy = stopAtTrue
      · simp only [if_pos ends]
        exact decided after conformsAfter sizedAfter
      · simp only [if_neg ends]
        apply inductionHypothesis
        · have size : codeSize (stopTest stopAtTrue) +
              codeSize [Instruction.jumpIfFalse (UInt32.ofNat stopped)] = stopGap stopAtTrue := gapSize
          rwa [size] at heldRest
        · exact fun child member => each child (List.mem_cons_of_mem _ member)
        · exact fun child member => own child (List.mem_cons_of_mem _ member)
        · intro store conforms sized
          rw [← finish]
          exact exhausted store conforms sized
        · exact conformsAfter
        · exact sizedAfter

theorem follows_all (filler : List Value) {gap base : Nat} {exprs : List Expr}
    {pieces : List (List Instruction)} {between : List Instruction}
    (made : Pieces constants gap base exprs pieces) (sized : codeSize between = gap)
    (held : Holds program.code base (pieces.intersperse between).flatten)
    (each : ChildrenDeliver constants fieldKinds program fields slots inside blame
      (inTurn kinds gap base exprs))
    (fills : ∀ child ∈ inTurn kinds gap base exprs, ∀ entries store,
      Holds program.code child.finish between →
        Passes program inside (place fields child.finish entries store)
          (place fields (child.finish + gap) (filler.reverse ++ entries) store))
    (entries : List Value) {store : Store} (conforms : Conforms kinds store.locals)
    (slotCount : store.locals.size = slots) :
    Follows program inside blame (place fields base entries store)
      (evaluateAll fields store exprs)
      fun answer => place fields (base + (widthAll gap exprs - gap))
        (((answer.1.map fun value => [value]).intersperse filler).flatten.reverse ++ entries)
        answer.2 := by
  induction made generalizing store entries with
  | nil base =>
      have start : base + (widthAll gap [] - gap) = base := by
        rw [widthAll]
        omega
      rw [start]
      exact .done _
  | @cons base expr rest code pieces head tail inductionHypothesis =>
      have width := codeSize_of_ok head
      rw [width] at inductionHypothesis
      obtain ⟨respects, delivers⟩ := each _ List.mem_cons_self
      rw [evaluateAll]
      have heldCode : Holds program.code base code := by
        cases pieces with
        | nil => simpa using held
        | cons next more =>
            rw [List.intersperse_cons_cons, List.flatten_cons, Holds.append_iff] at held
            exact held.1
      apply Follows.bind (delivers code head heldCode entries store conforms slotCount)
      rintro ⟨value, after⟩ evaluated
      obtain ⟨covers, kept⟩ := respects store conforms slotCount value after evaluated
      cases tail with
      | nil =>
          have finish : base + (widthAll gap [expr] - gap) = base + expr.width := by
            rw [widthAll, widthAll]
            omega
          rw [finish]
          exact .done _
      | @cons _ next others nextCode more nextHead nextTail =>
          have finish : base + (widthAll gap (expr :: next :: others) - gap) =
              base + expr.width + gap + (widthAll gap (next :: others) - gap) := by
            simp only [widthAll]
            omega
          rw [List.intersperse_cons_cons, List.flatten_cons, List.flatten_cons, Holds.append_iff,
            Holds.append_iff, width, sized] at held
          obtain ⟨_, heldBetween, heldRest⟩ := held
          rw [finish]
          apply Passes.follows (fills _ List.mem_cons_self (value :: entries) after heldBetween)
          apply Follows.bind (inductionHypothesis heldRest
            (fun child member => each child (List.mem_cons_of_mem _ member))
            (fun child member => fills child (List.mem_cons_of_mem _ member))
            (filler.reverse ++ value :: entries) (kept.conforms conforms)
            (kept.size.trans slotCount))
          rintro ⟨values, last⟩ all
          have long := evaluateAll_length fields all
          cases values with
          | nil => simp at long
          | cons second values =>
              have spread : (((value :: second :: values).map fun value => [value]).intersperse
                    filler).flatten.reverse ++ entries =
                  (((second :: values).map fun value => [value]).intersperse
                    filler).flatten.reverse ++ (filler.reverse ++ value :: entries) := by
                simp [List.intersperse_cons_cons]
              simp only [pure, Except.pure, Follows, spread]
              exact .done _

/-- Statements leave the value of the last one, and nothing else. -/
theorem follows_statements {base : Nat} {statements : List Statement} {code : List Instruction}
    (made : Sequence constants base statements code)
    (held : Holds program.code base code)
    (numbered : Numbered slots kinds.length statements)
    (each : ChildrenDeliver constants fieldKinds program fields slots inside blame
      (inSequence fieldKinds kinds base statements))
    (own : ∀ child ∈ inSequence fieldKinds kinds base statements, ∀ state : State,
      state.offset = child.finish → state.offset < base + widthSteps statements → inside state)
    {last? : Option Value} (fresh : statements = [] → last? = none)
    (entries : List Value) {store : Store} (conforms : Conforms kinds store.locals)
    (sized : store.locals.size = slots) :
    Follows program inside blame (place fields base entries store)
      (evaluateStatements fields last? store statements)
      fun answer => place fields (base + widthSteps statements)
        (answer.1.toList ++ entries) answer.2 := by
  induction made generalizing kinds last? store with
  | nil base =>
      rw [evaluateStatements, fresh rfl]
      exact .done _
  | @definition base slot value rest code more head tail inductionHypothesis =>
      have width := codeSize_of_ok head
      have finish : base + widthSteps (.definition slot value :: rest) =
          base + value.width + 3 + widthSteps rest := by
        rw [widthSteps]
        omega
      obtain ⟨next, below, following⟩ := numbered
      rw [Holds.append_iff, width] at held
      obtain ⟨heldCode, heldOwn⟩ := held
      rw [width] at inductionHypothesis
      obtain ⟨respects, delivers⟩ := each _ List.mem_cons_self
      rw [evaluateStatements, finish]
      apply Follows.bind (delivers code head heldCode entries store conforms sized)
      rintro ⟨result, after⟩ evaluated
      obtain ⟨covers, kept⟩ := respects store conforms sized result after evaluated
      have inBounds : slot.toNat < after.locals.size := by
        rw [kept.size, sized, next]
        exact below
      have assigned : after.assign slot result = .ok
          { after with locals := after.locals.setIfInBounds slot.toNat result } := if_pos inBounds
      obtain ⟨conformsNext, keptNext⟩ := assign_next (kept.conforms conforms) next covers assigned
      simp only [assigned]
      have within := own _ List.mem_cons_self
        (place fields (base + value.width) (result :: entries) after) rfl
        (by simp only [place]; omega)
      apply Passes.follows (passes_store heldOwn within assigned)
      have numberedNext : Numbered slots (kinds ++ [value.kind fieldKinds kinds]).length rest := by
        rw [List.length_append]
        exact following
      apply inductionHypothesis (Holds.cons_iff.mp heldOwn).2 numberedNext
      · exact fun child member => each child (List.mem_cons_of_mem _ member)
      · intro child member state here inRange
        exact own child (List.mem_cons_of_mem _ member) state here (by omega)
      · exact fun _ => rfl
      · exact conformsNext
      · exact keptNext.size.trans (kept.size.trans sized)
  | @last base value code head =>
      obtain ⟨respects, delivers⟩ := each _ List.mem_cons_self
      rw [evaluateStatements]
      apply Follows.bind (delivers code head held entries store conforms sized)
      rintro ⟨result, after⟩ evaluated
      exact .done _
  | @expression base value next rest code more head tail inductionHypothesis =>
      have width := codeSize_of_ok head
      have finish : base + widthSteps (.expression value :: next :: rest) =
          base + value.width + 1 + widthSteps (next :: rest) := by
        simp only [widthSteps]
        omega
      rw [Holds.append_iff, width] at held
      obtain ⟨heldCode, heldOwn⟩ := held
      rw [width] at inductionHypothesis
      obtain ⟨respects, delivers⟩ := each _ List.mem_cons_self
      rw [evaluateStatements, finish]
      apply Follows.bind (delivers code head heldCode entries store conforms sized)
      rintro ⟨result, after⟩ evaluated
      obtain ⟨covers, kept⟩ := respects store conforms sized result after evaluated
      have within := own _ List.mem_cons_self
        (place fields (base + value.width) (result :: entries) after) rfl
        (by simp only [place]; omega)
      apply Passes.follows (passes_pop heldOwn within)
      apply inductionHypothesis (Holds.cons_iff.mp heldOwn).2 numbered
      · exact fun child member => each child (List.mem_cons_of_mem _ member)
      · intro child member state here inRange
        exact own child (List.mem_cons_of_mem _ member) state here (by omega)
      · exact fun empty => absurd empty (List.cons_ne_nil _ _)
      · exact kept.conforms conforms
      · exact kept.size.trans sized

/-- A form that may stop early leaves the truth value that its operands decide. -/
theorem follows_shortCircuit (stopAtTrue : Bool) {base : Nat} {operands : List Expr}
    {pieces : List (List Instruction)}
    (made : Pieces constants (stopGap stopAtTrue) base operands pieces)
    (held : Holds program.code base (shortCircuit stopAtTrue base pieces))
    (small : base + widthAll (stopGap stopAtTrue) operands + 9 < 2 ^ 32)
    (each : ChildrenDeliver constants fieldKinds program fields slots inside blame
      (inTurn kinds (stopGap stopAtTrue) base operands))
    (own : ∀ child ∈ inTurn kinds (stopGap stopAtTrue) base operands, ∀ state : State,
      child.finish ≤ state.offset → state.offset < child.finish + stopGap stopAtTrue → inside state)
    (tail : ∀ state : State, base + widthAll (stopGap stopAtTrue) operands ≤ state.offset →
      state.offset < base + widthAll (stopGap stopAtTrue) operands + 9 →
      Conforms kinds state.locals → inside state)
    (entries : List Value) {store : Store} (conforms : Conforms kinds store.locals)
    (sized : store.locals.size = slots) :
    Follows program inside blame (place fields base entries store)
      (evaluateUntil fields stopAtTrue store operands)
      fun answer => place fields (base + widthAll (stopGap stopAtTrue) operands + 9)
        (answer.1 :: entries) answer.2 := by
  have width := pieces_width made fun expr _ => has_width expr
  rw [shortCircuit_eq, Holds.append_iff, stopPieces_size, stopOffset, width] at held
  obtain ⟨heldOperands, heldTail⟩ := held
  generalize ends : base + widthAll (stopGap stopAtTrue) operands = behind at *
  have word := word_toNat (behind + 7 + 2) (by omega)
  have heldJump := (Holds.cons_iff.mp heldTail).2
  have heldOther := (Holds.cons_iff.mp heldJump).2
  apply follows_until made heldOperands (by omega) each own ?_ ?_ conforms sized
  · intro store conforms sized
    rw [ends]
    apply (passes_value heldTail (tail _ (Nat.le_refl behind) ?_ conforms) rfl).trans
    · apply passes_jump word heldJump (tail _ ?_ ?_ conforms)
      · exact Nat.le_add_right behind 2
      · exact Nat.add_lt_add_left (by decide : 2 < 9) behind
    · exact Nat.lt_add_of_pos_right (by decide : 0 < 9)
  · intro store conforms sized
    apply passes_value heldOther (tail _ ?_ ?_ conforms) rfl
    · exact Nat.le_add_right behind 7
    · exact Nat.add_lt_add_left (by decide : 7 < 9) behind

end Lists

end Code
end Lisp
end FragmentLisp
