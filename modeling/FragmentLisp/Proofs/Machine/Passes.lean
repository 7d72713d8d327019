import FragmentLisp.Machine
import FragmentLisp.Proofs.Instruction.Placement
import FragmentLisp.Proofs.Machine.OperandStack

/-!
Stretches of a run. A stretch leads from one state to another through states of a kind, unless the limit
of the operand stack stops it on the way. What a computation says about a run is put together from such
stretches in the way in which the computation is put together.
-/

namespace FragmentLisp
namespace Machine

/-- The run goes from one state to the other through states that are inside, unless it stops at the
limit of the operand stack before. -/
inductive Passes (program : Program) (inside : State → Prop) : State → State → Prop
  | done (state : State) : Passes program inside state state
  | step {state next final : State} (within : inside state)
      (once : step program state = .running next) (more : Passes program inside next final) :
      Passes program inside state final
  | overflow {state final : State} (within : inside state)
      (stopped : step program state = .faulted (.stackOverflow program.stackLimit) state) :
      Passes program inside state final

/-- The run stops with a fault at a state that is inside and that the fault is blamed on, unless it stops
at the limit of the operand stack before. -/
def Stops (program : Program) (inside : State → Prop) (blame : State → Fault → Prop)
    (state : State) (fault : Fault) : Prop :=
  ∃ last, Passes program inside state last ∧ inside last ∧
    step program last = .faulted fault last ∧ blame last fault

def Follows {Result : Type} (program : Program) (inside : State → Prop)
    (blame : State → Fault → Prop) (state : State) (outcome : Except Fault Result)
    (target : Result → State) : Prop :=
  match outcome with
  | .ok result => Passes program inside state (target result)
  | .error fault => Stops program inside blame state fault

section Stretches

variable {program : Program} {inside : State → Prop} {blame : State → Fault → Prop}

theorem Passes.trans {first second third : State} (left : Passes program inside first second)
    (right : Passes program inside second third) : Passes program inside first third := by
  induction left with
  | done state => exact right
  | step within once _ inductionHypothesis => exact .step within once (inductionHypothesis right)
  | overflow within stopped => exact .overflow within stopped

theorem Passes.widen {wider : State → Prop} (lift : ∀ state, inside state → wider state)
    {first last : State} (passes : Passes program inside first last) :
    Passes program wider first last := by
  induction passes with
  | done state => exact .done state
  | step within once _ inductionHypothesis => exact .step (lift _ within) once inductionHypothesis
  | overflow within stopped => exact .overflow (lift _ within) stopped

theorem Follows.widen {Result : Type} {wider : State → Prop} {further : State → Fault → Prop}
    (lift : ∀ state, inside state → wider state)
    (liftBlame : ∀ state fault, blame state fault → further state fault) {state : State}
    {outcome : Except Fault Result} {target : Result → State}
    (follows : Follows program inside blame state outcome target) :
    Follows program wider further state outcome target := by
  cases outcome with
  | ok result => exact Passes.widen lift follows
  | error fault =>
      obtain ⟨last, passes, within, stopped, blamed⟩ := follows
      exact ⟨last, passes.widen lift, lift _ within, stopped, liftBlame _ _ blamed⟩

theorem Passes.follows {Result : Type} {first second : State}
    (passes : Passes program inside first second) {outcome : Except Fault Result}
    {target : Result → State} (follows : Follows program inside blame second outcome target) :
    Follows program inside blame first outcome target := by
  cases outcome with
  | ok result => exact passes.trans follows
  | error fault =>
      obtain ⟨last, more, rest⟩ := follows
      exact ⟨last, passes.trans more, rest⟩

/-- A computation that goes on with the result of a first one is followed part by part. -/
theorem Follows.bind {First Second : Type} {state : State} {first : Except Fault First}
    {rest : First → Except Fault Second} {middle : First → State} {target : Second → State}
    (followsFirst : Follows program inside blame state first middle)
    (followsRest : ∀ result, first = .ok result →
      Follows program inside blame (middle result) (rest result) target) :
    Follows program inside blame state (first >>= rest) target := by
  cases first with
  | ok result => exact Passes.follows followsFirst (followsRest result rfl)
  | error fault => exact followsFirst

theorem Follows.onward {Result : Type} {state : State} {outcome : Except Fault Result}
    {middle target : Result → State} (follows : Follows program inside blame state outcome middle)
    (onward : ∀ result, outcome = .ok result → Passes program inside (middle result) (target result)) :
    Follows program inside blame state outcome target := by
  cases outcome with
  | ok result => exact Passes.trans follows (onward result rfl)
  | error fault => exact follows

theorem Follows.map {First Second : Type} {state : State} {first : Except Fault First}
    {change : First → Second} {target : Second → State}
    (follows : Follows program inside blame state first fun result => target (change result)) :
    Follows program inside blame state (first.map change) target := by
  cases first with
  | ok result => exact follows
  | error fault => exact follows

theorem step_eq_perform {state : State} {instruction : Instruction}
    (held : state.offset < program.code.size ∧
      Instruction.decodeAt program.code state.offset = .ok instruction) :
    step program state = perform program state instruction := by
  unfold step
  rw [if_pos held.1, held.2]

theorem Follows.leave {Result : Type} {state : State} {instruction : Instruction}
    {outcome : Except Fault Result} {entries : List Value} (value : Result → Value)
    (held : state.offset < program.code.size ∧
      Instruction.decodeAt program.code state.offset = .ok instruction)
    (within : inside state) (blamed : ∀ fault, outcome = .error fault → blame state fault)
    (performed : perform program state instruction = attempt state outcome fun result =>
      Machine.leave program state (state.offset + instruction.size) (.ofEntries entries)
        (value result)) :
    Follows program inside blame state outcome fun result =>
      { state with
        offset := state.offset + instruction.size
        stack := .ofEntries (value result :: entries) } := by
  have once := step_eq_perform held
  rw [performed] at once
  cases outcome with
  | error fault => exact ⟨state, .done state, within, once, blamed fault rfl⟩
  | ok result =>
      simp only [attempt, Machine.leave, OperandStack.push_ofEntries] at once
      by_cases full : program.stackLimit ≤ entries.length
      · rw [if_pos full] at once
        exact .overflow within once
      · rw [if_neg full] at once
        exact .step within once (.done _)

theorem Passes.perform {state next : State} {instruction : Instruction}
    (held : state.offset < program.code.size ∧
      Instruction.decodeAt program.code state.offset = .ok instruction)
    (within : inside state) (performed : perform program state instruction = .running next) :
    Passes program inside state next :=
  .step within ((step_eq_perform held).trans performed) (.done next)

theorem Passes.leave {state : State} {instruction : Instruction} {entries : List Value}
    {value : Value}
    (held : state.offset < program.code.size ∧
      Instruction.decodeAt program.code state.offset = .ok instruction)
    (within : inside state)
    (performed : Machine.perform program state instruction =
      Machine.leave program state (state.offset + instruction.size) (.ofEntries entries) value) :
    Passes program inside state
      { state with
        offset := state.offset + instruction.size
        stack := .ofEntries (value :: entries) } := by
  have follows : Follows program inside (fun _ _ => True) state (.ok ()) _ :=
    Follows.leave (fun _ => value) held within (fun _ _ => trivial) performed
  exact follows

end Stretches

/-! Stretches and runs. -/

section Runs

variable {program : Program}

theorem run_add {first second : Nat} {state middle : State}
    (reached : run program first state = .unfinished middle) :
    run program (first + second) state = run program second middle := by
  induction first generalizing state with
  | zero =>
      obtain rfl := Outcome.unfinished.inj reached
      rw [Nat.zero_add]
  | succ first inductionHypothesis =>
      rw [Nat.add_right_comm, run]
      rw [run] at reached
      cases once : step program state with
      | running next =>
          rw [once] at reached
          exact inductionHypothesis reached
      | returned value? final => simp [once] at reached
      | faulted fault stopped => simp [once] at reached

theorem run_fewer {fewer steps : Nat} {state last : State}
    (reached : run program steps state = .unfinished last) (le : fewer ≤ steps) :
    ∃ middle, run program fewer state = .unfinished middle := by
  induction fewer generalizing state steps with
  | zero => exact ⟨state, rfl⟩
  | succ fewer inductionHypothesis =>
      cases steps with
      | zero => simp at le
      | succ steps =>
          rw [run] at reached ⊢
          cases once : step program state with
          | running next =>
              rw [once] at reached
              exact inductionHypothesis reached (Nat.le_of_succ_le_succ le)
          | returned value? final => simp [once] at reached
          | faulted fault stopped => simp [once] at reached

/-- What ends a run after some steps ends it for any larger number of steps. -/
theorem run_ended {steps more : Nat} {state last : State} {outcome : Outcome}
    (reached : run program steps state = .unfinished last) (once : run program 1 last = outcome)
    (ended : ∀ further, outcome ≠ .unfinished further) (le : steps < more) :
    run program more state = outcome := by
  obtain ⟨rest, rfl⟩ := Nat.exists_eq_add_of_lt le
  rw [Nat.add_assoc, run_add reached, run]
  rw [run] at once
  cases stepped : step program last with
  | running next =>
      rw [stepped] at once
      exact absurd once.symm (ended next)
  | returned value? final =>
      rw [stepped] at once
      exact once
  | faulted fault stopped =>
      rw [stepped] at once
      exact once

/-- A run that never stops at the limit of its operand stack takes a stretch in some number of steps. -/
theorem Passes.run {inside : State → Prop} {first last : State}
    (passes : Passes program inside first last)
    (free : ∀ steps stopped,
      run program steps first ≠ .faulted (.stackOverflow program.stackLimit) stopped) :
    ∃ steps, run program steps first = .unfinished last := by
  induction passes with
  | done state => exact ⟨0, rfl⟩
  | step within once more inductionHypothesis =>
      rename_i state next final
      have later : ∀ steps, Machine.run program (steps + 1) state = Machine.run program steps next := by
        intro steps
        rw [Machine.run, once]
      obtain ⟨steps, reached⟩ := inductionHypothesis fun steps stopped => by
        rw [← later steps]
        exact free (steps + 1) stopped
      exact ⟨steps + 1, by rw [later, reached]⟩
  | overflow within stopped =>
      rename_i state final
      exact absurd (by rw [Machine.run, stopped]) (free 1 state)

/-- A run that begins with a stretch is inside, or it has passed the stretch. -/
theorem Passes.visited {inside : State → Prop} {first last : State}
    (passes : Passes program inside first last) {steps : Nat} {state : State}
    (reached : Machine.run program steps first = .unfinished state) :
    inside state ∨ ∃ before behind, Machine.run program before first = .unfinished last ∧
      Machine.run program behind last = .unfinished state := by
  induction passes generalizing steps with
  | done start => exact Or.inr ⟨0, steps, rfl, reached⟩
  | step within once _ inductionHypothesis =>
      cases steps with
      | zero =>
          obtain rfl := Outcome.unfinished.inj reached
          exact Or.inl within
      | succ steps =>
          rw [Machine.run, once] at reached
          rcases inductionHypothesis reached with now | ⟨before, behind, passed, later⟩
          · exact Or.inl now
          · exact Or.inr ⟨before + 1, behind, by rw [Machine.run, once]; exact passed, later⟩
  | overflow within stopped =>
      cases steps with
      | zero =>
          obtain rfl := Outcome.unfinished.inj reached
          exact Or.inl within
      | succ steps =>
          rw [Machine.run, stopped] at reached
          simp at reached

theorem Follows.visited {Result : Type} {inside : State → Prop} {blame : State → Fault → Prop}
    {first : State} {outcome : Except Fault Result} {target : Result → State}
    (follows : Follows program inside blame first outcome target) {steps : Nat} {state : State}
    (reached : Machine.run program steps first = .unfinished state) :
    inside state ∨ ∃ result before behind, outcome = .ok result ∧
      Machine.run program before first = .unfinished (target result) ∧
      Machine.run program behind (target result) = .unfinished state := by
  cases outcome with
  | ok result =>
      rcases Passes.visited follows reached with now | ⟨before, behind, passed, later⟩
      · exact Or.inl now
      · exact Or.inr ⟨result, before, behind, rfl, passed, later⟩
  | error fault =>
      obtain ⟨last, passes, within, stopped, _⟩ := follows
      rcases passes.visited reached with now | ⟨before, behind, passed, later⟩
      · exact Or.inl now
      · left
        cases behind with
        | zero =>
            obtain rfl := Outcome.unfinished.inj later
            exact within
        | succ behind =>
            rw [Machine.run, stopped] at later
            simp at later

/-- A run that has come to its end has stopped at the limit of its operand stack, or it has passed the
stretch and ended as a step behind the stretch does. -/
theorem Passes.ended {inside : State → Prop} {first last : State}
    (passes : Passes program inside first last) {steps : Nat} {outcome behind : Outcome}
    (once : Machine.run program 1 last = behind)
    (closing : ∀ state, behind ≠ .unfinished state)
    (ran : Machine.run program steps first = outcome)
    (finished : ∀ state, outcome ≠ .unfinished state) :
    (∃ stopped, outcome = .faulted (.stackOverflow program.stackLimit) stopped) ∨
      outcome = behind := by
  induction passes generalizing steps with
  | done state =>
      right
      cases steps with
      | zero => exact absurd ran.symm (finished _)
      | succ steps =>
          rw [← ran]
          exact @run_ended program 0 _ state state behind rfl once closing (Nat.succ_pos steps)
  | step within next _ inductionHypothesis =>
      cases steps with
      | zero => exact absurd ran.symm (finished _)
      | succ steps =>
          rw [Machine.run, next] at ran
          exact inductionHypothesis once ran
  | overflow within stopped =>
      left
      cases steps with
      | zero => exact absurd ran.symm (finished _)
      | succ steps =>
          rw [Machine.run, stopped] at ran
          exact ⟨_, ran.symm⟩

end Runs

end Machine
end FragmentLisp
