import FragmentLisp.Proofs.Instruction.Jumps
import FragmentLisp.Proofs.Machine.Effect

/-!
Code whose jumps all go forward. Whatever limit the operand stack has, a run of it comes to each offset at
most once, and it leaves the fields alone if no instruction stores one. If it cannot run past the end
either, a run takes no more steps than there are instructions.
-/

namespace FragmentLisp
namespace Machine

open Instruction (Holds Directed Boundary placed)

def SparesFields (instruction : Instruction) : Prop :=
  ∀ index, instruction ≠ .storeField index

structure Onward (instruction : Instruction) (before after : State) : Prop where
  successor : after.offset ∈ instruction.successors before.offset
  locals : after.locals.size = before.locals.size
  fields : SparesFields instruction → after.fields = before.fields

theorem attempt_running {Result : Type} {state next : State} {result : Except Fault Result}
    {continuation : Result → Step} (running : attempt state result continuation = .running next) :
    ∃ value, continuation value = .running next := by
  cases result with
  | ok value => exact ⟨value, running⟩
  | error fault => simp [attempt] at running

theorem onward_of_leave {program : Program} {before after : State} {instruction : Instruction}
    {stack : OperandStack} {value : Value} (falls : instruction.fallsThrough = true)
    (running : leave program before (before.offset + instruction.size) stack value =
      .running after) : Onward instruction before after := by
  obtain ⟨_, left⟩ := attempt_running running
  obtain rfl := Step.running.inj left
  exact ⟨continues before.offset falls, rfl, fun _ => rfl⟩

theorem onward_of_perform {program : Program} {before after : State} {instruction : Instruction}
    (running : perform program before instruction = .running after) :
    Onward instruction before after := by
  cases instruction with
  | pushInteger value => exact onward_of_leave rfl running
  | pushBoolean value => exact onward_of_leave rfl running
  | pushNil => exact onward_of_leave rfl running
  | pushConstant index =>
      simp only [perform] at running
      split at running
      · exact onward_of_leave rfl running
      · simp at running
  | pop =>
      obtain ⟨popped, left⟩ := attempt_running running
      obtain rfl := Step.running.inj left
      exact ⟨continues before.offset rfl, rfl, fun _ => rfl⟩
  | arithmetic op =>
      obtain ⟨popped, applied⟩ := attempt_running running
      obtain ⟨result, left⟩ := attempt_running applied
      exact onward_of_leave rfl left
  | negate =>
      obtain ⟨popped, checked⟩ := attempt_running running
      obtain ⟨value, negated⟩ := attempt_running checked
      obtain ⟨result, left⟩ := attempt_running negated
      exact onward_of_leave rfl left
  | equal =>
      obtain ⟨upper, rest⟩ := attempt_running running
      obtain ⟨lower, left⟩ := attempt_running rest
      exact onward_of_leave rfl left
  | order op =>
      obtain ⟨popped, left⟩ := attempt_running running
      exact onward_of_leave rfl left
  | not =>
      obtain ⟨popped, left⟩ := attempt_running running
      exact onward_of_leave rfl left
  | jumpIfFalse target =>
      obtain ⟨⟨condition, stack⟩, left⟩ := attempt_running running
      obtain rfl := Step.running.inj left
      refine ⟨?_, rfl, fun _ => rfl⟩
      by_cases truthy : condition.isTruthy <;>
        simp [Instruction.successors, Instruction.fallsThrough, Instruction.jumpTarget?, truthy]
  | jump target =>
      obtain rfl := Step.running.inj running
      refine ⟨?_, rfl, fun _ => rfl⟩
      simp [Instruction.successors, Instruction.fallsThrough, Instruction.jumpTarget?]
  | storeLocal slot =>
      obtain ⟨popped, stored⟩ := attempt_running running
      simp only at stored
      split at stored
      · obtain rfl := Step.running.inj stored
        exact ⟨continues before.offset rfl, Array.size_setIfInBounds, fun _ => rfl⟩
      · simp at stored
  | loadLocal slot =>
      simp only [perform] at running
      split at running
      · exact onward_of_leave rfl running
      · simp at running
  | storeField index =>
      obtain ⟨popped, stored⟩ := attempt_running running
      simp only at stored
      split at stored
      · obtain rfl := Step.running.inj stored
        exact ⟨continues before.offset rfl, rfl, fun spared => absurd rfl (spared index)⟩
      · simp at stored
  | loadField index =>
      simp only [perform] at running
      split at running
      · exact onward_of_leave rfl running
      · simp at running
  | concat parts =>
      obtain ⟨popped, left⟩ := attempt_running running
      exact onward_of_leave rfl left
  | count =>
      obtain ⟨⟨operand, stack⟩, left⟩ := attempt_running running
      cases operand with
      | string text => exact onward_of_leave rfl left
      | _ => simp at left
  | print newline =>
      obtain ⟨popped, left⟩ := attempt_running running
      obtain rfl := Step.running.inj left
      exact ⟨continues before.offset rfl, rfl, fun _ => rfl⟩
  | «return» =>
      obtain ⟨popped, left⟩ := attempt_running running
      simp at left
  | returnVoid => simp [perform] at running

section Runs

variable {program : Program} {code : List Instruction}

theorem onward_of_step (held : Holds program.code 0 code) {state next : State}
    {instruction : Instruction} (member : (state.offset, instruction) ∈ placed 0 code)
    (once : step program state = .running next) : Onward instruction state next := by
  obtain ⟨inside, decoded⟩ := held _ member
  unfold step at once
  rw [if_pos inside, decoded] at once
  exact onward_of_perform once

theorem step_forward (held : Holds program.code 0 code) (whole : program.code.size = codeSize code)
    (directed : Directed SparesFields (fun _ => False) 0 code) {state next : State}
    (boundary : Boundary 0 code state.offset) (once : step program state = .running next) :
    Boundary 0 code next.offset ∧ state.offset < next.offset ∧
      next.locals.size = state.locals.size ∧ next.fields = state.fields := by
  rcases boundary with ⟨instruction, member⟩ | ended
  · obtain ⟨successor, locals, fields⟩ := onward_of_step held member once
    obtain ⟨spares, jumps⟩ := directed _ member
    rcases Instruction.mem_successors.mp successor with ⟨_, following⟩ | jumped
    · have positive := instruction.size_positive
      refine ⟨?_, by omega, locals, fields spares⟩
      rw [following]
      rcases Instruction.placed_next member with ⟨other, found⟩ | last
      · exact Or.inl ⟨other, found⟩
      · exact Or.inr last
    · obtain ⟨forward, reached⟩ := jumps next.offset jumped
      exact ⟨reached.resolve_right id, forward, locals, fields spares⟩
  · unfold step at once
    rw [if_neg (by omega)] at once
    simp at once

/-- Every step of a run takes it further. -/
theorem run_forward (held : Holds program.code 0 code) (whole : program.code.size = codeSize code)
    (directed : Directed SparesFields (fun _ => False) 0 code) {steps : Nat} {state last : State}
    (boundary : Boundary 0 code state.offset)
    (reached : run program steps state = .unfinished last) :
    Boundary 0 code last.offset ∧ state.offset + steps ≤ last.offset ∧
      last.locals.size = state.locals.size ∧ last.fields = state.fields := by
  induction steps generalizing state with
  | zero =>
      obtain rfl := Outcome.unfinished.inj reached
      exact ⟨boundary, Nat.le_refl _, rfl, rfl⟩
  | succ steps inductionHypothesis =>
      rw [run] at reached
      cases once : step program state with
      | running next =>
          rw [once] at reached
          obtain ⟨nextBoundary, further, locals, fields⟩ :=
            step_forward held whole directed boundary once
          obtain ⟨lastBoundary, more, lastLocals, lastFields⟩ :=
            inductionHypothesis nextBoundary reached
          exact ⟨lastBoundary, by omega, lastLocals.trans locals, lastFields.trans fields⟩
      | returned value? final => simp [once] at reached
      | faulted fault stopped => simp [once] at reached

end Runs

/-! Runs that stay among the instructions. -/

/-- Code that a run never leaves: wherever an instruction goes on, another one stands, later on. -/
structure Confined (code : List Instruction) : Prop where
  ne_nil : code ≠ []
  onward : ∀ entry ∈ placed 0 code, ∀ target ∈ entry.2.successors entry.1,
    entry.1 < target ∧ ∃ instruction, (target, instruction) ∈ placed 0 code

/-- Straight code that ends the method. -/
structure Closing (code : List Instruction) : Prop where
  straight : ∀ instruction ∈ code, instruction.jumpTarget? = none
  ends : ∃ last, code.getLast? = some last ∧ last.fallsThrough = false

theorem Closing.ne_nil {code : List Instruction} (closing : Closing code) : code ≠ [] := by
  rintro rfl
  obtain ⟨last, ends, _⟩ := closing.ends
  simp at ends

/-- Code that goes forward and is followed by straight code that ends the method never runs past the
end. -/
theorem confined_of_directed {allowed : Instruction → Prop} {code ending : List Instruction}
    (directed : Directed allowed (fun _ => False) 0 code) (closing : Closing ending) :
    Confined (code ++ ending) := by
  obtain ⟨last, ends, closed⟩ := closing.ends
  refine ⟨by simp [closing.ne_nil], ?_⟩
  intro entry member target successor
  rcases Instruction.mem_successors.mp successor with ⟨falls, rfl⟩ | jumped
  · have positive := entry.2.size_positive
    refine ⟨by omega, (Instruction.placed_next member).resolve_right fun behind => ?_⟩
    have same := Instruction.getLast_of_placed member behind
    rw [List.getLast?_append, ends, Option.some_or] at same
    rw [← Option.some.inj same, closed] at falls
    simp at falls
  · rw [Instruction.placed_append, List.mem_append] at member
    rcases member with inCode | inEnding
    · obtain ⟨forward, reached⟩ := (directed entry inCode).2 target jumped
      exact ⟨forward, Instruction.placed_of_boundary closing.ne_nil (reached.resolve_right id)⟩
    · rw [closing.straight _ (Instruction.mem_of_placed inEnding)] at jumped
      simp at jumped

section Termination

variable {program : Program} {code : List Instruction}

def ahead (code : List Instruction) (offset : Nat) : List (Nat × Instruction) :=
  (placed 0 code).filter fun entry => offset ≤ entry.1

theorem ahead_length_le (code : List Instruction) (offset : Nat) :
    (ahead code offset).length ≤ code.length :=
  Instruction.placed_length 0 code ▸ List.length_filter_le _ _

theorem ahead_lt {offset target : Nat} {instruction : Instruction}
    (member : (offset, instruction) ∈ placed 0 code) (forward : offset < target) :
    (ahead code target).length < (ahead code offset).length := by
  have fewer : ahead code target =
      (ahead code offset).filter fun entry => target ≤ entry.1 := by
    rw [ahead, ahead, List.filter_filter]
    refine List.filter_congr fun entry _ => ?_
    rw [← Bool.decide_and]
    exact decide_eq_decide.mpr ⟨fun above => ⟨above, by omega⟩, fun both => both.1⟩
  rw [fewer, List.length_filter_lt_length_iff_exists]
  exact ⟨(offset, instruction), List.mem_filter.mpr ⟨member, by simp⟩, by simpa using forward⟩

/-- A run of confined code stops after at most as many steps as there are instructions ahead. -/
theorem run_stops_ahead (held : Holds program.code 0 code) (confined : Confined code) {steps : Nat}
    {state : State} (placed : ∃ instruction, (state.offset, instruction) ∈ placed 0 code)
    (enough : (ahead code state.offset).length ≤ steps) (last : State) :
    run program steps state ≠ .unfinished last := by
  obtain ⟨instruction, member⟩ := placed
  induction steps generalizing state instruction with
  | zero =>
      have fewer := ahead_lt member (Nat.lt_succ_self state.offset)
      omega
  | succ steps inductionHypothesis =>
      rw [run]
      cases once : step program state with
      | running next =>
          obtain ⟨successor, _, _⟩ := onward_of_step held member once
          obtain ⟨forward, other, found⟩ := confined.onward _ member _ successor
          have fewer := ahead_lt member forward
          exact inductionHypothesis (by omega) other found
      | returned value? final => simp
      | faulted fault stopped => simp

theorem run_stops (held : Holds program.code 0 code) (confined : Confined code) {steps : Nat}
    {state : State} (start : state.offset = 0) (enough : code.length ≤ steps) (last : State) :
    run program steps state ≠ .unfinished last := by
  have first : ∃ instruction, (state.offset, instruction) ∈ placed 0 code := by
    rw [start]
    cases code with
    | nil => exact absurd rfl confined.ne_nil
    | cons instruction rest => exact ⟨instruction, List.mem_cons_self⟩
  exact run_stops_ahead held confined first (Nat.le_trans (ahead_length_le code _) enough) last

end Termination

end Machine
end FragmentLisp
