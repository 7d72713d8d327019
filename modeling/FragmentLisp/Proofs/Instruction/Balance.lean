import FragmentLisp.Proofs.Machine.Forward
import FragmentLisp.Proofs.StackDepth

/-!
Runs of instructions that agree on how high the operand stack is. Every offset of such a run has a level,
and whichever way execution goes on, it comes to an offset at the level of that offset. Balanced runs can
be put one behind the other. The stack analysis succeeds on a balanced run that is never left and finds
nothing above the peak of its levels.

Levels do not tell which offsets execution comes to. That is told by what a run carries: a relation of
offsets and heights that holds wherever execution can go on from where it holds.
-/

namespace FragmentLisp
namespace Instruction

open StackDepth (heightAfter)

theorem boundary_within {base offset : Nat} {code : List Instruction}
    (boundary : Boundary base code offset) : base ≤ offset ∧ offset ≤ base + codeSize code := by
  rcases boundary with ⟨instruction, member⟩ | rfl
  · have bounds := placed_within member
    simp only at bounds
    omega
  · omega

/-- Each instruction of the run finds its operands at its own level. It goes on where the level is the
height that it leaves, or by an exit. -/
def Levels (exits : Nat → Nat → Prop) (base : Nat) (code : List Instruction) (level : Nat → Nat) :
    Prop :=
  ∀ entry ∈ placed base code, entry.2.stackEffect.1 ≤ level entry.1 ∧
    ∀ next ∈ entry.2.successors entry.1,
      (Boundary base code next ∧ level next = heightAfter entry.2 (level entry.1)) ∨
        exits next (heightAfter entry.2 (level entry.1))

/-- The run takes the stack from one height at its start to another at its end, and no level of it is above
the peak. -/
def Balanced (exits : Nat → Nat → Prop) (base start finish peak : Nat) (code : List Instruction) : Prop :=
  ∃ level : Nat → Nat, level base = start ∧ level (base + codeSize code) = finish ∧
    (∀ offset, level offset ≤ peak) ∧ Levels exits base code level

namespace Balanced

variable {exits : Nat → Nat → Prop} {base start middle finish peak : Nat}

theorem nil (exits : Nat → Nat → Prop) (base : Nat) {height : Nat} (below : height ≤ peak) :
    Balanced exits base height height peak [] := by
  refine ⟨fun _ => height, rfl, rfl, fun _ => below, ?_⟩
  intro entry member
  simp [placed] at member

/-- One instruction. What is behind it matters only if execution can go on there. -/
theorem single {instruction : Instruction} (enough : instruction.stackEffect.1 ≤ start)
    (through : instruction.fallsThrough = true → heightAfter instruction start = finish)
    (jumps : ∀ target, instruction.jumpTarget? = some target →
      exits target (heightAfter instruction start))
    (first : start ≤ peak) (last : finish ≤ peak) :
    Balanced exits base start finish peak [instruction] := by
  have positive := instruction.size_positive
  let level := fun offset => if offset = base then start else finish
  have here : level base = start := if_pos rfl
  have behind : level (base + instruction.size) = finish := if_neg (by omega)
  have below : ∀ offset, level offset ≤ peak := by
    intro offset
    dsimp only [level]
    split <;> assumption
  refine ⟨level, here, behind, below, ?_⟩
  intro entry member
  obtain rfl : entry = (base, instruction) := List.mem_singleton.mp member
  simp only [here]
  refine ⟨enough, fun next successor => ?_⟩
  rcases mem_successors.mp successor with ⟨falls, rfl⟩ | jumped
  · exact Or.inl ⟨Or.inr rfl, by rw [behind, through falls]⟩
  · exact Or.inr (jumps next jumped)

theorem plain {instruction : Instruction} (straight : instruction.jumpTarget? = none)
    (enough : instruction.stackEffect.1 ≤ start)
    (leaves : heightAfter instruction start = finish) (first : start ≤ peak) (last : finish ≤ peak) :
    Balanced exits base start finish peak [instruction] := by
  refine single enough (fun _ => leaves) (fun target jump => ?_) first last
  rw [straight] at jump
  simp at jump

/-- Behind a jump the stack may have any height, because nothing gets there from it. -/
theorem jump {destination : UInt32} (leaves : exits destination.toNat start) (first : start ≤ peak)
    (last : finish ≤ peak) : Balanced exits base start finish peak [.jump destination] := by
  have stops : Instruction.fallsThrough (.jump destination) ≠ true := Bool.false_ne_true
  refine single (Nat.zero_le start) (fun through => absurd through stops) (fun target jump => ?_)
    first last
  obtain rfl := Option.some.inj jump
  exact leaves

theorem append {left right : List Instruction} (first : Balanced exits base start middle peak left)
    (second : Balanced exits (base + codeSize left) middle finish peak right) :
    Balanced exits base start finish peak (left ++ right) := by
  obtain ⟨leftLevel, leftStart, leftEnd, leftBelow, leftHolds⟩ := first
  obtain ⟨rightLevel, rightStart, rightEnd, rightBelow, rightHolds⟩ := second
  let joined := fun offset => if offset < base + codeSize left then leftLevel offset else rightLevel offset
  have onLeft : ∀ offset, offset ≤ base + codeSize left → joined offset = leftLevel offset := by
    intro offset below
    by_cases inside : offset < base + codeSize left
    · exact if_pos inside
    · obtain rfl : offset = base + codeSize left := by omega
      exact (if_neg inside).trans (rightStart.trans leftEnd.symm)
  have onRight : ∀ offset, base + codeSize left ≤ offset → joined offset = rightLevel offset :=
    fun offset above => if_neg (Nat.not_lt.mpr above)
  refine ⟨joined, ?_, ?_, ?_, ?_⟩
  · rw [onLeft base (Nat.le_add_right _ _), leftStart]
  · rw [codeSize_append, ← Nat.add_assoc, onRight _ (Nat.le_add_right _ _), rightEnd]
  · intro offset
    rcases Nat.le_total offset (base + codeSize left) with before | behind
    · exact onLeft offset before ▸ leftBelow offset
    · exact onRight offset behind ▸ rightBelow offset
  · intro entry member
    rw [placed_append, List.mem_append] at member
    rcases member with inLeft | inRight
    · have within := placed_within inLeft
      obtain ⟨enough, onward⟩ := leftHolds entry inLeft
      rw [onLeft entry.1 (by omega)]
      refine ⟨enough, fun next successor => (onward next successor).imp_left ?_⟩
      rintro ⟨boundary, level⟩
      exact ⟨boundary_left boundary, by rw [onLeft next (boundary_within boundary).2, level]⟩
    · have within := placed_within inRight
      obtain ⟨enough, onward⟩ := rightHolds entry inRight
      rw [onRight entry.1 within.1]
      refine ⟨enough, fun next successor => (onward next successor).imp_left ?_⟩
      rintro ⟨boundary, level⟩
      exact ⟨boundary_right boundary, by rw [onRight next (boundary_within boundary).1, level]⟩

theorem cons {instruction : Instruction} {rest : List Instruction}
    (first : Balanced exits base start middle peak [instruction])
    (others : Balanced exits (base + instruction.size) middle finish peak rest) :
    Balanced exits base start finish peak (instruction :: rest) :=
  append first others

/-- An exit to the end of the run, taken at the height that the run ends with, is none. -/
theorem close {code : List Instruction} {exit : Nat} (ended : exit = base + codeSize code)
    (balanced : Balanced (fun next height => exits next height ∨ (next = exit ∧ height = finish))
      base start finish peak code) :
    Balanced exits base start finish peak code := by
  obtain ⟨level, first, last, below, holds⟩ := balanced
  refine ⟨level, first, last, below, fun entry member => ?_⟩
  obtain ⟨enough, onward⟩ := holds entry member
  refine ⟨enough, fun next successor => ?_⟩
  rcases onward next successor with inside | outside | ⟨rfl, height⟩
  · exact Or.inl inside
  · exact Or.inr outside
  · exact Or.inl ⟨Or.inr ended, by rw [ended, last, height]⟩

theorem finish_le {code : List Instruction} (balanced : Balanced exits base start finish peak code) :
    finish ≤ peak := by
  obtain ⟨level, _, rfl, below, _⟩ := balanced
  exact below _

theorem raise {code : List Instruction} {more : Nat}
    (balanced : Balanced exits base start finish peak code) (higher : peak ≤ more) :
    Balanced exits base start finish more code := by
  obtain ⟨level, first, last, below, holds⟩ := balanced
  exact ⟨level, first, last, fun offset => Nat.le_trans (below offset) higher, holds⟩

theorem heightAfter_le_of_ending {instruction : Instruction} {offset : Nat}
    (ending : instruction.successors offset = []) (height : Nat) :
    heightAfter instruction height ≤ height := by
  cases instruction with
  | «return» | returnVoid => simp [heightAfter, stackEffect]
  | _ => simp [successors, fallsThrough, jumpTarget?] at ending

/-- The stack analysis accepts a balanced run that execution never leaves, and finds nothing above its
peak. -/
theorem analysed {code : List Instruction}
    (balanced : Balanced (fun _ _ => False) 0 0 finish peak code) (confined : Machine.Confined code) :
    ∃ needed, maxStackDepth (encodeAll code).toArray = .ok needed ∧ needed ≤ peak := by
  obtain ⟨level, first, _, below, holds⟩ := balanced
  have held := holds_encodeAll code
  have assigns : StackDepth.Assigns (encodeAll code).toArray
      (fun offset => ∃ instruction, (offset, instruction) ∈ placed 0 code) level := by
    rintro offset ⟨instruction, member⟩
    obtain ⟨inside, decoded⟩ := held _ member
    obtain ⟨enough, onward⟩ := holds _ member
    refine ⟨inside, instruction, decoded, enough, fun next successor => ?_⟩
    exact ⟨(confined.onward _ member next successor).2,
      ((onward next successor).resolve_right id).2⟩
  have start : ∃ instruction, (0, instruction) ∈ placed 0 code := by
    cases code with
    | nil => exact absurd rfl confined.ne_nil
    | cons instruction rest => exact ⟨instruction, List.mem_cons_self⟩
  obtain ⟨needed, measured⟩ := maxStackDepth_succeeds assigns start first
  refine ⟨needed, measured, ?_⟩
  refine @StackDepth.explore_bounded _ _ _ _ _ _ (fun offset height =>
    level offset = height ∧ ∃ instruction, (offset, instruction) ∈ placed 0 code) ?_ measured ?_
    (Nat.zero_le peak)
  · rintro offset height ⟨rfl, reached⟩ instruction decoded
    obtain ⟨_, other, decodedAgain, _, onward⟩ := assigns offset reached
    obtain rfl := Except.ok.inj (decoded.symm.trans decodedAgain)
    refine ⟨?_, fun next successor => ⟨(onward next successor).2, (onward next successor).1⟩⟩
    cases successors : instruction.successors offset with
    | nil => exact Nat.le_trans (heightAfter_le_of_ending successors _) (below offset)
    | cons next others =>
        have level := (onward next (successors ▸ List.mem_cons_self)).2
        exact level ▸ below next
  · intro entry member
    obtain rfl := List.mem_singleton.mp member
    exact ⟨first, start⟩

end Balanced

def Carries (reached : Nat → Nat → Prop) (base : Nat) (code : List Instruction) : Prop :=
  ∀ entry ∈ placed base code, ∀ height, reached entry.1 height → entry.2.stackEffect.1 ≤ height →
    ∀ next ∈ entry.2.successors entry.1, reached next (heightAfter entry.2 height)

namespace Carries

variable {reached : Nat → Nat → Prop} {base height : Nat}

theorem append_iff {left right : List Instruction} :
    Carries reached base (left ++ right) ↔
      Carries reached base left ∧ Carries reached (base + codeSize left) right := by
  simp only [Carries, placed_append, List.forall_mem_append]

theorem behind {instruction : Instruction} {rest : List Instruction}
    (carries : Carries reached base (instruction :: rest)) :
    Carries reached (base + instruction.size) rest :=
  fun entry member => carries entry (List.mem_cons_of_mem _ member)

variable {instruction : Instruction} {rest : List Instruction}
variable (carries : Carries reached base (instruction :: rest))

include carries

theorem through (falls : instruction.fallsThrough = true) (found : reached base height)
    (enough : instruction.stackEffect.1 ≤ height) :
    reached (base + instruction.size) (heightAfter instruction height) :=
  carries _ List.mem_cons_self height found enough _ (mem_successors.mpr (Or.inl ⟨falls, rfl⟩))

theorem jumped {target : Nat} (jumps : instruction.jumpTarget? = some target)
    (found : reached base height) (enough : instruction.stackEffect.1 ≤ height) :
    reached target (heightAfter instruction height) :=
  carries _ List.mem_cons_self height found enough _ (mem_successors.mpr (Or.inr jumps))

end Carries
end Instruction
end FragmentLisp
