import FragmentLisp.Proofs.Instruction.Placement

/-!
Runs of instructions whose jumps go forward, each to an instruction of the run, to its end or to one of
some exits outside. Such runs can be put one behind the other, and a run whose exits lie inside it needs
none.
-/

namespace FragmentLisp
namespace Instruction

/-- An offset at which an instruction of the run begins, or at which the run ends. -/
def Boundary (base : Nat) (code : List Instruction) (offset : Nat) : Prop :=
  (∃ instruction, (offset, instruction) ∈ placed base code) ∨ offset = base + codeSize code

theorem boundary_start (base : Nat) (code : List Instruction) : Boundary base code base := by
  cases code with
  | nil => exact Or.inr rfl
  | cons instruction rest => exact Or.inl ⟨instruction, List.mem_cons_self⟩

theorem boundary_right {base offset : Nat} {left right : List Instruction}
    (boundary : Boundary (base + codeSize left) right offset) :
    Boundary base (left ++ right) offset := by
  rcases boundary with ⟨instruction, member⟩ | ended
  · exact Or.inl ⟨instruction, by rw [placed_append]; exact List.mem_append_right _ member⟩
  · exact Or.inr (by rw [ended, codeSize_append, Nat.add_assoc])

theorem boundary_left {base offset : Nat} {left right : List Instruction}
    (boundary : Boundary base left offset) : Boundary base (left ++ right) offset := by
  rcases boundary with ⟨instruction, member⟩ | ended
  · exact Or.inl ⟨instruction, by rw [placed_append]; exact List.mem_append_left _ member⟩
  · rw [ended]
    exact boundary_right (boundary_start _ _)

theorem placed_of_boundary {base offset : Nat} {code more : List Instruction} (following : more ≠ [])
    (boundary : Boundary base code offset) :
    ∃ instruction, (offset, instruction) ∈ placed base (code ++ more) := by
  rw [placed_append]
  rcases boundary with ⟨instruction, member⟩ | rfl
  · exact ⟨instruction, List.mem_append_left _ member⟩
  · cases more with
    | nil => exact absurd rfl following
    | cons first rest => exact ⟨first, List.mem_append_right _ List.mem_cons_self⟩

/-- All instructions of the run are allowed ones, and its jumps go forward to boundaries or exits. -/
def Directed (allowed : Instruction → Prop) (exits : Nat → Prop) (base : Nat)
    (code : List Instruction) : Prop :=
  ∀ entry ∈ placed base code, allowed entry.2 ∧
    ∀ target, entry.2.jumpTarget? = some target →
      entry.1 < target ∧ (Boundary base code target ∨ exits target)

namespace Directed

variable {allowed : Instruction → Prop} {exits : Nat → Prop} {base : Nat}

theorem nil (allowed : Instruction → Prop) (exits : Nat → Prop) (base : Nat) :
    Directed allowed exits base [] := by
  intro entry member
  simp [placed] at member

theorem append {left right : List Instruction} (leftDirected : Directed allowed exits base left)
    (rightDirected : Directed allowed exits (base + codeSize left) right) :
    Directed allowed exits base (left ++ right) := by
  intro entry member
  rw [placed_append, List.mem_append] at member
  rcases member with inLeft | inRight
  · obtain ⟨fine, jumps⟩ := leftDirected entry inLeft
    refine ⟨fine, fun target jump => ?_⟩
    obtain ⟨forward, reached⟩ := jumps target jump
    exact ⟨forward, reached.imp boundary_left id⟩
  · obtain ⟨fine, jumps⟩ := rightDirected entry inRight
    refine ⟨fine, fun target jump => ?_⟩
    obtain ⟨forward, reached⟩ := jumps target jump
    exact ⟨forward, reached.imp boundary_right id⟩

theorem cons {instruction : Instruction} {rest : List Instruction}
    (first : Directed allowed exits base [instruction])
    (others : Directed allowed exits (base + instruction.size) rest) :
    Directed allowed exits base (instruction :: rest) :=
  @append allowed exits base [instruction] rest first others

theorem plain {instruction : Instruction} (fine : allowed instruction)
    (straight : instruction.jumpTarget? = none) : Directed allowed exits base [instruction] := by
  intro entry member
  obtain rfl : entry = (base, instruction) := List.mem_singleton.mp member
  refine ⟨fine, fun target jump => ?_⟩
  rw [straight] at jump
  simp at jump

theorem jump {instruction : Instruction} {exit : Nat} (fine : allowed instruction)
    (target : instruction.jumpTarget? = some exit) (forward : base < exit) (open_exit : exits exit) :
    Directed allowed exits base [instruction] := by
  intro entry member
  obtain rfl : entry = (base, instruction) := List.mem_singleton.mp member
  refine ⟨fine, fun other same => ?_⟩
  obtain rfl : exit = other := Option.some.inj (target.symm.trans same)
  exact ⟨forward, Or.inr open_exit⟩

theorem relax {code : List Instruction} {other : Instruction → Prop}
    (directed : Directed allowed exits base code)
    (weaker : ∀ instruction, allowed instruction → other instruction) :
    Directed other exits base code :=
  fun entry member => ⟨weaker entry.2 (directed entry member).1, (directed entry member).2⟩

theorem close {code : List Instruction} {outer : Nat → Prop}
    (directed : Directed allowed exits base code)
    (inside : ∀ target, exits target → Boundary base code target) :
    Directed allowed outer base code := by
  intro entry member
  obtain ⟨fine, jumps⟩ := directed entry member
  refine ⟨fine, fun target jump => ?_⟩
  obtain ⟨forward, reached⟩ := jumps target jump
  exact ⟨forward, Or.inl (reached.elim id (inside target))⟩

end Directed
end Instruction
end FragmentLisp
