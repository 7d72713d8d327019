import FragmentLisp.Proofs.Instruction.Jumps
import FragmentLisp.Proofs.StackDepth

/-!
Which constant or field an instruction names has no bearing on how the stack moves. Two runs of
instructions that differ in these numbers only take as many bytes, go on at the same offsets and need
the same stack.
-/

namespace FragmentLisp

namespace StackDepth

/-- Two codes that the analysis cannot tell apart where it comes: at each of a set of offsets both have an
instruction that moves the stack alike and goes on alike, within the set. -/
def Indistinct (code other : Array UInt8) (reaches : Nat → Prop) : Prop :=
  ∀ offset, reaches offset → offset < code.size →
    ∃ instruction counterpart, Instruction.decodeAt code offset = .ok instruction ∧
      Instruction.decodeAt other offset = .ok counterpart ∧
      counterpart.stackEffect = instruction.stackEffect ∧
      counterpart.successors offset = instruction.successors offset ∧
      ∀ next ∈ instruction.successors offset, reaches next

theorem explore_indistinct {code other : Array UInt8} {reaches : Nat → Prop} {heights : Heights}
    {pending : List (Nat × Nat)} {deepest : Nat} (indistinct : Indistinct code other reaches)
    (sized : heights.size = code.size) (waiting : ∀ entry ∈ pending, reaches entry.1) :
    explore other heights pending deepest = explore code heights pending deepest := by
  fun_induction explore code heights pending deepest with
  | case1 heights deepest => rw [explore]
  | case2 heights offset height pending deepest outside =>
      rw [explore_cons, outside]
  | case3 heights offset pending deepest height known inductionHypothesis =>
      rw [explore_cons, known]
      simp only [if_true]
      exact inductionHypothesis sized fun entry member => waiting entry (List.mem_cons_of_mem _ member)
  | case4 heights offset height pending deepest expected known different =>
      rw [explore_cons, known]
      simp only [different, if_false]
  | case5 heights offset height pending deepest fresh error failed =>
      have inside := (Array.getElem?_eq_some_iff.mp fresh).1
      obtain ⟨instruction, _, decoded, _⟩ :=
        indistinct offset (waiting _ List.mem_cons_self) (sized ▸ inside)
      rw [failed] at decoded
      cases decoded
  | case6 heights offset height pending deepest fresh instruction decoded short =>
      have inside := (Array.getElem?_eq_some_iff.mp fresh).1
      obtain ⟨own, counterpart, ownDecoded, otherDecoded, effect, _⟩ :=
        indistinct offset (waiting _ List.mem_cons_self) (sized ▸ inside)
      obtain rfl := Except.ok.inj (decoded.symm.trans ownDecoded)
      rw [explore_cons, fresh]
      simp only [otherDecoded, effect, short, if_true]
  | case7 heights offset height pending deepest fresh instruction decoded enough after reached
      inductionHypothesis =>
      have inside := (Array.getElem?_eq_some_iff.mp fresh).1
      obtain ⟨own, counterpart, ownDecoded, otherDecoded, effect, successors, onward⟩ :=
        indistinct offset (waiting _ List.mem_cons_self) (sized ▸ inside)
      obtain rfl := Except.ok.inj (decoded.symm.trans ownDecoded)
      rw [explore_cons, fresh]
      simp only [otherDecoded, effect, successors, enough, if_false, heightAfter]
      refine inductionHypothesis ?_ ?_
      · rw [Array.size_setIfInBounds, sized]
      · intro entry member
        rcases List.mem_append.mp member with new | old
        · obtain ⟨next, successor, rfl⟩ := List.mem_map.mp new
          exact onward next successor
        · exact waiting entry (List.mem_cons_of_mem _ old)

end StackDepth

namespace Instruction

def unnumbered : Instruction → Instruction
  | pushConstant _ => pushConstant 0
  | loadField _ => loadField 0
  | storeField _ => storeField 0
  | other => other

@[simp] theorem size_unnumbered (instruction : Instruction) :
    instruction.unnumbered.size = instruction.size := by
  cases instruction <;> rfl

@[simp] theorem stackEffect_unnumbered (instruction : Instruction) :
    instruction.unnumbered.stackEffect = instruction.stackEffect := by
  cases instruction <;> rfl

@[simp] theorem successors_unnumbered (instruction : Instruction) (offset : Nat) :
    instruction.unnumbered.successors offset = instruction.successors offset := by
  cases instruction <;> rfl

@[simp] theorem codeSize_unnumbered (instructions : List Instruction) :
    codeSize (instructions.map unnumbered) = codeSize instructions := by
  induction instructions with
  | nil => rfl
  | cons instruction rest inductionHypothesis =>
      rw [List.map_cons, codeSize_cons, codeSize_cons, size_unnumbered, inductionHypothesis]

theorem placed_unnumbered (base : Nat) (instructions : List Instruction) :
    placed base (instructions.map unnumbered) =
      (placed base instructions).map fun entry => (entry.1, entry.2.unnumbered) := by
  induction instructions generalizing base with
  | nil => rfl
  | cons instruction rest inductionHypothesis =>
      rw [List.map_cons, placed, placed, size_unnumbered, inductionHypothesis, List.map_cons]

def JumpsWithin (instructions : List Instruction) : Prop :=
  ∀ entry ∈ placed 0 instructions, ∀ target, entry.2.jumpTarget? = some target →
    ∃ instruction, (target, instruction) ∈ placed 0 instructions

theorem maxStackDepth_unnumbered {instructions : List Instruction}
    (within : JumpsWithin instructions) :
    maxStackDepth (encodeAll (instructions.map unnumbered)).toArray =
      maxStackDepth (encodeAll instructions).toArray := by
  have held := holds_encodeAll instructions
  have otherHeld := holds_encodeAll (instructions.map unnumbered)
  have sizes : (encodeAll (instructions.map unnumbered)).toArray.size =
      (encodeAll instructions).toArray.size := by
    rw [size_encodeAll, size_encodeAll, codeSize_unnumbered]
  have indistinct : StackDepth.Indistinct (encodeAll instructions).toArray
      (encodeAll (instructions.map unnumbered)).toArray (Boundary 0 instructions) := by
    intro offset reached inside
    rw [size_encodeAll] at inside
    obtain ⟨instruction, member⟩ := reached.resolve_right (by omega)
    have counterpart : (offset, instruction.unnumbered) ∈
        placed 0 (instructions.map unnumbered) := by
      rw [placed_unnumbered]
      exact List.mem_map.mpr ⟨_, member, rfl⟩
    refine ⟨instruction, instruction.unnumbered, (held _ member).2, (otherHeld _ counterpart).2,
      stackEffect_unnumbered _, successors_unnumbered _ _, ?_⟩
    intro next successor
    rw [successors, List.mem_append] at successor
    rcases successor with following | jumped
    · split at following
      · obtain rfl : next = offset + instruction.size := by simpa using following
        exact placed_next member
      · simp at following
    · exact Or.inl (within _ member next (Option.mem_toList.mp jumped))
  unfold maxStackDepth
  rw [sizes]
  refine StackDepth.explore_indistinct indistinct Array.size_replicate ?_
  intro entry member
  obtain rfl := List.mem_singleton.mp member
  exact boundary_start 0 instructions

/-- Two runs that differ in numbers only need the same stack. -/
theorem maxStackDepth_alike {first second : List Instruction} (within : JumpsWithin first)
    (otherWithin : JumpsWithin second) (alike : first.map unnumbered = second.map unnumbered) :
    maxStackDepth (encodeAll first).toArray = maxStackDepth (encodeAll second).toArray := by
  rw [← maxStackDepth_unnumbered within, ← maxStackDepth_unnumbered otherWithin, alike]

end Instruction
end FragmentLisp
