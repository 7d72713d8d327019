import FragmentLisp.StackDepth
import Mathlib.Algebra.GroupWithZero.Nat

/-!
What the stack analysis has found when it succeeds: heights for a set of offsets that no instruction at
one of them leads out of. The bound that it gives is the largest height any of these instructions
leaves, and never exceeds the number of bytes of the code. Where there are such heights the analysis does
succeed.
-/

namespace FragmentLisp
namespace StackDepth

def heightAfter (instruction : Instruction) (height : Nat) : Nat :=
  height - instruction.stackEffect.1 + instruction.stackEffect.2

theorem explore_cons (code : Array UInt8) (heights : Heights) (offset height : Nat)
    (pending : List (Nat × Nat)) (deepest : Nat) :
    explore code heights ((offset, height) :: pending) deepest =
      match heights[offset]? with
      | none => .error .fallsOffEnd
      | some (some expected) =>
          if expected = height then explore code heights pending deepest
          else .error (.inconsistent offset expected height)
      | some none =>
          match Instruction.decodeAt code offset with
          | .error error => .error (.undecodable error)
          | .ok instruction =>
              if height < instruction.stackEffect.1 then .error (.underflow offset)
              else
                explore code (heights.setIfInBounds offset (some height))
                  ((instruction.successors offset).map
                    (fun next => (next, heightAfter instruction height)) ++ pending)
                  (max deepest (heightAfter instruction height)) := by
  rw [explore]
  split
  · rename_i outside
    rw [outside]
  · rename_i expected seen
    rw [seen]
  · rename_i fresh
    rw [fresh]
    rfl

/-- At an offset with a height stands an instruction that finds its operands, leaves no more than the
bound, and goes on only to offsets that are recorded with the height it leaves. -/
def Closed (code : Array UInt8) (heights : Heights) (bound offset height : Nat) : Prop :=
  ∃ instruction, Instruction.decodeAt code offset = .ok instruction ∧
    instruction.stackEffect.1 ≤ height ∧ heightAfter instruction height ≤ bound ∧
    ∀ next ∈ instruction.successors offset,
      heights[next]? = some (some (heightAfter instruction height))

/-- Heights that an analysis may end with: every recorded one is closed, save those given before. -/
structure Completes (code : Array UInt8) (earlier heights : Heights) (bound : Nat) : Prop where
  size : heights.size = earlier.size
  extends_earlier : ∀ offset height : Nat,
    earlier[offset]? = some (some height) → heights[offset]? = some (some height)
  closed : ∀ offset height : Nat, heights[offset]? = some (some height) →
    earlier[offset]? = some (some height) ∨ Closed code heights bound offset height

theorem record_self {heights : Heights} {offset : Nat} (height : Nat)
    (fresh : heights[offset]? = some none) :
    (heights.setIfInBounds offset (some height))[offset]? = some (some height) := by
  obtain ⟨inside, _⟩ := Array.getElem?_eq_some_iff.mp fresh
  simp [inside]

theorem record_other {heights : Heights} {offset other : Nat} (height : Nat)
    (different : offset ≠ other) :
    (heights.setIfInBounds offset (some height))[other]? = heights[other]? := by
  simp [different]

theorem stackEffect_pushes_le (instruction : Instruction) : instruction.stackEffect.2 ≤ 1 := by
  cases instruction <;> simp [Instruction.stackEffect]

/-- A successful analysis has recorded all pending offsets with their heights, and every offset that it
recorded itself is closed. -/
theorem explore_completes
    {code : Array UInt8} {heights : Heights} {pending : List (Nat × Nat)} {deepest bound : Nat}
    (found : explore code heights pending deepest = .ok bound) :
    deepest ≤ bound ∧ ∃ final, Completes code heights final bound ∧
      ∀ entry ∈ pending, final[entry.1]? = some (some entry.2) := by
  fun_induction explore code heights pending deepest with
  | case1 heights deepest =>
      obtain rfl : deepest = bound := Except.ok.inj found
      refine ⟨Nat.le_refl _, heights, ⟨rfl, fun _ _ held => held, fun _ _ held => Or.inl held⟩, ?_⟩
      intro entry member
      simp at member
  | case3 heights offset pending deepest height known inductionHypothesis =>
      obtain ⟨below, final, completes, recorded⟩ := inductionHypothesis found
      refine ⟨below, final, completes, ?_⟩
      intro entry member
      rcases List.mem_cons.mp member with rfl | later
      · exact completes.extends_earlier _ _ known
      · exact recorded entry later
  | case7 heights offset height pending deepest fresh instruction decoded enough after reached
      inductionHypothesis =>
      obtain ⟨below, final, completes, recorded⟩ := inductionHypothesis found
      have own : final[offset]? = some (some height) :=
        completes.extends_earlier _ _ (record_self height fresh)
      have ownClosed : Closed code final bound offset height := by
        refine ⟨instruction, decoded, Nat.le_of_not_lt enough, ?_, ?_⟩
        · exact Nat.le_trans (Nat.le_max_right deepest after) below
        · intro next member
          exact recorded (next, after)
            (List.mem_append_left _ (List.mem_map.mpr ⟨next, member, rfl⟩))
      refine ⟨Nat.le_trans (Nat.le_max_left _ _) below, final, ⟨?_, ?_, ?_⟩, ?_⟩
      · rw [completes.size, Array.size_setIfInBounds]
      · intro other known held
        have different : offset ≠ other := by
          rintro rfl
          rw [fresh] at held
          simp at held
        exact completes.extends_earlier other known (by rw [record_other height different, held])
      · intro other known held
        by_cases same : offset = other
        · subst same
          rw [own] at held
          obtain rfl : height = known := by simpa using held
          exact Or.inr ownClosed
        · rcases completes.closed other known held with earlier | closed
          · exact Or.inl (by rw [← record_other height same, earlier])
          · exact Or.inr closed
      · intro entry member
        rcases List.mem_cons.mp member with rfl | later
        · exact own
        · exact recorded entry (List.mem_append_right _ later)
  | _ => simp at found

/-- Each of a set of offsets has a level. At each stands an instruction that finds its operands there and
goes on only within the set, where the level is the height that it leaves. -/
def Assigns (code : Array UInt8) (reaches : Nat → Prop) (level : Nat → Nat) : Prop :=
  ∀ offset, reaches offset → offset < code.size ∧
    ∃ instruction, Instruction.decodeAt code offset = .ok instruction ∧
      instruction.stackEffect.1 ≤ level offset ∧
      ∀ next ∈ instruction.successors offset,
        reaches next ∧ level next = heightAfter instruction (level offset)

/-- An analysis that pends and has recorded nothing but levels never fails. -/
theorem explore_succeeds
    {code : Array UInt8} {heights : Heights} {pending : List (Nat × Nat)} {deepest : Nat}
    {reaches : Nat → Prop} {level : Nat → Nat} (assigns : Assigns code reaches level)
    (sized : heights.size = code.size)
    (recorded : ∀ offset height : Nat, heights[offset]? = some (some height) → level offset = height)
    (waiting : ∀ entry ∈ pending, reaches entry.1 ∧ level entry.1 = entry.2) :
    ∃ bound, explore code heights pending deepest = .ok bound := by
  fun_induction explore code heights pending deepest with
  | case1 heights deepest => exact ⟨deepest, rfl⟩
  | case2 heights offset height pending deepest outside =>
      have inside := (assigns offset (waiting _ List.mem_cons_self).1).1
      have beyond := Array.getElem?_eq_none_iff.mp outside
      omega
  | case3 heights offset pending deepest height known inductionHypothesis =>
      exact inductionHypothesis sized recorded fun entry member =>
        waiting entry (List.mem_cons_of_mem _ member)
  | case4 heights offset height pending deepest expected known different =>
      have same := (waiting _ List.mem_cons_self).2
      exact absurd ((recorded offset expected known).symm.trans same) different
  | case5 heights offset height pending deepest fresh error failed =>
      obtain ⟨_, instruction, decoded, _⟩ := assigns offset (waiting _ List.mem_cons_self).1
      rw [failed] at decoded
      simp at decoded
  | case6 heights offset height pending deepest fresh instruction decoded short =>
      obtain ⟨reached, same⟩ := waiting _ List.mem_cons_self
      obtain ⟨_, other, decodedAgain, enough, _⟩ := assigns offset reached
      obtain rfl := Except.ok.inj (decoded.symm.trans decodedAgain)
      rw [same] at enough
      exact absurd short (Nat.not_lt.mpr enough)
  | case7 heights offset height pending deepest fresh instruction decoded enough after reached
      inductionHypothesis =>
      obtain ⟨own, same⟩ := waiting _ List.mem_cons_self
      obtain ⟨_, other, decodedAgain, _, onward⟩ := assigns offset own
      obtain rfl := Except.ok.inj (decoded.symm.trans decodedAgain)
      apply inductionHypothesis
      · rw [Array.size_setIfInBounds, sized]
      · intro visited known held
        by_cases here : offset = visited
        · rw [← here, record_self height fresh] at held
          rw [← here, same]
          exact Option.some.inj (Option.some.inj held)
        · exact recorded visited known (by rwa [record_other height here] at held)
      · intro entry member
        rcases List.mem_append.mp member with new | old
        · obtain ⟨next, successor, rfl⟩ := List.mem_map.mp new
          obtain ⟨reached, level⟩ := onward next successor
          refine ⟨reached, level.trans ?_⟩
          rw [same]
          rfl
        · exact waiting entry (List.mem_cons_of_mem _ old)

/-- An offset is visited before the stack can be one entry higher, so the heights that an analysis meets
stay below the number of offsets it has visited. -/
theorem explore_le
    {code : Array UInt8} {heights : Heights} {pending : List (Nat × Nat)}
    {deepest bound limit : Nat}
    (found : explore code heights pending deepest = .ok bound)
    (room : ∀ entry ∈ pending, entry.2 + unvisited heights ≤ limit) (below : deepest ≤ limit) :
    bound ≤ limit := by
  fun_induction explore code heights pending deepest with
  | case1 heights deepest =>
      obtain rfl : deepest = bound := Except.ok.inj found
      exact below
  | case3 heights offset pending deepest height known inductionHypothesis =>
      refine inductionHypothesis found ?_ below
      intro entry member
      exact room entry (List.mem_cons_of_mem _ member)
  | case7 heights offset height pending deepest fresh instruction decoded enough after reached
      inductionHypothesis =>
      have visited := unvisited_record height fresh
      have own : height + unvisited heights ≤ limit := room (offset, height) (by simp)
      have pushes := stackEffect_pushes_le instruction
      have grown : after ≤ height + 1 := by
        dsimp only [after]
        omega
      refine inductionHypothesis found ?_ ?_
      · intro entry member
        rcases List.mem_append.mp member with new | old
        · obtain ⟨next, _, rfl⟩ := List.mem_map.mp new
          dsimp only
          omega
        · have earlier := room entry (List.mem_cons_of_mem _ old)
          omega
      · omega
  | _ => simp at found

/-- An analysis that comes only to heights from which no instruction goes beyond a limit stays below it. -/
theorem explore_bounded
    {code : Array UInt8} {heights : Heights} {pending : List (Nat × Nat)}
    {deepest bound limit : Nat} {permits : Nat → Nat → Prop}
    (onward : ∀ offset height, permits offset height → ∀ instruction,
      Instruction.decodeAt code offset = .ok instruction →
        heightAfter instruction height ≤ limit ∧
          ∀ next ∈ instruction.successors offset, permits next (heightAfter instruction height))
    (found : explore code heights pending deepest = .ok bound)
    (waiting : ∀ entry ∈ pending, permits entry.1 entry.2) (below : deepest ≤ limit) :
    bound ≤ limit := by
  fun_induction explore code heights pending deepest with
  | case1 heights deepest =>
      obtain rfl : deepest = bound := Except.ok.inj found
      exact below
  | case3 heights offset pending deepest height known inductionHypothesis =>
      exact inductionHypothesis found (fun entry member =>
        waiting entry (List.mem_cons_of_mem _ member)) below
  | case7 heights offset height pending deepest fresh instruction decoded enough after reached
      inductionHypothesis =>
      obtain ⟨bounded, permitted⟩ :=
        onward offset height (waiting _ List.mem_cons_self) instruction decoded
      refine inductionHypothesis found ?_ (Nat.max_le.mpr ⟨below, bounded⟩)
      intro entry member
      rcases List.mem_append.mp member with new | old
      · obtain ⟨next, successor, rfl⟩ := List.mem_map.mp new
        exact permitted next successor
      · exact waiting entry (List.mem_cons_of_mem _ old)
  | _ => simp at found

theorem not_recorded_initially (size offset height : Nat) :
    (Array.replicate size (none : Option Nat))[offset]? ≠ some (some height) := by
  rw [Array.getElem?_replicate]
  split <;> simp

end StackDepth

/-- The heights behind a successful analysis of a whole method: the start has an empty stack, and every
recorded offset lies in the code and is closed. -/
theorem maxStackDepth_heights {code : Array UInt8} {bound : Nat}
    (found : maxStackDepth code = .ok bound) :
    ∃ heights : StackDepth.Heights, heights.size = code.size ∧ heights[0]? = some (some 0) ∧
      ∀ offset height, heights[offset]? = some (some height) →
        StackDepth.Closed code heights bound offset height := by
  obtain ⟨_, heights, completes, recorded⟩ := StackDepth.explore_completes found
  refine ⟨heights, by rw [completes.size, Array.size_replicate], recorded (0, 0) (by simp), ?_⟩
  intro offset height held
  rcases completes.closed offset height held with earlier | closed
  · exact absurd earlier (StackDepth.not_recorded_initially _ _ _)
  · exact closed

theorem maxStackDepth_succeeds {code : Array UInt8} {reaches : Nat → Prop} {level : Nat → Nat}
    (assigns : StackDepth.Assigns code reaches level) (start : reaches 0) (empty : level 0 = 0) :
    ∃ bound, maxStackDepth code = .ok bound := by
  apply StackDepth.explore_succeeds assigns Array.size_replicate
  · intro offset height held
    exact absurd held (StackDepth.not_recorded_initially _ _ _)
  · intro entry member
    obtain rfl := List.mem_singleton.mp member
    exact ⟨start, empty⟩

theorem maxStackDepth_le_size {code : Array UInt8} {bound : Nat}
    (found : maxStackDepth code = .ok bound) : bound ≤ code.size := by
  refine StackDepth.explore_le found ?_ (Nat.zero_le _)
  intro entry member
  obtain rfl : entry = (0, 0) := by simpa using member
  have counted := List.countP_le_length
    (p := Option.isNone) (l := (Array.replicate code.size (none : Option Nat)).toList)
  simpa [StackDepth.unvisited] using counted

end FragmentLisp
