import FragmentLisp.Instruction.Codec

/-!
How deep the operand stack of a method can get. The analysis follows both edges of every branch from
the start of the code. It records the height of the stack at each instruction that it reaches and
refuses code that reaches one at two heights, pops an empty stack, runs past the end or cannot be
decoded on some path.
-/

namespace FragmentLisp

inductive StackError where
  | undecodable (error : DecodeError)
  | underflow (offset : Nat)
  | inconsistent (offset expected found : Nat)
  | fallsOffEnd
deriving DecidableEq

namespace StackError

def message : StackError → String
  | undecodable error => error.message
  | underflow offset => String.join ["operand stack underflow at offset ", toString offset]
  | inconsistent offset expected found =>
      String.join ["operand stack holds ", toString expected, " entries at offset ", toString offset,
        " on one path and ", toString found, " on another"]
  | fallsOffEnd => "execution runs past the end of the method"

end StackError

namespace StackDepth

abbrev Heights := Array (Option Nat)

def unvisited (heights : Heights) : Nat :=
  heights.toList.countP Option.isNone

theorem unvisited_record
    {heights : Heights} {offset : Nat} (height : Nat)
    (fresh : heights[offset]? = some none) :
    unvisited (heights.setIfInBounds offset (some height)) + 1 = unvisited heights := by
  obtain ⟨inside, entry⟩ := Array.getElem?_eq_some_iff.mp fresh
  have insideList : offset < heights.toList.length := by simpa using inside
  have entryList : heights.toList[offset] = none := by simpa using entry
  have counted : 0 < heights.toList.countP Option.isNone := by
    rw [List.countP_pos_iff]
    exact ⟨heights.toList[offset], List.getElem_mem insideList, by rw [entryList]; rfl⟩
  simp only [unvisited, Array.toList_setIfInBounds]
  rw [List.countP_set insideList, entryList]
  simp only [Option.isNone_none, Option.isNone_some, if_true, Bool.false_eq_true, if_false]
  omega

theorem successors_length (instruction : Instruction) (offset : Nat) :
    (instruction.successors offset).length ≤ 2 := by
  unfold Instruction.successors
  cases instruction.jumpTarget? <;> cases instruction.fallsThrough <;> simp

/-- Follow the pending offsets, each with the height of the stack there. -/
def explore (code : Array UInt8) (heights : Heights) :
    List (Nat × Nat) → Nat → Except StackError Nat
  | [], deepest => .ok deepest
  | (offset, height) :: pending, deepest =>
      match _fresh : heights[offset]? with
      | none => .error .fallsOffEnd
      | some (some expected) =>
          if expected = height then explore code heights pending deepest
          else .error (.inconsistent offset expected height)
      | some none =>
          match Instruction.decodeAt code offset with
          | .error error => .error (.undecodable error)
          | .ok instruction =>
              if height < instruction.stackEffect.1 then .error (.underflow offset)
              else
                let after := height - instruction.stackEffect.1 + instruction.stackEffect.2
                let reached := (instruction.successors offset).map fun next => (next, after)
                explore code (heights.setIfInBounds offset (some height)) (reached ++ pending)
                  (max deepest after)
termination_by pending => 3 * unvisited heights + pending.length
decreasing_by
  · simp
  · have recorded := unvisited_record height _fresh
    have bounded := successors_length instruction offset
    simp only [List.length_append, List.length_map, List.length_cons]
    omega

end StackDepth

/-- The largest height that the operand stack reaches in a method, over all paths. -/
def maxStackDepth (code : Array UInt8) : Except StackError Nat :=
  StackDepth.explore code (Array.replicate code.size none) [(0, 0)] 0

end FragmentLisp
