import FragmentLisp.Proofs.Instruction.Disassembly
import FragmentLisp.Proofs.StackDepth
import Mathlib.Order.Bounds.Basic

/-!
The stack analysis against all paths through the code. A path begins at the first byte with an empty stack
and follows each instruction to any place where execution can go on. The analysis succeeds just when no
path goes wrong and no two of them disagree, with the largest height on any of them, and every error that
it reports is one that a path comes upon. It ends after a number of rounds that the size of the code
bounds.
-/

namespace FragmentLisp
namespace StackDepth

section Paths

variable {code : Array UInt8}

inductive GoesOn (offset : Nat) : Instruction → Nat → Prop
  | next {instruction : Instruction} (notJump : ∀ target, instruction ≠ .jump target)
      (notReturn : instruction ≠ .return) (notReturnVoid : instruction ≠ .returnVoid) :
      GoesOn offset instruction (offset + instruction.size)
  | branch (target : UInt32) : GoesOn offset (.jumpIfFalse target) target.toNat
  | jump (target : UInt32) : GoesOn offset (.jump target) target.toNat

theorem goesOn_iff {offset next : Nat} {instruction : Instruction} :
    GoesOn offset instruction next ↔ next ∈ instruction.successors offset := by
  constructor
  · rintro (⟨notJump, notReturn, notReturnVoid⟩ | target | target)
    · cases instruction <;>
        simp_all [Instruction.successors, Instruction.fallsThrough, Instruction.jumpTarget?]
    · simp [Instruction.successors, Instruction.jumpTarget?]
    · simp [Instruction.successors, Instruction.jumpTarget?]
  · intro member
    cases instruction with
    | jumpIfFalse target =>
        simp only [Instruction.successors, Instruction.fallsThrough, Instruction.jumpTarget?,
          if_true, Option.toList_some, List.cons_append, List.nil_append, List.mem_cons,
          List.not_mem_nil, or_false] at member
        rcases member with rfl | rfl
        · exact .next (by simp) (by simp) (by simp)
        · exact .branch target
    | jump target =>
        obtain rfl : next = target.toNat := by
          simpa [Instruction.successors, Instruction.fallsThrough, Instruction.jumpTarget?]
            using member
        exact .jump target
    | «return» =>
        simp [Instruction.successors, Instruction.fallsThrough, Instruction.jumpTarget?] at member
    | returnVoid =>
        simp [Instruction.successors, Instruction.fallsThrough, Instruction.jumpTarget?] at member
    | _ =>
        obtain rfl := by
          simpa [Instruction.successors, Instruction.fallsThrough, Instruction.jumpTarget?]
            using member
        exact .next (by simp) (by simp) (by simp)

/-- A path through the code comes to an offset with a stack of a height. -/
inductive Reaches (code : Array UInt8) : Nat → Nat → Prop
  | start : Reaches code 0 0
  | step {offset height next : Nat} {instruction : Instruction}
      (reached : Reaches code offset height)
      (decoded : Instruction.decodeAt code offset = .ok instruction)
      (enough : instruction.stackEffect.1 ≤ height)
      (goesOn : GoesOn offset instruction next) :
      Reaches code next (heightAfter instruction height)

/-- No path goes wrong, and no two paths come to the same offset with different heights. -/
structure Regular (code : Array UInt8) : Prop where
  inside : ∀ offset height, Reaches code offset height → offset < code.size
  performs : ∀ offset height, Reaches code offset height →
    ∃ instruction, Instruction.decodeAt code offset = .ok instruction ∧
      instruction.stackEffect.1 ≤ height
  agrees : ∀ offset height other, Reaches code offset height → Reaches code offset other →
    height = other

def heightsLeft (code : Array UInt8) : Set Nat :=
  { left | ∃ offset height instruction, Reaches code offset height ∧
      Instruction.decodeAt code offset = .ok instruction ∧
      instruction.stackEffect.1 ≤ height ∧ left = heightAfter instruction height }

inductive Exhibits (code : Array UInt8) : StackError → Prop
  | truncated {offset height : Nat} (reached : Reaches code offset height)
      (inside : offset < code.size)
      (failed : Instruction.decodeAt code offset = .error (.truncated offset)) :
      Exhibits code (.undecodable (.truncated offset))
  /-- The byte is the operation itself, or what stands in place of its truth value. -/
  | unknown {offset height place : Nat} {byte : UInt8} (reached : Reaches code offset height)
      (failed : Instruction.decodeAt code offset = .error (.unknownOpcode byte place))
      (held : code[place]? = some byte)
      (located : place = offset ∨ place = offset + 1 ∧ code[offset]? = some 0x02) :
      Exhibits code (.undecodable (.unknownOpcode byte place))
  | underflow {offset height : Nat} {instruction : Instruction}
      (reached : Reaches code offset height)
      (decoded : Instruction.decodeAt code offset = .ok instruction)
      (short : height < instruction.stackEffect.1) : Exhibits code (.underflow offset)
  | inconsistent {offset expected found : Nat} (first : Reaches code offset expected)
      (second : Reaches code offset found) (different : expected ≠ found) :
      Exhibits code (.inconsistent offset expected found)
  | fallsOffEnd {offset height : Nat} (reached : Reaches code offset height)
      (outside : code.size ≤ offset) : Exhibits code .fallsOffEnd

theorem not_exhibits_of_regular {error : StackError} (regular : Regular code) :
    ¬ Exhibits code error := by
  intro exhibits
  cases exhibits with
  | truncated reached inside failed =>
      obtain ⟨instruction, decoded, _⟩ := regular.performs _ _ reached
      rw [failed] at decoded
      simp at decoded
  | unknown reached failed held located =>
      obtain ⟨instruction, decoded, _⟩ := regular.performs _ _ reached
      rw [failed] at decoded
      simp at decoded
  | underflow reached decoded short =>
      obtain ⟨other, decodedAgain, enough⟩ := regular.performs _ _ reached
      obtain rfl := Except.ok.inj (decoded.symm.trans decodedAgain)
      omega
  | inconsistent first second different =>
      exact different (regular.agrees _ _ _ first second)
  | fallsOffEnd reached outside =>
      have inside := regular.inside _ _ reached
      omega

theorem reaches_successor {offset height next : Nat} {instruction : Instruction}
    (reached : Reaches code offset height)
    (decoded : Instruction.decodeAt code offset = .ok instruction)
    (enough : ¬ height < instruction.stackEffect.1)
    (successor : next ∈ instruction.successors offset) :
    Reaches code next (heightAfter instruction height) :=
  reached.step decoded (Nat.le_of_not_lt enough) (goesOn_iff.mpr successor)

theorem reaches_pending {pending : List (Nat × Nat)} {offset height : Nat}
    {instruction : Instruction}
    (waiting : ∀ entry ∈ (offset, height) :: pending, Reaches code entry.1 entry.2)
    (decoded : Instruction.decodeAt code offset = .ok instruction)
    (enough : ¬ height < instruction.stackEffect.1) :
    ∀ entry ∈ (instruction.successors offset).map
        (fun next => (next, heightAfter instruction height)) ++ pending,
      Reaches code entry.1 entry.2 := by
  intro entry member
  rcases List.mem_append.mp member with new | old
  · obtain ⟨next, successor, rfl⟩ := List.mem_map.mp new
    exact reaches_successor (waiting _ List.mem_cons_self) decoded enough successor
  · exact waiting entry (List.mem_cons_of_mem _ old)

/-- An analysis that pends and has recorded only what paths come to fails only with an error that one of
them comes upon. -/
theorem explore_exhibits {heights : Heights} {pending : List (Nat × Nat)} {deepest : Nat}
    {error : StackError} (failed : explore code heights pending deepest = .error error)
    (sized : heights.size = code.size)
    (recorded : ∀ offset height : Nat, heights[offset]? = some (some height) →
      Reaches code offset height)
    (waiting : ∀ entry ∈ pending, Reaches code entry.1 entry.2) : Exhibits code error := by
  fun_induction explore code heights pending deepest with
  | case1 heights deepest => simp at failed
  | case2 heights offset height pending deepest outside =>
      obtain rfl := Except.error.inj failed
      have beyond := Array.getElem?_eq_none_iff.mp outside
      exact .fallsOffEnd (waiting _ List.mem_cons_self) (by omega)
  | case3 heights offset pending deepest height known inductionHypothesis =>
      exact inductionHypothesis failed sized recorded fun entry member =>
        waiting entry (List.mem_cons_of_mem _ member)
  | case4 heights offset height pending deepest expected known different =>
      obtain rfl := Except.error.inj failed
      exact .inconsistent (recorded offset expected known) (waiting _ List.mem_cons_self) different
  | case5 heights offset height pending deepest fresh decodeError undecoded =>
      obtain rfl := Except.error.inj failed
      have reached := waiting _ List.mem_cons_self
      obtain ⟨inside, _⟩ := Array.getElem?_eq_some_iff.mp fresh
      rcases Instruction.decodeAt_error undecoded with rfl | ⟨byte, place, rfl, held, located⟩
      · exact .truncated reached (by omega) undecoded
      · exact .unknown reached undecoded held located
  | case6 heights offset height pending deepest fresh instruction decoded short =>
      obtain rfl := Except.error.inj failed
      exact .underflow (waiting _ List.mem_cons_self) decoded short
  | case7 heights offset height pending deepest fresh instruction decoded enough after reached
      inductionHypothesis =>
      apply inductionHypothesis failed
      · rw [Array.size_setIfInBounds, sized]
      · intro visited known held
        by_cases here : offset = visited
        · subst here
          rw [record_self height fresh] at held
          obtain rfl : height = known := by simpa using held
          exact waiting _ List.mem_cons_self
        · exact recorded visited known (by rwa [record_other height here] at held)
      · exact reaches_pending waiting decoded enough

/-- The depth that an analysis finds was given to it, or is left by an instruction of a path. -/
theorem explore_attains {heights : Heights} {pending : List (Nat × Nat)} {deepest bound : Nat}
    (found : explore code heights pending deepest = .ok bound)
    (waiting : ∀ entry ∈ pending, Reaches code entry.1 entry.2) :
    bound = deepest ∨ bound ∈ heightsLeft code := by
  fun_induction explore code heights pending deepest with
  | case1 heights deepest => exact Or.inl (Except.ok.inj found).symm
  | case3 heights offset pending deepest height known inductionHypothesis =>
      exact inductionHypothesis found fun entry member =>
        waiting entry (List.mem_cons_of_mem _ member)
  | case7 heights offset height pending deepest fresh instruction decoded enough after reached
      inductionHypothesis =>
      have left : after ∈ heightsLeft code :=
        ⟨offset, height, instruction, waiting _ List.mem_cons_self, decoded,
          Nat.le_of_not_lt enough, rfl⟩
      rcases inductionHypothesis found (reaches_pending waiting decoded enough) with same | attained
      · rcases Nat.le_total deepest after with lower | higher
        · rw [Nat.max_eq_right lower] at same
          exact Or.inr (same ▸ left)
        · exact Or.inl (same.trans (Nat.max_eq_left higher))
      · exact Or.inr attained
  | _ => simp at found

/-- Heights that are closed and hold the start hold all that a path comes to. -/
theorem recorded_of_reaches {heights : Heights} {bound offset height : Nat}
    (start : heights[0]? = some (some 0))
    (closed : ∀ offset height, heights[offset]? = some (some height) →
      Closed code heights bound offset height)
    (reached : Reaches code offset height) : heights[offset]? = some (some height) := by
  induction reached with
  | start => exact start
  | step _ decoded enough goesOn inductionHypothesis =>
      obtain ⟨instruction, decodedAgain, _, _, onward⟩ := closed _ _ inductionHypothesis
      obtain rfl := Except.ok.inj (decoded.symm.trans decodedAgain)
      exact onward _ (goesOn_iff.mp goesOn)

theorem reaches_initially : ∀ entry ∈ [((0 : Nat), (0 : Nat))], Reaches code entry.1 entry.2 := by
  intro entry member
  obtain rfl := List.mem_singleton.mp member
  exact .start

theorem maxStackDepth_exhibits {error : StackError} (failed : maxStackDepth code = .error error) :
    Exhibits code error := by
  refine explore_exhibits failed Array.size_replicate ?_ reaches_initially
  intro offset height held
  exact absurd held (not_recorded_initially _ _ _)

theorem regular_of_maxStackDepth {bound : Nat} (found : maxStackDepth code = .ok bound) :
    Regular code := by
  obtain ⟨heights, sized, start, closed⟩ := maxStackDepth_heights found
  refine ⟨?_, ?_, ?_⟩
  · intro offset height reached
    have held := recorded_of_reaches start closed reached
    obtain ⟨inside, _⟩ := Array.getElem?_eq_some_iff.mp held
    omega
  · intro offset height reached
    obtain ⟨instruction, decoded, enough, _⟩ :=
      closed _ _ (recorded_of_reaches start closed reached)
    exact ⟨instruction, decoded, enough⟩
  · intro offset height other first second
    have same := (recorded_of_reaches start closed first).symm.trans
      (recorded_of_reaches start closed second)
    simpa using same

theorem maxStackDepth_ok_iff : (∃ bound, maxStackDepth code = .ok bound) ↔ Regular code := by
  constructor
  · rintro ⟨bound, found⟩
    exact regular_of_maxStackDepth found
  · intro regular
    cases found : maxStackDepth code with
    | ok bound => exact ⟨bound, rfl⟩
    | error error =>
        exact absurd (maxStackDepth_exhibits found) (not_exhibits_of_regular regular)

/-- The depth of a method is left on some path, and nothing above it on any. -/
theorem maxStackDepth_greatest {bound : Nat} (found : maxStackDepth code = .ok bound) :
    IsGreatest (heightsLeft code) bound := by
  obtain ⟨heights, _, start, closed⟩ := maxStackDepth_heights found
  have upper : bound ∈ upperBounds (heightsLeft code) := by
    rintro left ⟨offset, height, instruction, reached, decoded, _, rfl⟩
    obtain ⟨other, decodedAgain, _, below, _⟩ :=
      closed _ _ (recorded_of_reaches start closed reached)
    obtain rfl := Except.ok.inj (decoded.symm.trans decodedAgain)
    exact below
  refine ⟨?_, upper⟩
  rcases explore_attains found reaches_initially with rfl | attained
  · -- The depth that the analysis begins with is what the first instruction leaves.
    obtain ⟨instruction, decoded, enough, below, _⟩ := closed 0 0 start
    exact ⟨0, 0, instruction, .start, decoded, enough, (Nat.le_zero.mp below).symm⟩
  · exact attained

theorem le_of_reaches {bound offset height : Nat} (found : maxStackDepth code = .ok bound)
    (reached : Reaches code offset height) : height ≤ bound := by
  cases reached with
  | start => exact Nat.zero_le bound
  | step reached decoded enough _ =>
      exact (maxStackDepth_greatest found).2 ⟨_, _, _, reached, decoded, enough, rfl⟩

/-- A path through a stretch of the code, which comes to its first byte with some height of the stack. The
path ends where it leaves the stretch. -/
inductive Crosses (code : Array UInt8) (first behind start : Nat) : Nat → Nat → Prop
  | enter : Crosses code first behind start first start
  | step {offset height next : Nat} {instruction : Instruction}
      (crossed : Crosses code first behind start offset height)
      (inside : first ≤ offset ∧ offset < behind)
      (decoded : Instruction.decodeAt code offset = .ok instruction)
      (enough : instruction.stackEffect.1 ≤ height)
      (goesOn : GoesOn offset instruction next) :
      Crosses code first behind start next (heightAfter instruction height)

/-- Whatever the stack holds at the first byte of the stretch, every path through it goes forward to the byte
behind it and leaves one entry more. The entries that it has found are not touched, and above them it comes
to a number and no further. -/
structure Lifts (code : Array UInt8) (first behind need : Nat) : Prop where
  onward : ∀ start offset height, Crosses code first behind start offset height → offset ≠ behind →
    first ≤ offset ∧ offset < behind ∧ start ≤ height ∧
      ∃ instruction, Instruction.decodeAt code offset = .ok instruction ∧
        instruction.stackEffect.1 ≤ height - start ∧
        (∃ next, GoesOn offset instruction next) ∧
        ∀ next, GoesOn offset instruction next → offset < next ∧ next ≤ behind
  arrives : ∀ start, Crosses code first behind start behind (start + 1)
  leaves : ∀ start height, Crosses code first behind start behind height → height = start + 1
  greatest : ∀ start,
    IsGreatest { height | ∃ offset, Crosses code first behind start offset height } (start + need)

end Paths

section Rounds

/-- What the analysis has recorded, what it still has to look at, and the depth found so far. -/
structure Search where
  heights : Heights
  pending : List (Nat × Nat)
  deepest : Nat

def Search.round (code : Array UInt8) (search : Search) : Except StackError Nat ⊕ Search :=
  match search.pending with
  | [] => .inl (.ok search.deepest)
  | (offset, height) :: pending =>
      match search.heights[offset]? with
      | none => .inl (.error .fallsOffEnd)
      | some (some expected) =>
          if expected = height then .inr { search with pending := pending }
          else .inl (.error (.inconsistent offset expected height))
      | some none =>
          match Instruction.decodeAt code offset with
          | .error error => .inl (.error (.undecodable error))
          | .ok instruction =>
              if height < instruction.stackEffect.1 then .inl (.error (.underflow offset))
              else
                .inr {
                  heights := search.heights.setIfInBounds offset (some height)
                  pending := (instruction.successors offset).map
                    (fun next => (next, heightAfter instruction height)) ++ pending
                  deepest := max search.deepest (heightAfter instruction height) }

def Search.within (code : Array UInt8) : Nat → Search → Option (Except StackError Nat)
  | 0, _ => none
  | rounds + 1, search =>
      match search.round code with
      | .inl result => some result
      | .inr next => next.within code rounds

def Search.initial (code : Array UInt8) : Search where
  heights := Array.replicate code.size none
  pending := [(0, 0)]
  deepest := 0

/-- What a search has left to do. A round takes an entry away, and puts at most two in its place when it
records a height where there was none. -/
def Search.left (search : Search) : Nat :=
  2 * unvisited search.heights + search.pending.length

theorem Search.round_left {code : Array UInt8} {search next : Search}
    (onward : search.round code = .inr next) : next.left < search.left := by
  obtain ⟨heights, pending, deepest⟩ := search
  cases pending with
  | nil => simp [round] at onward
  | cons entry pending =>
      obtain ⟨offset, height⟩ := entry
      unfold round at onward
      dsimp only at onward
      split at onward
      case h_1 => simp at onward
      case h_2 =>
        split at onward
        · obtain rfl := Sum.inr.inj onward
          simp [left]
        · simp at onward
      case h_3 fresh =>
        split at onward
        · simp at onward
        rename_i instruction decoded
        split at onward
        · simp at onward
        obtain rfl := Sum.inr.inj onward
        have visited := unvisited_record height fresh
        have few := successors_length instruction offset
        simp only [left, List.length_append, List.length_map, List.length_cons]
        omega

/-- The analysis is its rounds, one after the other. -/
theorem explore_round (code : Array UInt8) (search : Search) :
    explore code search.heights search.pending search.deepest =
      match search.round code with
      | .inl result => result
      | .inr next => explore code next.heights next.pending next.deepest := by
  obtain ⟨heights, pending, deepest⟩ := search
  cases pending with
  | nil => simp [Search.round, explore]
  | cons entry pending =>
      obtain ⟨offset, height⟩ := entry
      rw [explore_cons]
      unfold Search.round
      dsimp only
      cases heights[offset]? with
      | none => rfl
      | some recorded =>
          cases recorded with
          | some expected => dsimp only; split <;> rfl
          | none =>
              dsimp only
              cases Instruction.decodeAt code offset with
              | error error => rfl
              | ok instruction => dsimp only; split <;> rfl

theorem Search.within_explore {code : Array UInt8} {search : Search} {rounds : Nat}
    (enough : search.left < rounds) :
    search.within code rounds =
      some (explore code search.heights search.pending search.deepest) := by
  induction rounds generalizing search with
  | zero => omega
  | succ rounds inductionHypothesis =>
      rw [explore_round, within]
      cases onward : search.round code with
      | inl result => rfl
      | inr next =>
          have fewer := round_left onward
          exact inductionHypothesis (by omega)

theorem Search.initial_left (code : Array UInt8) : (initial code).left = 2 * code.size + 1 := by
  simp [left, initial, unvisited, List.countP_replicate]

end Rounds

/-- The analysis is exact. It ends within a number of rounds that is linear in the size of the code. It
succeeds just when all paths stay in the code, find instructions and their operands, and agree on the
height of the stack wherever they meet; the depth is then the largest height that an instruction of a
path leaves. An error that it reports is one that a path comes upon. -/
theorem stack_analysis_is_exact (code : Array UInt8) :
    (∀ rounds, 2 * code.size + 1 < rounds →
      (Search.initial code).within code rounds = some (maxStackDepth code)) ∧
    ((∃ bound, maxStackDepth code = .ok bound) ↔ Regular code) ∧
    (∀ bound, maxStackDepth code = .ok bound → IsGreatest (heightsLeft code) bound) ∧
    (∀ error, maxStackDepth code = .error error → Exhibits code error) := by
  refine ⟨?_, maxStackDepth_ok_iff, ?_, ?_⟩
  · intro rounds enough
    exact Search.within_explore (by rwa [Search.initial_left])
  · intro bound found
    exact maxStackDepth_greatest found
  · intro error failed
    exact maxStackDepth_exhibits failed

def levelLoop : Array UInt8 :=
  #[0x03, 0x30, 0, 0, 0, 0, 0x61]

def risingLoop : Array UInt8 :=
  #[0x03, 0x31, 0, 0, 0, 0]

theorem loops_are_analysed_exactly :
    maxStackDepth levelLoop = .ok 1 ∧ Regular levelLoop ∧ IsGreatest (heightsLeft levelLoop) 1 ∧
    maxStackDepth risingLoop = .error (.inconsistent 0 0 1) ∧
      Exhibits risingLoop (.inconsistent 0 0 1) := by
  obtain ⟨levelEnds, levelRegular, levelGreatest, _⟩ := stack_analysis_is_exact levelLoop
  obtain ⟨risingEnds, _, _, risingExhibits⟩ := stack_analysis_is_exact risingLoop
  have level : maxStackDepth levelLoop = .ok 1 :=
    Option.some.inj ((levelEnds 16 (by decide)).symm.trans rfl)
  have rising : maxStackDepth risingLoop = .error (.inconsistent 0 0 1) :=
    Option.some.inj ((risingEnds 14 (by decide)).symm.trans rfl)
  exact ⟨level, levelRegular.mp ⟨1, level⟩, levelGreatest 1 level, rising, risingExhibits _ rising⟩

end StackDepth
end FragmentLisp
