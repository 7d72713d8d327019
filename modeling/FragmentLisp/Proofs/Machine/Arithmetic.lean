import FragmentLisp.Proofs.Integer
import FragmentLisp.Proofs.Machine.Effect
import FragmentLisp.Proofs.Machine.Passes

/-!
Integer operations give the exact number or a fault. An operation stops only where its number does not fit
or where it has no number at all, with one exception: the remainder of the least integer and minus one is
zero, but the quotient that belongs to it does not fit.
-/

namespace FragmentLisp

namespace Arithmetic

variable {operation : String}

theorem exact_toInt (value : Int64) : exact operation value.toInt = .ok value := by
  unfold exact
  rw [int64?_eq_some_iff.mpr rfl]

theorem exact_of_unfit {result : Int} (unfit : ¬ Fits result) :
    exact operation result = .error (.overflow operation) := by
  unfold exact
  rw [int64?_eq_none_iff.mpr unfit]

theorem signs_differ_iff {left right : Int64} :
    decide (left < 0) ≠ decide (right < 0) ↔ (left < 0 ↔ ¬ right < 0) := by
  rw [ne_eq, decide_eq_decide, not_iff, not_iff_comm]
  exact iff_comm

/-- Moving a remainder by a divisor of the other sign comes nearer to zero than one of the two, so it
cannot leave the range. -/
theorem moved_toInt {remainder divisor : Int64} (differ : remainder < 0 ↔ ¬ divisor < 0) :
    (remainder + divisor).toInt = remainder.toInt + divisor.toInt := by
  rw [Int64.lt_iff_toInt_lt, Int64.lt_iff_toInt_lt, Int64.toInt_zero] at differ
  have remainderFits := fits_toInt remainder
  have divisorFits := fits_toInt divisor
  unfold Fits at remainderFits divisorFits
  rw [Int64.toInt_add]
  exact Int.bmod_eq_of_le (by omega) (by omega)

theorem flooredRemainder_toInt {left right : Int64} (nonzero : right ≠ 0) :
    (flooredRemainder left right).toInt = left.toInt.fmod right.toInt := by
  have divisor : right.toInt ≠ 0 := fun zero => nonzero (Int64.toInt_inj.mp zero)
  have remainder := Int64.toInt_mod left right
  have apart : left % right ≠ 0 ↔ left.toInt.tmod right.toInt ≠ 0 := by
    rw [← remainder, ne_eq, ← Int64.toInt_inj, Int64.toInt_zero]
  have differ : (decide (left % right < 0) ≠ decide (right < 0)) ↔
      (left.toInt.tmod right.toInt < 0 ↔ ¬ right.toInt < 0) := by
    rw [← remainder, ← Int64.toInt_zero, ← Int64.lt_iff_toInt_lt, ← Int64.lt_iff_toInt_lt]
    exact signs_differ_iff
  simp only [flooredRemainder, fmod_eq_moved divisor, apart, differ]
  split
  · rename_i moved
    rw [moved_toInt, remainder]
    rw [Int64.lt_iff_toInt_lt, Int64.lt_iff_toInt_lt, Int64.toInt_zero, remainder]
    exact moved.2
  · exact remainder

end Arithmetic

namespace ArithmeticOp

def meaning (op : ArithmeticOp) (left right : Int) : Int :=
  match op with
  | add => left + right
  | subtract => left - right
  | multiply => left * right
  | divide => left.tdiv right
  | modulo => left.fmod right

def Undefined (op : ArithmeticOp) (right : Int64) : Prop :=
  (op = divide ∨ op = modulo) ∧ right = 0

/-- The number is found by a division whose quotient does not fit. -/
def Refuses (op : ArithmeticOp) (left right : Int64) : Prop :=
  op = modulo ∧ left = Int64.minValue ∧ right = -1

variable {op : ArithmeticOp} {left right : Int64}

theorem apply_undefined (undefined : op.Undefined right) :
    op.apply left right = .error .divisionByZero := by
  obtain ⟨rfl | rfl, zero⟩ := undefined <;> exact if_pos zero

theorem quotient_fits_iff (nonzero : right ≠ 0) :
    Fits (left.toInt.tdiv right.toInt) ↔ ¬ (left = Int64.minValue ∧ right = -1) := by
  have divisor : right.toInt ≠ 0 := fun zero => nonzero (Int64.toInt_inj.mp zero)
  rw [fits_tdiv_iff (fits_toInt left) divisor, ← Int64.toInt_minValue, Int64.toInt_inj,
    show (-1 : Int) = (-1 : Int64).toInt from rfl, Int64.toInt_inj]

theorem apply_refused (refused : op.Refuses left right) :
    op.apply left right = .error (.overflow op.name) := by
  obtain ⟨rfl, leastOne, minusOne⟩ := refused
  have nonzero : right ≠ 0 := by
    rw [minusOne]
    decide
  have unfit : ¬ Fits (left.toInt.tdiv right.toInt) :=
    fun fits => (quotient_fits_iff nonzero).mp fits ⟨leastOne, minusOne⟩
  simp only [apply, if_neg nonzero, int64?_eq_none_iff.mpr unfit]

/-- Everywhere else the operation gives its number if that fits. -/
theorem apply_exact (defined : ¬ op.Undefined right) (accepted : ¬ op.Refuses left right) :
    op.apply left right = Arithmetic.exact op.name (op.meaning left.toInt right.toInt) := by
  cases op with
  | add | subtract | multiply => rfl
  | divide => exact if_neg fun zero => defined ⟨Or.inl rfl, zero⟩
  | modulo =>
      have nonzero : right ≠ 0 := fun zero => defined ⟨Or.inr rfl, zero⟩
      have quotient := (@quotient_fits_iff left right nonzero).mpr fun both => accepted ⟨rfl, both⟩
      cases found : int64? (left.toInt.tdiv right.toInt) with
      | none => exact absurd quotient (int64?_eq_none_iff.mp found)
      | some fitting =>
          simp only [apply, if_neg nonzero, found, meaning]
          rw [← Arithmetic.flooredRemainder_toInt nonzero, Arithmetic.exact_toInt]

end ArithmeticOp

namespace Machine

open Instruction (Holds)

/-- The next step leaves this number in place of the operands whenever it fits. It is refused as an
overflow only if the number does not fit or in the excepted case, and as a division by zero if and only if
there is no number. -/
structure Computes (program : Program) (state : State) (below : List Value) (operation : String)
    (number : Int) (undefined excepted : Prop) : Prop where
  exact : ∀ value : Int64, value.toInt = number → ¬ undefined → ¬ excepted →
    step program state =
      leave program state (state.offset + 1) (.ofEntries below) (.integer value)
  byZero : step program state = .faulted .divisionByZero state ↔ undefined
  overflow : step program state = .faulted (.overflow operation) state ↔
    ¬ undefined ∧ (excepted ∨ ¬ Fits number)

theorem leave_of_room {program : Program} {following : Nat} {below : List Value}
    (room : below.length < program.stackLimit) (state : State) (value : Value) :
    leave program state following (.ofEntries below) value =
      .running { state with offset := following, stack := .ofEntries (value :: below) } := by
  simp [leave, attempt, Nat.not_le.mpr room]

theorem leave_ne_faulted {program : Program} {state stopped : State} {following : Nat}
    {stack : OperandStack} {value : Value} {fault : Fault} (arithmetic : fault.IsArithmetic) :
    leave program state following stack value ≠ .faulted fault stopped := by
  unfold leave OperandStack.push
  split
  · rintro left
    obtain rfl := (Step.faulted.inj left).1
    exact arithmetic
  · simp [attempt]

theorem computes_of_step {program : Program} {state : State} {below : List Value}
    {operation : String} {number : Int} {undefined excepted : Prop} {outcome : Except Fault Int64}
    (steps : step program state = attempt state outcome fun value =>
      leave program state (state.offset + 1) (.ofEntries below) (.integer value))
    (zero : undefined → outcome = .error .divisionByZero)
    (refused : excepted → outcome = .error (.overflow operation))
    (found : ¬ undefined → ¬ excepted → outcome = Arithmetic.exact operation number) :
    Computes program state below operation number undefined excepted := by
  by_cases noNumber : undefined
  · rw [zero noNumber] at steps
    exact ⟨fun _ _ defined => absurd noNumber defined, iff_of_true steps noNumber,
      iff_of_false (by simp [steps, attempt]) fun both => both.1 noNumber⟩
  by_cases stopped : excepted ∨ ¬ Fits number
  · have overflows : outcome = .error (.overflow operation) := by
      by_cases exception : excepted
      · exact refused exception
      · rw [found noNumber exception]
        exact Arithmetic.exact_of_unfit (stopped.resolve_left exception)
    rw [overflows] at steps
    refine ⟨?_, iff_of_false (by simp [steps, attempt]) noNumber, iff_of_true steps ⟨noNumber, stopped⟩⟩
    rintro value rfl - accepted
    exact absurd (fits_toInt value) (stopped.resolve_left accepted)
  · obtain ⟨accepted, fits⟩ := not_or.mp stopped
    obtain ⟨value, rfl⟩ : ∃ value : Int64, value.toInt = number :=
      ⟨_, Int64.toInt_ofInt_of_le (not_not.mp fits).1 (not_not.mp fits).2⟩
    rw [found noNumber accepted, Arithmetic.exact_toInt] at steps
    refine ⟨?_, iff_of_false ?_ noNumber, iff_of_false ?_ fun both => stopped both.2⟩
    · intro other same _ _
      rw [Int64.toInt_inj.mp same]
      exact steps
    · rw [steps]
      exact leave_ne_faulted trivial
    · rw [steps]
      exact leave_ne_faulted trivial

section Operations

variable {program : Program} {state : State} {below : List Value}

theorem computes_arithmetic {op : ArithmeticOp} {left right : Int64}
    (held : Holds program.code state.offset [.arithmetic op])
    (operands : state.stack = .ofEntries (.integer right :: .integer left :: below)) :
    Computes program state below op.name (op.meaning left.toInt right.toInt) (op.Undefined right)
      (op.Refuses left right) := by
  refine @computes_of_step _ _ _ _ _ _ _ (op.apply left right) ?_ ArithmeticOp.apply_undefined
    ArithmeticOp.apply_refused ArithmeticOp.apply_exact
  rw [step_eq_perform (Holds.cons_iff.mp held).1]
  simp only [perform, operands, OperandStack.popIntegers_ofEntries]
  rfl

theorem computes_negate {value : Int64} (held : Holds program.code state.offset [.negate])
    (operand : state.stack = .ofEntries (.integer value :: below)) :
    Computes program state below "-" (-value.toInt) False False := by
  refine @computes_of_step _ _ _ _ _ _ _ (Arithmetic.negate value) ?_ False.elim False.elim
    fun _ _ => rfl
  rw [step_eq_perform (Holds.cons_iff.mp held).1]
  simp only [perform, operand, OperandStack.pop_ofEntries_cons]
  rfl

end Operations

/-- Addition, subtraction, multiplication, division toward zero, floored remainder and negation of any
64-bit integers. Leaving a number takes the room of one of the operands. The remainder is zero or has the
sign of the divisor, and moving it by one divisor never leaves the range. -/
theorem integer_operations_exact (program : Program) (state : State) (below : List Value) :
    (∀ (op : ArithmeticOp) (left right : Int64),
      Holds program.code state.offset [.arithmetic op] →
      state.stack = .ofEntries (.integer right :: .integer left :: below) →
      Computes program state below op.name (op.meaning left.toInt right.toInt)
        ((op = .divide ∨ op = .modulo) ∧ right = 0)
        (op = .modulo ∧ left = Int64.minValue ∧ right = -1)) ∧
    (∀ value : Int64, Holds program.code state.offset [.negate] →
      state.stack = .ofEntries (.integer value :: below) →
      Computes program state below "-" (-value.toInt) False False) ∧
    (below.length < program.stackLimit → ∀ value : Value,
      leave program state (state.offset + 1) (.ofEntries below) value =
        .running
          { state with offset := state.offset + 1, stack := .ofEntries (value :: below) }) ∧
    ∀ left right : Int64, right ≠ 0 →
      (ArithmeticOp.modulo.meaning left.toInt right.toInt = 0 ∨
        (ArithmeticOp.modulo.meaning left.toInt right.toInt < 0 ↔ right < 0)) ∧
      (left % right ≠ 0 ∧ decide (left % right < 0) ≠ decide (right < 0) →
        Arithmetic.flooredRemainder left right = left % right + right ∧
          (left % right + right).toInt = (left % right).toInt + right.toInt) := by
  refine ⟨fun op left right => computes_arithmetic, fun value => computes_negate,
    fun room value => leave_of_room room state value, ?_⟩
  intro left right nonzero
  refine ⟨?_, fun moved => ⟨if_pos moved, Arithmetic.moved_toInt ?_⟩⟩
  · rw [Int64.lt_iff_toInt_lt, Int64.toInt_zero]
    exact fmod_sign fun zero => nonzero (Int64.toInt_inj.mp zero)
  · exact Arithmetic.signs_differ_iff.mp moved.2

def remainderProgram (left right : Int64) : Program :=
  { code := (Instruction.encodeAll
      [.pushInteger left, .pushInteger right, .arithmetic .modulo, .negate, .return]).toArray
    constants := #[]
    stackLimit := 2 }

def remainderState (offset : Nat) (entries : List Value) : State :=
  { offset, stack := .ofEntries entries, locals := #[], fields := #[], output := "" }

theorem remainder_of_minus_seven :
    run (remainderProgram (-7) 3) 2 (.initial 0 #[] "") =
      .unfinished (remainderState 18 [.integer 3, .integer (-7)]) ∧
    step (remainderProgram (-7) 3) (remainderState 18 [.integer 3, .integer (-7)]) =
      .running (remainderState 19 [.integer 2]) ∧
    step (remainderProgram (-7) 3) (remainderState 19 [.integer 2]) =
      .running (remainderState 20 [.integer (-2)]) ∧
    ((-7 : Int64) % 3 + 3).toInt = ((-7 : Int64) % 3).toInt + (3 : Int64).toInt := by
  have room : ([] : List Value).length < (remainderProgram (-7) 3).stackLimit := by decide
  have held : ∀ entry ∈ [(18, Instruction.arithmetic .modulo), (19, .negate)],
      Holds (remainderProgram (-7) 3).code entry.1 [entry.2] := by
    intro entry member
    simp only [List.mem_cons, List.not_mem_nil, or_false] at member
    rcases member with rfl | rfl
    · exact Holds.cons_iff.mpr ⟨⟨by decide, rfl⟩, Holds.nil _ _⟩
    · exact Holds.cons_iff.mpr ⟨⟨by decide, rfl⟩, Holds.nil _ _⟩
  have atRemainder := integer_operations_exact (remainderProgram (-7) 3)
    (remainderState 18 [.integer 3, .integer (-7)]) []
  have atOpposite := integer_operations_exact (remainderProgram (-7) 3)
    (remainderState 19 [.integer 2]) []
  refine ⟨rfl, ?_, ?_, ?_⟩
  · rw [(atRemainder.1 .modulo (-7) 3 (held _ List.mem_cons_self) rfl).exact 2 (by decide)
      (by decide) (by decide)]
    exact atRemainder.2.2.1 room (.integer 2)
  · rw [(atOpposite.2.1 2 (held _ (List.mem_cons_of_mem _ List.mem_cons_self)) rfl).exact (-2)
      (by decide) id id]
    exact atOpposite.2.2.1 room (.integer (-2))
  · exact ((atRemainder.2.2.2 (-7) 3 (by decide)).2 (by decide)).2

/-- The remainder of the least integer and minus one is zero, which fits, and it is refused. -/
theorem remainder_of_least_refused :
    Int64.minValue.toInt.fmod (-1 : Int64).toInt = (0 : Int64).toInt ∧
      run (remainderProgram Int64.minValue (-1)) 4 (.initial 0 #[] "") =
        .faulted (.overflow "mod")
          (remainderState 18 [.integer (-1), .integer Int64.minValue]) := by
  exact ⟨by decide, rfl⟩

end Machine
end FragmentLisp
