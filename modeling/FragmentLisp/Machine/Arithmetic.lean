import FragmentLisp.Integer
import FragmentLisp.Machine.Fault

/-!
Arithmetic on 64-bit integers. A result that does not fit is a fault and never wraps. Division goes
toward zero; the remainder of `mod` has the sign of the divisor.
-/

namespace FragmentLisp
namespace Arithmetic

def exact (operation : String) (result : Int) : Except Fault Int64 :=
  match int64? result with
  | some value => .ok value
  | none => .error (.overflow operation)

/-- The remainder that has the sign of the divisor. Division leaves one with the sign of the dividend,
which is moved by one divisor where the signs differ. -/
def flooredRemainder (left right : Int64) : Int64 :=
  let remainder := left % right
  if remainder ≠ 0 ∧ decide (remainder < 0) ≠ decide (right < 0) then remainder + right
  else remainder

def negate (value : Int64) : Except Fault Int64 :=
  exact "-" (-value.toInt)

end Arithmetic

/-- The result of an operation. A remainder also needs a quotient that fits. -/
def ArithmeticOp.apply (op : ArithmeticOp) (left right : Int64) : Except Fault Int64 :=
  match op with
  | add => Arithmetic.exact op.name (left.toInt + right.toInt)
  | subtract => Arithmetic.exact op.name (left.toInt - right.toInt)
  | multiply => Arithmetic.exact op.name (left.toInt * right.toInt)
  | divide =>
      if right = 0 then .error .divisionByZero
      else Arithmetic.exact op.name (left.toInt.tdiv right.toInt)
  | modulo =>
      if right = 0 then .error .divisionByZero
      else
        match int64? (left.toInt.tdiv right.toInt) with
        | some _ => .ok (Arithmetic.flooredRemainder left right)
        | none => .error (.overflow op.name)

def OrderOp.holds (op : OrderOp) (left right : Int64) : Bool :=
  match op with
  | less => left < right
  | greater => right < left
  | lessEqual => left ≤ right
  | greaterEqual => right ≤ left

end FragmentLisp
