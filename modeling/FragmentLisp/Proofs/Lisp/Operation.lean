import FragmentLisp.Proofs.Machine.Effect

/-!
What the forms of the language do with the values of their operands, apart from the order in which these
are found. Of two operands that have to be integers the right one is looked at first.
-/

namespace FragmentLisp
namespace Lisp
namespace Operation

open OperandStack (expectInteger)

def integers (operation : String) (left right : Value) : Except Fault (Int64 × Int64) := do
  let right ← expectInteger operation right
  let left ← expectInteger operation left
  return (left, right)

def combine (op : ArithmeticOp) (left right : Value) : Except Fault Value := do
  let (left, right) ← integers op.name left right
  let result ← op.apply left right
  return .integer result

def negate (operand : Value) : Except Fault Value := do
  let value ← expectInteger "-" operand
  let result ← Arithmetic.negate value
  return .integer result

def compare (op : OrderOp) (left right : Value) : Except Fault Value := do
  let (left, right) ← integers op.name left right
  return .boolean (op.holds left right)

def count : Value → Except Fault Value
  | .string text => .ok (.integer (Int64.ofNat text.length))
  | other => .error (.typeMismatch "count" "string" other.typeName)

def join (values : List Value) : String :=
  String.join (values.map Value.printed)

def spaced (values : List Value) : String :=
  String.join ((values.map Value.printed).intersperse " ")

def printed (newline : Bool) (values : List Value) : String :=
  if newline then spaced values ++ "\n" else spaced values

/-! An operation that finds a wrong kind has been given one. -/

theorem integers_mismatch {operation : String} {left right : Value} {fault : Fault}
    (failed : integers operation left right = .error fault) :
    Kind.ofValue right ≠ .number ∨ Kind.ofValue left ≠ .number := by
  cases right with
  | integer rightValue =>
      cases left with
      | integer leftValue => simp [integers, expectInteger, bind, Except.bind,
          pure, Except.pure] at failed
      | _ => exact Or.inr (by simp [Kind.ofValue])
  | _ => exact Or.inl (by simp [Kind.ofValue])

theorem combine_mismatch {op : ArithmeticOp} {left right : Value} {fault : Fault}
    (failed : combine op left right = .error fault) (mismatch : fault.IsMismatch) :
    Kind.ofValue right ≠ .number ∨ Kind.ofValue left ≠ .number := by
  unfold combine at failed
  cases found : integers op.name left right with
  | error other => exact integers_mismatch found
  | ok both =>
      rw [found] at failed
      cases applied : op.apply both.1 both.2 with
      | error other =>
          simp only [bind, Except.bind, applied] at failed
          obtain rfl := Except.error.inj failed
          exact absurd mismatch (Machine.apply_arithmetic applied).not_mismatch
      | ok value => simp [bind, Except.bind, applied, pure, Except.pure] at failed

theorem compare_mismatch {op : OrderOp} {left right : Value} {fault : Fault}
    (failed : compare op left right = .error fault) :
    Kind.ofValue right ≠ .number ∨ Kind.ofValue left ≠ .number := by
  unfold compare at failed
  cases found : integers op.name left right with
  | error other => exact integers_mismatch found
  | ok both => simp [found, bind, Except.bind, pure, Except.pure] at failed

theorem negate_mismatch {operand : Value} {fault : Fault}
    (failed : negate operand = .error fault) (mismatch : fault.IsMismatch) :
    Kind.ofValue operand ≠ .number := by
  cases operand with
  | integer value =>
      cases negated : Arithmetic.negate value with
      | error other =>
          simp only [negate, expectInteger, bind, Except.bind, negated]
            at failed
          obtain rfl := Except.error.inj failed
          exact absurd mismatch (Machine.exact_arithmetic negated).not_mismatch
      | ok result =>
          simp [negate, expectInteger, bind, Except.bind, negated, pure,
            Except.pure] at failed
  | _ => simp [Kind.ofValue]

theorem count_mismatch {operand : Value} {fault : Fault}
    (failed : count operand = .error fault) : Kind.ofValue operand ≠ .string := by
  cases operand <;> simp [count, Kind.ofValue] at failed ⊢

end Operation
end Lisp
end FragmentLisp
