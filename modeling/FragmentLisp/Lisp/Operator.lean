import FragmentLisp.Instruction

/-!
The words that may stand at the head of a form.
-/

namespace FragmentLisp
namespace Lisp

inductive Operator where
  | arithmetic (op : ArithmeticOp)
  | equal
  | order (op : OrderOp)
  | not
  | count
  | conditional
  | conjunction
  | disjunction
  | concat
  | print (newline : Bool)
  | localBinding
  | definition
  | block
  | function
  | unknown
deriving DecidableEq

def Operator.ofName : String → Operator
  | "+" => arithmetic .add
  | "-" => arithmetic .subtract
  | "*" => arithmetic .multiply
  | "/" => arithmetic .divide
  | "mod" => arithmetic .modulo
  | "=" => equal
  | "<" => order .less
  | ">" => order .greater
  | "<=" => order .lessEqual
  | ">=" => order .greaterEqual
  | "not" => not
  | "count" => count
  | "if" => conditional
  | "and" => conjunction
  | "or" => disjunction
  | "str" => concat
  | "print" => print false
  | "println" => print true
  | "let" => localBinding
  | "def" => definition
  | "do" => block
  | "defn" => function
  | "fn" => function
  | _ => unknown

/-- The words that always stand for the same value and cannot be bound. -/
def reservedNames : List String :=
  ["true", "false", "nil"]

end Lisp
end FragmentLisp
