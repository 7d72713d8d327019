import FragmentLisp.Instruction
import FragmentLisp.Value

/-!
Bodies whose names have been replaced by local slots and field numbers.
-/

namespace FragmentLisp
namespace Lisp

inductive Expr where
  | number (value : Int64)
  | boolean (value : Bool)
  | string (value : String)
  | nil
  | localSlot (slot : UInt16)
  | field (index : UInt16)
  /-- The operation is applied to the result so far and each further operand in turn. -/
  | arithmetic (op : ArithmeticOp) (operands : List Expr)
  | negate (operand : Expr)
  | equal (left right : Expr)
  | order (op : OrderOp) (left right : Expr)
  | not (operand : Expr)
  | conjunction (operands : List Expr)
  | disjunction (operands : List Expr)
  | conditional (condition consequent alternative : Expr)
  | localBinding (bindings : List (UInt16 × Expr)) (body : List Expr)
  | concat (parts : List Expr)
  | count (operand : Expr)
  | print (newline : Bool) (arguments : List Expr)
deriving Inhabited

inductive Statement where
  | definition (slot : UInt16) (value : Expr)
  | expression (value : Expr)

structure Body where
  statements : List Statement
  /-- How many local slots the body needs. -/
  locals : UInt16
  /-- What is known of the result; a body that ends in a definition has none. -/
  result? : Option Kind

end Lisp
end FragmentLisp
