import FragmentLisp.FrontEnd
import FragmentLisp.Lisp.Resolved

/-!
The string constants of a generated type. Each string is kept once, at the place of its first use; the
values of the fields come first and then the body in the order of its code.
-/

namespace FragmentLisp
namespace Lisp

abbrev Constants := Array String

namespace Constants

def add (constants : Constants) (text : String) : Constants :=
  if constants.contains text then constants else constants.push text

def number (constants : Constants) (text : String) : UInt32 :=
  UInt32.ofNat ((constants.idxOf? text).getD constants.size)

def separator : String := " "

mutual
def addExpr (constants : Constants) : Expr → Constants
  | .number _ => constants
  | .boolean _ => constants
  | .string value => constants.add value
  | .nil => constants
  | .localSlot _ => constants
  | .field _ => constants
  | .arithmetic _ operands => addExprs constants operands
  | .negate operand => addExpr constants operand
  | .equal left right => addExpr (addExpr constants left) right
  | .order _ left right => addExpr (addExpr constants left) right
  | .not operand => addExpr constants operand
  | .conjunction operands => addExprs constants operands
  | .disjunction operands => addExprs constants operands
  | .conditional condition consequent alternative =>
      addExpr (addExpr (addExpr constants condition) consequent) alternative
  | .localBinding bindings body => addExprs (addBindings constants bindings) body
  | .concat parts => addExprs constants parts
  | .count operand => addExpr constants operand
  | .print _ arguments => addExprs (constants.add separator) arguments

def addExprs (constants : Constants) : List Expr → Constants
  | [] => constants
  | expression :: rest => addExprs (addExpr constants expression) rest

def addBindings (constants : Constants) : List (UInt16 × Expr) → Constants
  | [] => constants
  | (_, value) :: rest => addBindings (addExpr constants value) rest
end

def addStatement (constants : Constants) : Statement → Constants
  | .definition _ value => addExpr constants value
  | .expression value => addExpr constants value

def addField (constants : Constants) (field : Field) : Constants :=
  match field.value with
  | .string value => constants.add value
  | _ => constants

def ofBody (fields : List Field) (body : Body) : Constants :=
  body.statements.foldl addStatement (fields.foldl addField #[])

end Constants
end Lisp
end FragmentLisp
