import FragmentLisp.Bindings
import FragmentLisp.Lisp.Fragment
import FragmentLisp.Lisp.Operator
import FragmentLisp.Proofs.Lisp.Operation

/-!
What a fragment means, read off its nodes. Values are found from left to right in an environment of names.
Nothing is said of slots or code; the names that a form binds are simply gone where the form ends.
-/

namespace FragmentLisp
namespace Lisp

/-- Why there is no value: a fault of the values, or a node that means nothing. -/
inductive Stop where
  | fault (fault : Fault)
  | meaningless
deriving DecidableEq

/-- Names and their values, the name bound last first. -/
abbrev Environment := List (String × Value)

/-- The outcome of an operation on values. -/
def attempted {Result : Type} (outcome : Except Fault Result) : Except Stop Result :=
  outcome.mapError .fault

def nameMeaning (environment : Environment) (name : String) : Except Stop Value :=
  match name with
  | "true" => .ok (.boolean true)
  | "false" => .ok (.boolean false)
  | "nil" => .ok .nil
  | name =>
      match environment.lookup name with
      | some value => .ok value
      | none => .error .meaningless

mutual
/-- The value of a node, and all that has been printed behind it. -/
def meaning (environment : Environment) (output : String) : Node → Except Stop (Value × String)
  | .number value _ => .ok (.integer value, output)
  | .string value _ => .ok (.string value, output)
  | .symbol name _ => (nameMeaning environment name).map fun value => (value, output)
  | .vector _ _ => .error .meaningless
  | .list [] _ => .ok (.nil, output)
  | .list (.symbol name _ :: arguments) _ =>
      match Operator.ofName name, arguments with
      | .arithmetic .subtract, [node] => do
          let (value, output) ← meaning environment output node
          let result ← attempted (Operation.negate value)
          return (result, output)
      | .arithmetic op, first :: rest => do
          let (value, output) ← meaning environment output first
          meaningFold op value environment output rest
      | .equal, [leftNode, rightNode] => do
          let (left, output) ← meaning environment output leftNode
          let (right, output) ← meaning environment output rightNode
          return (.boolean (decide (left = right)), output)
      | .order op, [leftNode, rightNode] => do
          let (left, output) ← meaning environment output leftNode
          let (right, output) ← meaning environment output rightNode
          let result ← attempted (Operation.compare op left right)
          return (result, output)
      | .not, [node] => do
          let (value, output) ← meaning environment output node
          return (.boolean !value.isTruthy, output)
      | .count, [node] => do
          let (value, output) ← meaning environment output node
          let result ← attempted (Operation.count value)
          return (result, output)
      | .conjunction, arguments => meaningUntil false environment output arguments
      | .disjunction, arguments => meaningUntil true environment output arguments
      | .conditional, [condition, consequent, alternative] => do
          let (value, output) ← meaning environment output condition
          if value.isTruthy then meaning environment output consequent
          else meaning environment output alternative
      | .localBinding, .vector bindings _ :: body => do
          let (inner, output) ← meaningBindings environment output bindings
          meaningLast .nil inner output body
      | .concat, arguments => do
          let (values, output) ← meaningAll environment output arguments
          return (.string (Operation.join values), output)
      | .print newline, arguments => do
          let (values, output) ← meaningAll environment output arguments
          return (.nil, output ++ Operation.printed newline values)
      | _, _ => .error .meaningless
  | .list (_ :: _) _ => .error .meaningless

def meaningFold (op : ArithmeticOp) (result : Value) (environment : Environment)
    (output : String) : List Node → Except Stop (Value × String)
  | [] => .ok (result, output)
  | operand :: rest => do
      let (value, output) ← meaning environment output operand
      let next ← attempted (Operation.combine op result value)
      meaningFold op next environment output rest

def meaningUntil (stopAtTrue : Bool) (environment : Environment) (output : String) :
    List Node → Except Stop (Value × String)
  | [] => .ok (.boolean !stopAtTrue, output)
  | operand :: rest => do
      let (value, output) ← meaning environment output operand
      if value.isTruthy = stopAtTrue then return (.boolean stopAtTrue, output)
      else meaningUntil stopAtTrue environment output rest

def meaningAll (environment : Environment) (output : String) :
    List Node → Except Stop (List Value × String)
  | [] => .ok ([], output)
  | node :: rest => do
      let (value, output) ← meaning environment output node
      let (values, output) ← meaningAll environment output rest
      return (value :: values, output)

/-- Names and values in turn; a name can be used behind its value. -/
def meaningBindings (environment : Environment) (output : String) :
    List Node → Except Stop (Environment × String)
  | [] => .ok (environment, output)
  | .symbol name _ :: node :: rest => do
      let (value, output) ← meaning environment output node
      meaningBindings ((name, value) :: environment) output rest
  | _ => .error .meaningless

def meaningLast (last : Value) (environment : Environment) (output : String) :
    List Node → Except Stop (Value × String)
  | [] => .ok (last, output)
  | node :: rest => do
      let (value, output) ← meaning environment output node
      meaningLast value environment output rest
end

def definition? : Node → Option (String × Node)
  | .list [head, .symbol name _, value] _ =>
      if head.symbolName? = some "def" then some (name, value) else none
  | _ => none

/-- Statements in turn; a definition has no value, and its name can be used in the statements behind
it. -/
def meaningStatements (last? : Option Value) (environment : Environment) (output : String) :
    List Node → Except Stop (Option Value × String)
  | [] => .ok (last?, output)
  | statement :: rest =>
      match definition? statement with
      | some (name, node) => do
          let (value, output) ← meaning environment output node
          meaningStatements none ((name, value) :: environment) output rest
      | none => do
          let (value, output) ← meaning environment output statement
          meaningStatements (some value) environment output rest

end Lisp
end FragmentLisp
