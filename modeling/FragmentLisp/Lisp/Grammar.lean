import FragmentLisp.Lisp.Diagnostic
import FragmentLisp.Lisp.Operator

/-!
Which nodes are well-formed statements: the operators that exist, how many arguments each takes, and
where names are bound. Names are not looked up here. The first violation from left to right is the one
that counts.
-/

namespace FragmentLisp
namespace Lisp
namespace Grammar

/-- What a form with an operator has to look like before its arguments are looked at. -/
def checkForm (name : String) (nameSpan span : Span) (count : Nat) :
    Except CompileError Unit :=
  let exactly (expected : Nat) : Except CompileError Unit :=
    if count = expected then .ok () else complain (.arity name expected count) span
  let atLeast (expected : Nat) : Except CompileError Unit :=
    if expected ≤ count then .ok () else complain (.arityAtLeast name expected count) span
  match Operator.ofName name with
  | .arithmetic .subtract => atLeast 1
  | .arithmetic _ => atLeast 2
  | .equal => exactly 2
  | .order _ => exactly 2
  | .not => exactly 1
  | .count => exactly 1
  | .conditional => exactly 3
  | .conjunction => .ok ()
  | .disjunction => .ok ()
  | .concat => .ok ()
  | .print _ => .ok ()
  | .localBinding => atLeast 2
  | .definition => complain .misplacedDefinition span
  | .block => complain .misplacedBlock span
  | .function => complain .functionDefinition span
  | .unknown => complain (.unsupportedOperation name) nameSpan

/-- Whether a node can be given a value under it; the cause is that of a node that is no symbol. -/
def checkName (otherwise : Diagnostic.Cause) : Node → Except CompileError Unit
  | .symbol name span =>
      if name ∈ reservedNames then complain (.reservedName name) span else .ok ()
  | node => complain otherwise node.span

mutual
def checkExpression : Node → Except CompileError Unit
  | .number _ _ => .ok ()
  | .string _ _ => .ok ()
  | .symbol _ _ => .ok ()
  | .vector _ span => complain .unsupportedVector span
  | .list [] _ => .ok ()
  | .list (.symbol name nameSpan :: arguments) span =>
      match checkForm name nameSpan span arguments.length with
      | .error error => .error error
      | .ok _ =>
          match Operator.ofName name, arguments with
          | .localBinding, .vector bindings bindingsSpan :: body =>
              if bindings.length % 2 = 0 then
                match checkBindings bindings with
                | .error error => .error error
                | .ok _ => checkExpressions body
              else
                complain .oddBindings bindingsSpan
          | .localBinding, other :: _ => complain .bindingsNotVector other.span
          | _, arguments => checkExpressions arguments
  | .list (head :: _) _ => complain .headNotSymbol head.span

def checkExpressions : List Node → Except CompileError Unit
  | [] => .ok ()
  | node :: rest =>
      match checkExpression node with
      | .error error => .error error
      | .ok _ => checkExpressions rest

def checkBindings : List Node → Except CompileError Unit
  | name :: value :: rest =>
      match checkName .bindingNotSymbol name with
      | .error error => .error error
      | .ok _ =>
          match checkExpression value with
          | .error error => .error error
          | .ok _ => checkBindings rest
  | _ => .ok ()
end

def checkStatement : Node → Except CompileError Unit
  | .list (.symbol "def" _ :: arguments) span =>
      match arguments with
      | [name, value] =>
          match checkName .definitionNotSymbol name with
          | .error error => .error error
          | .ok _ => checkExpression value
      | arguments => complain (.arity "def" 2 arguments.length) span
  | node => checkExpression node

def check : List Node → Except CompileError Unit
  | [] => .ok ()
  | statement :: rest =>
      match checkStatement statement with
      | .error error => .error error
      | .ok _ => check rest

end Grammar
end Lisp
end FragmentLisp
