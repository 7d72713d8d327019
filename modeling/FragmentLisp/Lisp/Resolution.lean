import FragmentLisp.Lisp.Diagnostic
import FragmentLisp.Lisp.Operator
import FragmentLisp.Lisp.Resolved
import FragmentLisp.Lisp.Scope

/-!
Replacing names by places and working out kinds, from left to right. A binding is visible in the
bindings after it and in the body, and a definition in the statements after it. An operand whose kind is
known and wrong is refused; one that may be anything is left to the run.

The order of the checks is the same for every form: its operands are resolved one by one, and each is
checked before the next one is looked at. The nodes need not be well formed; what the resolver itself
needs of them it checks.
-/

namespace FragmentLisp
namespace Lisp
namespace Resolution

/-- What a symbol stands for. The reserved names are not looked up. -/
def resolveName (scope : Scope) (name : String) (span : Span) :
    Except CompileError (Expr × Kind) :=
  match name with
  | "true" => .ok (.boolean true, .boolean)
  | "false" => .ok (.boolean false, .boolean)
  | "nil" => .ok (.nil, .nil)
  | name =>
      match scope.lookup? name with
      | some ⟨.localSlot slot, kind⟩ => .ok (.localSlot slot, kind)
      | some ⟨.field index, kind⟩ => .ok (.field index, kind)
      | none => complain (.undefinedVariable name) span

/-- A resolved operand, if its kind will do where one of a kind is wanted. -/
def accept (operator : String) (wanted? : Option Kind) (span : Span)
    (found : Expr × Kind × Scope) : Except CompileError (Expr × Scope) :=
  let (operand, kind, scope) := found
  match wanted? with
  | none => .ok (operand, scope)
  | some wanted =>
      if kind.admits wanted then .ok (operand, scope)
      else complain (.typeError operator wanted kind) span

mutual
def resolve (scope : Scope) : Node → Except CompileError (Expr × Kind × Scope)
  | .number value _ => .ok (.number value, .number, scope)
  | .string value _ => .ok (.string value, .string, scope)
  | .symbol name span =>
      (resolveName scope name span).map fun (expression, kind) => (expression, kind, scope)
  | .vector _ span => complain .unsupportedVector span
  | .list [] _ => .ok (.nil, .nil, scope)
  | .list (.symbol name nameSpan :: arguments) span =>
      match Operator.ofName name, arguments with
      | .arithmetic .subtract, [node] => do
          let (operand, scope) ← resolve scope node >>= accept name (some .number) node.span
          return (.negate operand, .number, scope)
      | .arithmetic op, arguments => do
          let (operands, scope) ← resolveOperands name (some .number) scope [] arguments
          return (.arithmetic op operands, .number, scope)
      | .equal, [leftNode, rightNode] => do
          let (left, _, scope) ← resolve scope leftNode
          let (right, _, scope) ← resolve scope rightNode
          return (.equal left right, .boolean, scope)
      | .equal, arguments => .error (.internal (.operandCount name arguments.length))
      | .order op, [leftNode, rightNode] => do
          let (left, scope) ← resolve scope leftNode >>= accept name (some .number) leftNode.span
          let (right, scope) ←
            resolve scope rightNode >>= accept name (some .number) rightNode.span
          return (.order op left right, .boolean, scope)
      | .order _, arguments => .error (.internal (.operandCount name arguments.length))
      | .not, [node] => do
          let (operand, _, scope) ← resolve scope node
          return (.not operand, .boolean, scope)
      | .not, arguments => complain (.arity name 1 arguments.length) span
      | .count, [node] => do
          let (operand, scope) ← resolve scope node >>= accept name (some .string) node.span
          return (.count operand, .number, scope)
      | .count, arguments => complain (.arity name 1 arguments.length) span
      | .conjunction, arguments => do
          let (operands, scope) ← resolveOperands name none scope [] arguments
          return (.conjunction operands, .boolean, scope)
      | .disjunction, arguments => do
          let (operands, scope) ← resolveOperands name none scope [] arguments
          return (.disjunction operands, .boolean, scope)
      | .conditional, [condition, consequent, alternative] => do
          let (condition, _, scope) ← resolve scope condition
          let (consequent, consequentKind, scope) ← resolve scope consequent
          let (alternative, alternativeKind, scope) ← resolve scope alternative
          return (.conditional condition consequent alternative,
            consequentKind.join alternativeKind, scope)
      | .conditional, arguments => complain (.arity name 3 arguments.length) span
      | .localBinding, .vector bindings _ :: body => do
          let (bindings, inner) ← resolveBindings span scope.push [] bindings
          let (body, kind, inner) ← resolveBody inner [] .nil body
          return (.localBinding bindings body, kind, inner.pop)
      | .localBinding, _ => complain .bindingsNotVector span
      | .concat, arguments => do
          let (parts, scope) ← resolveOperands name none scope [] arguments
          return (.concat parts, .string, scope)
      | .print newline, arguments => do
          let (arguments, scope) ← resolveOperands name none scope [] arguments
          return (.print newline arguments, .nil, scope)
      | .definition, _ => complain (.unsupportedOperation name) nameSpan
      | .block, _ => complain (.unsupportedOperation name) nameSpan
      | .function, _ => complain (.unsupportedOperation name) nameSpan
      | .unknown, _ => complain (.unsupportedOperation name) nameSpan
  | .list (head :: _) _ => complain .headNotSymbol head.span

/-- Operands in turn, behind those resolved before, which stand last first. -/
def resolveOperands (operator : String) (wanted? : Option Kind) (scope : Scope)
    (resolved : List Expr) : List Node → Except CompileError (List Expr × Scope)
  | [] => .ok (resolved.reverse, scope)
  | node :: rest => do
      let (operand, scope) ← resolve scope node >>= accept operator wanted? node.span
      resolveOperands operator wanted? scope (operand :: resolved) rest

/-- Names and values in turn, behind those resolved before; a name is bound after its value. -/
def resolveBindings (span : Span) (scope : Scope) (resolved : List (UInt16 × Expr)) :
    List Node → Except CompileError (List (UInt16 × Expr) × Scope)
  | [] => .ok (resolved.reverse, scope)
  | [_] => complain .oddBindings span
  | .symbol name _ :: node :: rest => do
      let (value, kind, scope) ← resolve scope node
      match scope.declare? name kind with
      | some (slot, scope) => resolveBindings span scope ((slot, value) :: resolved) rest
      | none => complain .tooManyLocals span
  | node :: _ :: _ => complain .bindingNotSymbol node.span

def resolveBody (scope : Scope) (resolved : List Expr) (kind : Kind) :
    List Node → Except CompileError (List Expr × Kind × Scope)
  | [] => .ok (resolved.reverse, kind, scope)
  | node :: rest => do
      let (expression, kind, scope) ← resolve scope node
      resolveBody scope (expression :: resolved) kind rest
end

def isDefinition (node : Node) : Bool :=
  node.operatorName? = some "def"

def resolveStatement (scope : Scope) (node : Node) :
    Except CompileError (Statement × Option Kind × Scope) :=
  if isDefinition node then
    match node with
    | .list [_, .symbol name _, value] span => do
        let (value, kind, scope) ← resolve scope value
        match scope.declare? name kind with
        | some (slot, scope) => return (.definition slot value, none, scope)
        | none => complain .tooManyLocals span
    | node => complain .malformedDefinition node.span
  else do
    let (expression, kind, scope) ← resolve scope node
    return (.expression expression, some kind, scope)

def resolveStatements (scope : Scope) (resolved : List Statement) (result? : Option Kind) :
    List Node → Except CompileError (List Statement × Option Kind × Scope)
  | [] => .ok (resolved.reverse, result?, scope)
  | node :: rest => do
      let (statement, result?, scope) ← resolveStatement scope node
      resolveStatements scope (statement :: resolved) result? rest

def resolveFragment (fields : List Field) (statements : List Node) : Except CompileError Body :=
  match Scope.ofFields? fields with
  | none => .error (.internal .tooManyFields)
  | some scope => do
      let (statements, result?, scope) ← resolveStatements scope [] (some .nil) statements
      if scope.peak < Scope.slotCount then
        return { statements, locals := UInt16.ofNat scope.peak, result? }
      else
        .error (.internal .tooManyLocals)

end Resolution
end Lisp
end FragmentLisp
