import FragmentLisp.Assembly
import FragmentLisp.Artifact
import FragmentLisp.Lisp.Constants
import FragmentLisp.Lisp.Diagnostic
import FragmentLisp.StackDepth

/-!
Code for resolved bodies. Every expression leaves exactly one value on the operand stack. Jumps name
bytes of the method, so code is made for the offset at which it will stand, and every jump goes forward.

A body becomes a type with two methods: the constructor stores the host's values in the fields, and the
entry method runs the statements.
-/

namespace FragmentLisp
namespace Lisp
namespace Code

def operandCount (count : Nat) : Except InternalError UInt16 :=
  if count < 65536 then .ok (UInt16.ofNat count) else .error .tooManyOperands

def piecesSize (gap : Nat) (pieces : List (List Instruction)) : Nat :=
  pieces.foldr (fun piece size => codeSize piece + gap + size) 0

/-- Code that stops at the first operand that is false, or true where `stopAtTrue` is set, and leaves a
truth value. The pieces are the code of the operands. -/
def shortCircuit (stopAtTrue : Bool) (base : Nat) (pieces : List (List Instruction)) :
    List Instruction :=
  let test := if stopAtTrue then [.not] else []
  let stopped := base + piecesSize (codeSize test + 5) pieces + 7
  let exit := Instruction.jumpIfFalse (UInt32.ofNat stopped)
  (pieces.flatMap fun piece => piece ++ test ++ [exit]) ++
    [.pushBoolean !stopAtTrue, .jump (UInt32.ofNat (stopped + 2)), .pushBoolean stopAtTrue]

mutual
/-- The code of an expression that stands at the offset `base`. -/
def ofExpr (constants : Constants) (base : Nat) :
    Expr → Except InternalError (List Instruction)
  | .number value => .ok [.pushInteger value]
  | .boolean value => .ok [.pushBoolean value]
  | .string value => .ok [.pushConstant (constants.number value)]
  | .nil => .ok [.pushNil]
  | .localSlot slot => .ok [.loadLocal slot]
  | .field index => .ok [.loadField index]
  | .arithmetic _ [] => .error .missingOperands
  | .arithmetic op (first :: rest) => do
      let head ← ofExpr constants base first
      let pieces ← ofExprs constants 1 (base + codeSize head) [] rest
      return head ++ pieces.flatMap fun piece => piece ++ [.arithmetic op]
  | .negate operand => do
      let code ← ofExpr constants base operand
      return code ++ [.negate]
  | .equal left right => do
      let leftCode ← ofExpr constants base left
      let rightCode ← ofExpr constants (base + codeSize leftCode) right
      return leftCode ++ rightCode ++ [.equal]
  | .order op left right => do
      let leftCode ← ofExpr constants base left
      let rightCode ← ofExpr constants (base + codeSize leftCode) right
      return leftCode ++ rightCode ++ [.order op]
  | .not operand => do
      let code ← ofExpr constants base operand
      return code ++ [.not]
  | .conjunction operands => do
      let pieces ← ofExprs constants 5 base [] operands
      return shortCircuit false base pieces
  | .disjunction operands => do
      let pieces ← ofExprs constants 6 base [] operands
      return shortCircuit true base pieces
  | .conditional condition consequent alternative => do
      let test ← ofExpr constants base condition
      let consequentStart := base + codeSize test + 5
      let chosen ← ofExpr constants consequentStart consequent
      let alternativeStart := consequentStart + codeSize chosen + 5
      let other ← ofExpr constants alternativeStart alternative
      let finish := alternativeStart + codeSize other
      return test ++ [.jumpIfFalse (UInt32.ofNat alternativeStart)] ++ chosen ++
        [.jump (UInt32.ofNat finish)] ++ other
  | .localBinding bindings body => do
      let stores ← ofBindings constants base [] bindings
      let pieces ← ofExprs constants 1 (base + piecesSize 0 stores) [] body
      if pieces.isEmpty then
        return stores.flatten ++ [.pushNil]
      else
        return stores.flatten ++ (pieces.intersperse [.pop]).flatten
  | .concat parts => do
      let pieces ← ofExprs constants 0 base [] parts
      let count ← operandCount parts.length
      return pieces.flatten ++ [.concat count]
  | .count operand => do
      let code ← ofExpr constants base operand
      return code ++ [.count]
  | .print newline arguments => do
      let pieces ← ofExprs constants 5 base [] arguments
      let count ← operandCount (2 * arguments.length - 1)
      let between := [.pushConstant (constants.number Constants.separator)]
      return (pieces.intersperse between).flatten ++ [.concat count, .print newline, .pushNil]

/-- The code of expressions in turn, where so many bytes follow each, behind the code made before, which
stands last first. -/
def ofExprs (constants : Constants) (gap base : Nat) (made : List (List Instruction)) :
    List Expr → Except InternalError (List (List Instruction))
  | [] => .ok made.reverse
  | expression :: rest => do
      let code ← ofExpr constants base expression
      ofExprs constants gap (base + codeSize code + gap) (code :: made) rest

def ofBindings (constants : Constants) (base : Nat) (made : List (List Instruction)) :
    List (UInt16 × Expr) → Except InternalError (List (List Instruction))
  | [] => .ok made.reverse
  | (slot, value) :: rest => do
      let code ← ofExpr constants base value
      ofBindings constants (base + codeSize code + 3) ((code ++ [.storeLocal slot]) :: made) rest
end

/-- The code of statements in turn, behind the code made before, which stands last first. The value of
a statement is dropped unless the statement is the last one. -/
def ofStatements (constants : Constants) (base : Nat) (made : List (List Instruction)) :
    List Statement → Except InternalError (List (List Instruction))
  | [] => .ok made.reverse
  | .definition slot value :: rest => do
      let code ← ofExpr constants base value
      ofStatements constants (base + codeSize code + 3) ((code ++ [.storeLocal slot]) :: made) rest
  | .expression value :: rest => do
      let code ← ofExpr constants base value
      if rest.isEmpty then
        return (code :: made).reverse
      else
        ofStatements constants (base + codeSize code + 1) ((code ++ [.pop]) :: made) rest

/-- How an entry method ends: it returns nothing without a result, else the value of the last statement,
or nil if there are no statements. -/
def ending (body : Body) : List Instruction :=
  match body.result?, body.statements.getLast? with
  | none, _ => [.returnVoid]
  | some _, none => [.pushNil, .return]
  | some _, some _ => [.return]

def ofBody (constants : Constants) (body : Body) : Except InternalError (List Instruction) := do
  let pieces ← ofStatements constants 0 [] body.statements
  match body.result?, body.statements.getLast? with
  | some _, some (.definition _ _) => .error .resultOfDefinition
  | _, _ => return pieces.flatten ++ ending body

def pushField (constants : Constants) (field : Field) : Except InternalError Instruction :=
  match field.value with
  | .integer value => .ok (.pushInteger value)
  | .boolean value => .ok (.pushBoolean value)
  | .string value => .ok (.pushConstant (constants.number value))
  | .nil => .ok .pushNil
  | .nothing => .error (.fieldWithoutValue field.name)

def ofFields (constants : Constants) (index : Nat) (made : List Instruction) :
    List Field → Except InternalError (List Instruction)
  | [] => .ok (Instruction.returnVoid :: made).reverse
  | field :: rest => do
      let push ← pushField constants field
      ofFields constants (index + 1) (.storeField (UInt16.ofNat index) :: push :: made) rest

/-- A method without arguments, which declares the stack that its code needs in a 32-bit word. -/
def method (name : String) (locals : UInt16) (returnsValue : Bool)
    (instructions : List Instruction) : Except InternalError Method :=
  let code := (Assembly.empty.extend instructions).encode
  match maxStackDepth code with
  | .error error => .error (.unbalancedStack name error)
  | .ok needed =>
      if needed < 4294967296 then
        .ok
          { signature :=
              { name, arity := 0, locals, maxStack := UInt32.ofNat needed, returnsValue }
            code }
      else
        .error (.stackTooDeep name)

/-- The type of a unit whose body has been resolved. -/
def typeDefinition {Fragment : Type} (unit : CompilationUnit Fragment) (body : Body) :
    Except InternalError TypeDefinition := do
  let constants := Constants.ofBody unit.fields body
  let constructorCode ← ofFields constants 0 [] unit.fields
  let entryCode ← ofBody constants body
  if 65535 < unit.fields.length then
    .error .tooManyFields
  else do
    let constructor ← method TypeDefinition.constructorName 0 false constructorCode
    let entry ← method unit.entryMethod body.locals body.result?.isSome entryCode
    return {
      name := unit.typeName
      fieldCount := UInt16.ofNat unit.fields.length
      constants := constants.toList
      methods := [constructor, entry] }

/-- The artifact of a unit whose body has been resolved. -/
def generate [ObjectFormat] {Fragment : Type} (unit : CompilationUnit Fragment) (body : Body) :
    Except (Failure InternalError) Artifact := do
  let definition ← (typeDefinition unit body).mapError .refused
  definition.write.mapError (Failure.map .unwritable)

end Code
end Lisp
end FragmentLisp
