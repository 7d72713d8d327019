import FragmentLisp.StackDepth
import FragmentLisp.TypeDefinition

/-!
Checking the code of a method before it may run. All of the code must decode, operands must name slots,
fields and constants that exist, the method must return as it declares, jumps must land on
instructions, and the operand stack must stay within the declared height on every path.
-/

namespace FragmentLisp

inductive VerificationError where
  | emptyBody
  | undecodable (error : DecodeError)
  | invalidLocal (slot : UInt16) (offset : Nat)
  | invalidField (index : UInt16) (offset : Nat)
  | invalidConstant (index : UInt32) (offset : Nat)
  | returnsValue (method : String)
  | returnsNothing (method : String)
  | wildJump (target : Nat)
  | stack (error : StackError)
  | stackNeed (needed declared : Nat)
deriving DecidableEq

def VerificationError.message : VerificationError → String
  | emptyBody => "empty method body"
  | undecodable error => error.message
  | invalidLocal slot offset =>
      String.join ["local slot ", toString slot.toNat, " out of range at offset ", toString offset]
  | invalidField index offset =>
      String.join ["field ", toString index.toNat, " out of range at offset ", toString offset]
  | invalidConstant index offset =>
      String.join ["constant ", toString index.toNat, " out of range at offset ", toString offset]
  | returnsValue method => String.join ["method ", method, " is declared void but returns a value"]
  | returnsNothing method => String.join ["method ", method, " must return a value"]
  | wildJump target => String.join ["jump to ", toString target, " does not land on an instruction"]
  | stack error => error.message
  | stackNeed needed declared =>
      String.join
        ["needs ", toString needed, " operand stack entries but declares ", toString declared]

namespace Verification

def checkLocal (signature : Signature) (slot : UInt16) (offset : Nat) :
    Except VerificationError Unit :=
  if slot < signature.locals then .ok () else .error (.invalidLocal slot offset)

def checkField (definition : TypeDefinition) (index : UInt16) (offset : Nat) :
    Except VerificationError Unit :=
  if index < definition.fieldCount then .ok () else .error (.invalidField index offset)

def checkConstant (definition : TypeDefinition) (index : UInt32) (offset : Nat) :
    Except VerificationError Unit :=
  if index.toNat < definition.constants.length then .ok ()
  else .error (.invalidConstant index offset)

def checkReturn (signature : Signature) (withValue : Bool) : Except VerificationError Unit :=
  if signature.returnsValue = withValue then .ok ()
  else if withValue then .error (.returnsValue signature.name)
  else .error (.returnsNothing signature.name)

def checkOperand (definition : TypeDefinition) (signature : Signature) (offset : Nat)
    (instruction : Instruction) : Except VerificationError Unit :=
  match instruction with
  | .loadLocal slot => checkLocal signature slot offset
  | .storeLocal slot => checkLocal signature slot offset
  | .loadField index => checkField definition index offset
  | .storeField index => checkField definition index offset
  | .pushConstant index => checkConstant definition index offset
  | .return => checkReturn signature true
  | .returnVoid => checkReturn signature false
  | .pushInteger _ => .ok ()
  | .pushBoolean _ => .ok ()
  | .pushNil => .ok ()
  | .pop => .ok ()
  | .arithmetic _ => .ok ()
  | .negate => .ok ()
  | .equal => .ok ()
  | .order _ => .ok ()
  | .not => .ok ()
  | .jumpIfFalse _ => .ok ()
  | .jump _ => .ok ()
  | .concat _ => .ok ()
  | .count => .ok ()
  | .print _ => .ok ()

def checkOperands (definition : TypeDefinition) (signature : Signature) :
    List (Nat × Instruction) → Except VerificationError Unit
  | [] => .ok ()
  | (offset, instruction) :: rest =>
      match checkOperand definition signature offset instruction with
      | .ok _ => checkOperands definition signature rest
      | .error error => .error error

/-- The offsets of a code at which an instruction begins, marked in an array over all offsets. -/
def boundaries (size : Nat) (listing : List (Nat × Instruction)) : Array Bool :=
  listing.foldl (fun marks entry => marks.setIfInBounds entry.1 true) (Array.replicate size false)

def checkJumps (size : Nat) (listing : List (Nat × Instruction)) :
    Except VerificationError Unit :=
  let marks := boundaries size listing
  let targets := listing.filterMap fun entry => entry.2.jumpTarget?
  match targets.find? fun target => !(marks[target]?.getD false) with
  | some target => .error (.wildJump target)
  | none => .ok ()

def checkStack (method : Method) : Except VerificationError Unit :=
  match maxStackDepth method.code with
  | .error error => .error (.stack error)
  | .ok needed =>
      if method.signature.maxStack.toNat < needed then
        .error (.stackNeed needed method.signature.maxStack.toNat)
      else
        .ok ()

def verify (definition : TypeDefinition) (method : Method) : Except VerificationError Unit :=
  if method.code.isEmpty then .error .emptyBody
  else
    let (listing, failure?) := Instruction.listing method.code
    match checkOperands definition method.signature listing, failure? with
    | .error error, _ => .error error
    | .ok _, some failure => .error (.undecodable failure)
    | .ok _, none =>
        match checkJumps method.code.size listing with
        | .error error => .error error
        | .ok _ => checkStack method

end Verification
end FragmentLisp
