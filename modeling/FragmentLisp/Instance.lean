import FragmentLisp.Machine
import FragmentLisp.TypeDefinition

/-!
Instances of loaded types. A new instance has its fields filled by the constructor of its type, and then
its entry method can be run. Each run is given a number of steps; an answer is missing when the steps
did not suffice.
-/

namespace FragmentLisp

inductive InstantiationError where
  | missingMethod (type method : String)
  | takesArguments (type method : String) (arity : UInt8)
  | constructorReturns (type : String)
  | constructorFailed (type : String) (fault : Fault)
deriving DecidableEq

def InstantiationError.message : InstantiationError → String
  | missingMethod type method => String.join [type, " has no zero-argument method ", method]
  | takesArguments type method arity =>
      String.join [type, ".", method, " takes ", toString arity.toNat, " arguments, expected none"]
  | constructorReturns type => String.join ["constructor of ", type, " returns a value"]
  | constructorFailed type _ => String.join ["constructor of ", type, " failed"]

structure Instance where
  definition : TypeDefinition
  entry : Method
  fields : Array Value
  /-- What the constructor printed. -/
  output : String
  stackLimit : Nat

/-- What running a fragment gives. -/
structure Evaluation where
  value : Value
  output : String
  typeName : String
deriving DecidableEq

namespace Instance

def zeroArgumentMethod (definition : TypeDefinition) (name : String) :
    Except InstantiationError Method :=
  match definition.method? name with
  | none => .error (.missingMethod definition.name name)
  | some method =>
      if method.signature.arity = 0 then .ok method
      else .error (.takesArguments definition.name name method.signature.arity)

def methods (definition : TypeDefinition) (entryName : String) :
    Except InstantiationError (Method × Method) :=
  match zeroArgumentMethod definition TypeDefinition.constructorName with
  | .error error => .error error
  | .ok constructor =>
      if constructor.signature.returnsValue then .error (.constructorReturns definition.name)
      else (zeroArgumentMethod definition entryName).map fun entry => (constructor, entry)

def program (definition : TypeDefinition) (method : Method) (stackLimit : Nat) :
    Machine.Program :=
  { code := method.code, constants := definition.constants.toArray, stackLimit }

/-- Make an instance by running the constructor on fields that are all nil. -/
def create (definition : TypeDefinition) (entryName : String) (stackLimit steps : Nat) :
    Option (Except InstantiationError Instance) :=
  match methods definition entryName with
  | .error error => some (.error error)
  | .ok (constructor, entry) =>
      let fields := Array.replicate definition.fieldCount.toNat Value.nil
      let start := Machine.State.initial constructor.signature.locals.toNat fields ""
      match Machine.run (program definition constructor stackLimit) steps start with
      | .unfinished _ => none
      | .faulted fault _ => some (.error (.constructorFailed definition.name fault))
      | .returned _ final =>
          some (.ok
            { definition
              entry
              fields := final.fields
              output := final.output
              stackLimit })

/-- Run the entry method. A method that returns nothing gives the value that stands for none. -/
def invoke (object : Instance) (steps : Nat) : Option (Except Fault Evaluation) :=
  let definition := object.definition
  let entry := object.entry
  let start :=
    Machine.State.initial entry.signature.locals.toNat object.fields object.output
  match Machine.run (program definition entry object.stackLimit) steps start with
  | .unfinished _ => none
  | .faulted fault _ => some (.error fault)
  | .returned value? final =>
      some (.ok
        { value := value?.getD .nothing, output := final.output, typeName := definition.name })

end Instance
end FragmentLisp
