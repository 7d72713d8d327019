import FragmentLisp.Artifact
import FragmentLisp.Registry.Verification

/-!
Types that have been loaded, each under its own name. A type enters only when its artifact can be read,
carries the type that it is named after, and every method passes verification and stays below the
stack limit. A type that has entered is never replaced.
-/

namespace FragmentLisp

inductive LoadError where
  | alreadyDefined (name : String)
  | unreadable (artifact : String) (error : ArtifactError)
  | nameMismatch (artifact type : String)
  | rejected (type method : String) (error : VerificationError)
  | stackLimit (type method : String) (needed limit : Nat)
  | noCode (type : String)
deriving DecidableEq

def LoadError.message : LoadError → String
  | alreadyDefined name => String.join ["type ", name, " is already defined in this scope"]
  | unreadable artifact _ => String.join ["cannot read artifact ", artifact]
  | nameMismatch artifact type => String.join ["artifact ", artifact, " carries type ", type]
  | rejected type method error => String.join [type, ".", method, ": ", error.message]
  | stackLimit type method needed limit =>
      String.join [type, ".", method, " needs ", toString needed,
        " operand stack entries, the limit is ", toString limit]
  | noCode type => String.join ["type ", type, " has no code"]

structure Registry where
  /-- The type loaded last comes first. -/
  types : List TypeDefinition

namespace Registry

def empty : Registry :=
  { types := [] }

def get? (registry : Registry) (name : String) : Option TypeDefinition :=
  registry.types.find? fun definition => definition.name = name

/-- Check methods in order; a method that needs more of the stack than the limit is refused only after
its code has passed. -/
def checkMethods (definition : TypeDefinition) (limit : Nat) :
    List Method → Except LoadError Unit
  | [] => .ok ()
  | method :: rest =>
      match Verification.verify definition method with
      | .error error => .error (.rejected definition.name method.signature.name error)
      | .ok _ =>
          if limit < method.signature.maxStack.toNat then
            .error
              (.stackLimit definition.name method.signature.name
                method.signature.maxStack.toNat limit)
          else
            checkMethods definition limit rest

def check (name : String) (limit : Nat) (definition : TypeDefinition) : Except LoadError Unit :=
  if definition.name ≠ name then .error (.nameMismatch name definition.name)
  else
    match checkMethods definition limit definition.methods with
    | .error error => .error error
    | .ok _ =>
        if definition.methods.all fun method => method.code.isEmpty then
          .error (.noCode definition.name)
        else
          .ok ()

/-- Load the type of an artifact under a limit for operand stacks. -/
def define [ObjectFormat] (registry : Registry) (limit : Nat) (artifact : Artifact) :
    Except LoadError (TypeDefinition × Registry) :=
  if (registry.get? artifact.name).isSome then .error (.alreadyDefined artifact.name)
  else
    match TypeDefinition.read artifact.image with
    | .error error => .error (.unreadable artifact.name error)
    | .ok definition =>
        match check artifact.name limit definition with
        | .error error => .error error
        | .ok _ => .ok (definition, { types := definition :: registry.types })

end Registry
end FragmentLisp
