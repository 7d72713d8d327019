import FragmentLisp.Compilation
import FragmentLisp.CompilationUnit
import FragmentLisp.Instance
import FragmentLisp.Reader
import FragmentLisp.Registry

/-!
What is reported when an evaluation fails: one of six kinds, a message, a place in the fragment where
there is one, and what lies behind it.
-/

namespace FragmentLisp

inductive ErrorKind where
  | invalidFragment
  | semanticError
  | internalCompilerFault
  | loadFailure
  | instantiationFailure
  | evaluationFailure
deriving DecidableEq

namespace ErrorKind

def display : ErrorKind → String
  | invalidFragment => "invalid fragment"
  | semanticError => "semantic error"
  | internalCompilerFault => "internal compiler fault"
  | loadFailure => "load failure"
  | instantiationFailure => "instantiation failure"
  | evaluationFailure => "evaluation failure"

/-- Only a fault of the compiler itself cannot be mended in the fragment or by its host. -/
def isRecoverable (kind : ErrorKind) : Bool :=
  kind ≠ internalCompilerFault

end ErrorKind

inductive Cause where
  | reading (error : ReadError)
  | artifact (error : ArtifactError)
  | fault (reason : Fault)
  | described (text : String)
deriving DecidableEq

def Cause.chain : Cause → List String
  | reading error => [error.display]
  | artifact error => error.chain
  | fault reason => [reason.message]
  | described text => [text]

structure EvalError where
  kind : ErrorKind
  message : String
  position? : Option Position
  cause? : Option Cause
deriving DecidableEq

namespace EvalError

def display (error : EvalError) : String :=
  let place :=
    match error.position? with
    | some position => String.join [" (at offset ", toString position.offset, ")"]
    | none => ""
  String.join [error.kind.display, ": ", error.message, place]

def causes (error : EvalError) : List String :=
  match error.cause? with
  | some cause => cause.chain
  | none => []

/-- The message and each cause on a line of its own. -/
def report (error : EvalError) : String :=
  error.display ++ String.join (error.causes.map fun text => "\n  caused by: " ++ text)

def ofReading (error : ReadError) : EvalError :=
  { kind := .invalidFragment
    message := error.message
    position? := some { offset := error.offset, length := 0 }
    cause? := some (.reading error) }

def ofWrapping (error : WrapError) : EvalError :=
  { kind := .invalidFragment, message := error.message, position? := none, cause? := none }

def ofCompilation (error : CompilationError) : EvalError :=
  match error with
  | .semantic message position =>
      { kind := .semanticError, message, position? := some position, cause? := none }
  | error =>
      { kind := .internalCompilerFault
        message := error.message
        position? := none
        cause? := none }

def ofLoading (error : LoadError) : EvalError :=
  { kind := .loadFailure
    message := error.message
    position? := none
    cause? :=
      match error with
      | .unreadable _ inner => some (.artifact inner)
      | _ => none }

def ofInstantiation (error : InstantiationError) : EvalError :=
  { kind := .instantiationFailure
    message := error.message
    position? := none
    cause? :=
      match error with
      | .constructorFailed _ fault => some (.fault fault)
      | _ => none }

def ofFault (fault : Fault) : EvalError :=
  { kind := .evaluationFailure
    message := fault.message
    position? := none
    cause? := some (.fault fault) }

end EvalError
end FragmentLisp
