import FragmentLisp.Node
import FragmentLisp.StackDepth
import FragmentLisp.Artifact
import FragmentLisp.FrontEnd

/-!
Problems that compiling a fragment can meet. A diagnostic is about the fragment and points at a node of
it; an internal error is about the compiler and the limits of its output; and the library that lays out
the artifact may crash.
-/

namespace FragmentLisp
namespace Lisp

namespace Diagnostic

inductive Cause where
  | unsupportedVector
  | headNotSymbol
  | arity (operator : String) (expected found : Nat)
  | arityAtLeast (operator : String) (expected found : Nat)
  | bindingsNotVector
  | oddBindings
  | bindingNotSymbol
  | definitionNotSymbol
  | reservedName (name : String)
  | misplacedDefinition
  | misplacedBlock
  | functionDefinition
  | unsupportedOperation (operator : String)
  | malformedDefinition
  | undefinedVariable (name : String)
  | typeError (operator : String) (expected found : Kind)
  | tooManyLocals
deriving DecidableEq

def Cause.message : Cause → String
  | unsupportedVector => "Vectors not supported in fragments"
  | headNotSymbol => "First element must be a symbol"
  | arity operator expected found =>
      String.join ["Arity error in '", operator, "': expected ", toString expected,
        " arguments, got ", toString found]
  | arityAtLeast operator expected found =>
      String.join ["Arity error in '", operator, "': expected at least ", toString expected,
        " arguments, got ", toString found]
  | bindingsNotVector => "let requires a vector of bindings"
  | oddBindings => "let bindings must have even number of elements"
  | bindingNotSymbol => "let binding variables must be symbols"
  | definitionNotSymbol => "def name must be a symbol"
  | reservedName name => String.join ["Cannot rebind reserved name '", name, "'"]
  | misplacedDefinition => "def is only allowed as a statement"
  | misplacedBlock => "do blocks are only allowed at the top of a fragment"
  | functionDefinition => "Function definitions are not supported in fragments"
  | unsupportedOperation operator => String.join ["Unsupported operation: ", operator]
  | malformedDefinition => "malformed def"
  | undefinedVariable name => String.join ["Undefined variable: ", name]
  | typeError operator expected found =>
      String.join ["Type error: '", operator, "' expects a ", expected.describe, ", found ",
        found.describe]
  | tooManyLocals => "too many local variables"

end Diagnostic

structure Diagnostic where
  cause : Diagnostic.Cause
  span : Span
deriving DecidableEq

inductive InternalError where
  | phaseOutOfOrder (phase : Phase)
  | missingBody
  | tooManyFields
  | tooManyLocals
  | operandCount (operator : String) (found : Nat)
  | missingOperands
  | tooManyOperands
  | fieldWithoutValue (name : String)
  | resultOfDefinition
  | unbalancedStack (method : String) (error : StackError)
  | stackTooDeep (method : String)
  | unwritable (error : ArtifactError)
deriving DecidableEq

def InternalError.message : InternalError → String
  | phaseOutOfOrder phase => String.join [phase.name, " phase requested out of order"]
  | missingBody => "generation requested without a resolved body"
  | tooManyFields => "too many host bindings"
  | tooManyLocals => "too many local variables"
  | operandCount operator found =>
      String.join ["'", operator, "' reached resolution with ", toString found, " operands"]
  | missingOperands => "arithmetic without operands"
  | tooManyOperands => "too many operands"
  | fieldWithoutValue name => String.join ["field '", name, "' has no value"]
  | resultOfDefinition => "body ending in a definition claims a value"
  | unbalancedStack method error => String.join ["method ", method, ": ", error.message]
  | stackTooDeep method => String.join ["method ", method, " needs too deep a stack"]
  | unwritable error => error.message

inductive CompileError where
  | diagnostic (diagnostic : Diagnostic)
  | internal (error : InternalError)
  | crashed (text? : Option String)
deriving DecidableEq

def CompileError.result {Result : Type} : CompileError → StepResult Result
  | diagnostic found => .failed (.diagnostic found.cause.message found.span)
  | internal error => .failed (.internal error.message)
  | crashed text? => .crashed text?

def CompileError.ofFailure : Failure InternalError → CompileError
  | .refused error => internal error
  | .crashed text? => crashed text?

def complain {Result : Type} (cause : Diagnostic.Cause) (span : Span) :
    Except CompileError Result :=
  .error (.diagnostic { cause, span })

end Lisp
end FragmentLisp
