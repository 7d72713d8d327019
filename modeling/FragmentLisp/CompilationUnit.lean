import FragmentLisp.Bindings
import FragmentLisp.FrontEnd
import FragmentLisp.Options

/-!
Making a fragment the body of a unit. A fragment that is empty, declares something, has more statements
than the host allows or nests too deep is refused, and so is a binding that has no value.
-/

namespace FragmentLisp

inductive WrapError where
  | emptyFragment
  | declaration
  | tooManyStatements (count : Nat)
  | tooDeep (depth limit : Nat)
  | emptyEntryMethod
  | reservedEntryMethod
  | missingValue (binding : String)
deriving DecidableEq

def WrapError.message : WrapError → String
  | emptyFragment => "fragment is empty"
  | declaration => "a declaration cannot be embedded as a method body"
  | tooManyStatements count =>
      String.join ["fragment has ", toString count,
        " statements but only a single expression or statement is accepted"]
  | tooDeep depth limit =>
      String.join ["fragment nests ", toString depth, " levels deep, the limit is ", toString limit]
  | emptyEntryMethod => "entry method name is empty"
  | reservedEntryMethod =>
      String.join ["entry method cannot be named ", TypeDefinition.constructorName]
  | missingValue binding => String.join ["binding '", binding, "' has no value"]

namespace CompilationUnit

def numberedName (typeNamePrefix : String) (number : UInt64) : String :=
  s!"{typeNamePrefix}${number.toNat}"

def checkShape (options : Options) : Shape → Except WrapError Unit
  | .empty => .error .emptyFragment
  | .declaration => .error .declaration
  | .block statements =>
      if options.allowBlocks then .ok () else .error (.tooManyStatements statements)
  | .expression => .ok ()
  | .statement => .ok ()

def checkOptions (options : Options) (depth : Nat) : Except WrapError Unit :=
  if options.nestingLimit < depth then .error (.tooDeep depth options.nestingLimit)
  else if options.entryMethod.isEmpty then .error .emptyEntryMethod
  else if options.entryMethod = TypeDefinition.constructorName then .error .reservedEntryMethod
  else .ok ()

def checkBindings (bindings : Bindings) : Except WrapError Unit :=
  match bindings.entries.find? fun entry => entry.2 = .nothing with
  | some (name, _) => .error (.missingValue name)
  | none => .ok ()

def fieldsOf (bindings : Bindings) : List Field :=
  bindings.entries.map fun (name, value) => { name, value }

/-- Wrap a fragment into a unit whose type gets the given number. -/
def wrap {Fragment : Type} (frontEnd : FrontEnd Fragment) (options : Options)
    (bindings : Bindings) (number : UInt64) (fragment : Fragment) :
    Except WrapError (CompilationUnit Fragment) := do
  let overview := frontEnd.inspect fragment
  checkShape options overview.shape
  checkOptions options overview.depth
  checkBindings bindings
  return {
    typeName := numberedName options.typeNamePrefix number
    entryMethod := options.entryMethod
    fields := fieldsOf bindings
    body := fragment
    shape := overview.shape
    origin := overview.origin }

end CompilationUnit
end FragmentLisp
