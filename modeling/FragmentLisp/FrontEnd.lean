import FragmentLisp.Artifact
import FragmentLisp.Node
import FragmentLisp.Value

/-!
Front ends. A front end looks at fragments of its own form and compiles a unit in a session, phase by
phase. Nothing is assumed of it: every step can succeed, report a problem of the fragment or of its own,
or crash, and it can hand over any artifacts.
-/

namespace FragmentLisp

inductive Phase where
  | validation
  | resolution
  | generation
deriving DecidableEq

namespace Phase

def all : List Phase :=
  [validation, resolution, generation]

def name : Phase → String
  | validation => "validation"
  | resolution => "resolution"
  | generation => "generation"

def previous? : Phase → Option Phase
  | validation => none
  | resolution => some validation
  | generation => some resolution

end Phase

inductive Shape where
  | empty
  | expression
  | statement
  | block (statements : Nat)
  | declaration
deriving DecidableEq

/-- What a front end tells of a fragment before anything is compiled. -/
structure Overview where
  shape : Shape
  /-- Where the fragment begins in its source. -/
  origin : Nat
  /-- How many lists and vectors nest. -/
  depth : Nat
deriving DecidableEq

/-- A host binding as a field of the type that a fragment is compiled to. -/
structure Field where
  name : String
  value : Value
deriving DecidableEq

/-- A fragment as the body of the entry method of a type of its own. -/
structure CompilationUnit (Fragment : Type) where
  typeName : String
  entryMethod : String
  fields : List Field
  body : Fragment
  shape : Shape
  origin : Nat

inductive FrontEndError where
  /-- A problem of the fragment, at a place in its source. -/
  | diagnostic (message : String) (span : Span)
  /-- A problem of the front end itself. -/
  | internal (message : String)
deriving DecidableEq

/-- How a step of a front end ends. A crash may leave a text. -/
inductive StepResult (Result : Type) where
  | completed (result : Result)
  | failed (error : FrontEndError)
  | crashed (text? : Option String)

structure FrontEnd (Fragment : Type) where
  Session : Type
  inspect : Fragment → Overview
  openSession : CompilationUnit Fragment → StepResult Session
  runPhase : CompilationUnit Fragment → Phase → Session → StepResult Session
  artifacts : Session → StepResult (List Artifact)

end FragmentLisp
