import FragmentLisp.FrontEnd

/-!
Compiling a unit with any front end: a session is opened, the phases run in order, and the session must
hand over exactly one artifact, under the name of the unit's type. The first step that does not succeed
ends the compilation.
-/

namespace FragmentLisp

/-- A place in a fragment, counted from the fragment's beginning. -/
structure Position where
  offset : Nat
  length : Nat
deriving DecidableEq

inductive CompilationError where
  | semantic (message : String) (position : Position)
  | internal (message : String)
  | crashed (step : String) (text? : Option String)
  | artifactCount (unit : String) (count : Nat)
  | artifactName (artifact unit : String)
deriving DecidableEq

def CompilationError.message : CompilationError → String
  | semantic message _ => message
  | internal message => message
  | crashed step text? =>
      String.join ["front-end panicked during ", step, ": ", text?.getD "unknown panic"]
  | artifactCount unit count =>
      String.join ["expected exactly one generated type for ", unit, ", got ", toString count]
  | artifactName artifact unit =>
      String.join ["generated type ", artifact, " does not match ", unit]

namespace CompilationUnit

def position {Fragment : Type} (unit : CompilationUnit Fragment) (span : Span) : Position :=
  { offset := span.start - unit.origin, length := span.length }

/-- The result of a step, or the reason for which it ends the compilation. -/
def guarded {Fragment Result : Type} (unit : CompilationUnit Fragment) (step : String) :
    StepResult Result → Except CompilationError Result
  | .completed result => .ok result
  | .failed (.diagnostic message span) => .error (.semantic message (unit.position span))
  | .failed (.internal message) => .error (.internal message)
  | .crashed text? => .error (.crashed step text?)

def runPhases {Fragment : Type} (frontEnd : FrontEnd Fragment) (unit : CompilationUnit Fragment) :
    List Phase → frontEnd.Session → Except CompilationError frontEnd.Session
  | [], session => .ok session
  | phase :: phases, session => do
      let session ← unit.guarded "compilation" (frontEnd.runPhase unit phase session)
      runPhases frontEnd unit phases session

/-- The only artifact, if it has the name of the unit's type. -/
def selectArtifact {Fragment : Type} (unit : CompilationUnit Fragment) :
    List Artifact → Except CompilationError Artifact
  | [artifact] =>
      if artifact.name = unit.typeName then .ok artifact
      else .error (.artifactName artifact.name unit.typeName)
  | artifacts => .error (.artifactCount unit.typeName artifacts.length)

def compile {Fragment : Type} (frontEnd : FrontEnd Fragment) (unit : CompilationUnit Fragment) :
    Except CompilationError Artifact := do
  let session ← unit.guarded "session setup" (frontEnd.openSession unit)
  let session ← runPhases frontEnd unit Phase.all session
  let artifacts ← unit.guarded "artifact collection" (frontEnd.artifacts session)
  unit.selectArtifact artifacts

end CompilationUnit
end FragmentLisp
