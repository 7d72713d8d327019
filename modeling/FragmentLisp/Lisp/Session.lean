import FragmentLisp.Lisp.Code
import FragmentLisp.Lisp.Fragment
import FragmentLisp.Lisp.Grammar
import FragmentLisp.Lisp.Resolution

/-!
Compiling units of the language phase by phase. A phase runs only right after the one before it, and
each may be run on another unit. A phase that fails can be tried again, but generation uses up the
resolved body even when it fails.
-/

namespace FragmentLisp
namespace Lisp

structure Session where
  completed? : Option Phase
  body? : Option Body
  artifacts : List Artifact

namespace Session

def initial : Session :=
  { completed? := none, body? := none, artifacts := [] }

def perform [ObjectFormat] (unit : CompilationUnit Fragment) (phase : Phase) (session : Session) :
    Except CompileError Unit × Session :=
  match phase with
  | .validation =>
      match Grammar.check unit.body.statements with
      | .ok _ => (.ok (), { session with completed? := some .validation })
      | .error error => (.error error, session)
  | .resolution =>
      match Resolution.resolveFragment unit.fields unit.body.statements with
      | .ok body => (.ok (), { session with completed? := some .resolution, body? := some body })
      | .error error => (.error error, session)
  | .generation =>
      match session.body? with
      | none => (.error (.internal .missingBody), session)
      | some body =>
          let emptied := { session with body? := none }
          match Code.generate unit body with
          | .ok artifact =>
              (.ok (),
                { emptied with
                  completed? := some .generation
                  artifacts := session.artifacts ++ [artifact] })
          | .error failure => (.error (.ofFailure failure), emptied)

def runPhase [ObjectFormat] (unit : CompilationUnit Fragment) (phase : Phase) (session : Session) :
    Except CompileError Unit × Session :=
  if session.completed? = phase.previous? then session.perform unit phase
  else (.error (.internal (.phaseOutOfOrder phase)), session)

end Session

/-- The front end of the language. Of its own it never crashes. -/
def frontEnd [ObjectFormat] : FrontEnd Fragment :=
  { Session := Session
    inspect := Fragment.overview
    openSession := fun _ => .completed Session.initial
    runPhase := fun unit phase session =>
      match session.runPhase unit phase with
      | (.ok _, next) => .completed next
      | (.error error, _) => error.result
    artifacts := fun session => .completed session.artifacts }

end Lisp
end FragmentLisp
