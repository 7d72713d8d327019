import FragmentLisp.ObjectFile.Image
import FragmentLisp.Proofs.Lisp.Compilation

/-!
Sessions that are driven by hand. Phases may be asked for in any order, again and again, and each time on
another unit. What a session then holds is still decided by the calls that succeed, which are at most one
for each phase and come in the order of the phases.
-/

namespace FragmentLisp
namespace Lisp

structure Request where
  unit : CompilationUnit Fragment
  phase : Phase

namespace Session

section Calls

variable [ObjectFormat]

def call (session : Session) (request : Request) : Except CompileError Unit × Session :=
  session.runPhase request.unit request.phase

def after (session : Session) (requests : List Request) : Session :=
  requests.foldl (fun reached request => (reached.call request).2) session

/-- The calls that succeed when calls are made in turn. -/
def succeeded (session : Session) : List Request → List Request
  | [] => []
  | request :: rest =>
      match session.call request with
      | (.ok _, next) => request :: next.succeeded rest
      | (.error _, next) => next.succeeded rest

def Resolves (unit : CompilationUnit Fragment) (body : Body) : Prop :=
  Resolution.resolveFragment unit.fields unit.body.statements = .ok body

/-- An artifact has the name of a unit's type, and the entry method of the type that it was written from
is named as the unit asks and holds the code of a body. -/
def MadeOf (unit : CompilationUnit Fragment) (body : Body) (artifact : Artifact) : Prop :=
  artifact.name = unit.typeName ∧
    ∃ (definition : TypeDefinition) (constructor entry : Method) (code : List Instruction),
      definition.write = .ok artifact ∧
      definition.methods = [constructor, entry] ∧ entry.signature.name = unit.entryMethod ∧
      Code.ofBody (Constants.ofBody unit.fields body) body = .ok code ∧
      entry.code = (Instruction.encodeAll code).toArray

/-- What a call can come to. Out of its turn, and in most of its failures, it leaves the session as it is;
only a generation that fails in its turn loses the body. -/
inductive Calls (session : Session) : Request → Except CompileError Unit × Session → Prop
  | refused (request : Request) (error : CompileError)
      (spared : request.phase = .generation →
        session.completed? ≠ some .resolution ∨ session.body? = none) :
      Calls session request (.error error, session)
  | lost (unit : CompilationUnit Fragment) (error : CompileError)
      (turn : session.completed? = some .resolution) :
      Calls session ⟨unit, .generation⟩ (.error error, { session with body? := none })
  | validated (unit : CompilationUnit Fragment) (turn : session.completed? = none) :
      Calls session ⟨unit, .validation⟩ (.ok (), { session with completed? := some .validation })
  | resolved {unit : CompilationUnit Fragment} {body : Body}
      (turn : session.completed? = some .validation) (resolves : Resolves unit body) :
      Calls session ⟨unit, .resolution⟩
        (.ok (), { session with completed? := some .resolution, body? := some body })
  | generated {unit : CompilationUnit Fragment} {body : Body} {artifact : Artifact}
      (turn : session.completed? = some .resolution) (held : session.body? = some body)
      (generates : Code.generate unit body = .ok artifact) :
      Calls session ⟨unit, .generation⟩
        (.ok (),
          { completed? := some .generation
            body? := none
            artifacts := session.artifacts ++ [artifact] })

/-- Where a session can be, with the calls that have succeeded. A session is spent when a generation has
failed: it still counts as resolved, but the body is gone. -/
inductive Reached : List Request → Session → Prop
  | opened : Reached [] initial
  | validated (unit : CompilationUnit Fragment) :
      Reached [⟨unit, .validation⟩]
        { completed? := some .validation, body? := none, artifacts := [] }
  | resolved (checked : CompilationUnit Fragment) {unit : CompilationUnit Fragment} {body : Body}
      (resolves : Resolves unit body) :
      Reached [⟨checked, .validation⟩, ⟨unit, .resolution⟩]
        { completed? := some .resolution, body? := some body, artifacts := [] }
  | spent (checked unit : CompilationUnit Fragment) :
      Reached [⟨checked, .validation⟩, ⟨unit, .resolution⟩]
        { completed? := some .resolution, body? := none, artifacts := [] }
  | generated (checked : CompilationUnit Fragment) {unit last : CompilationUnit Fragment}
      {body : Body} {artifact : Artifact} (resolves : Resolves unit body)
      (generates : Code.generate last body = .ok artifact) :
      Reached [⟨checked, .validation⟩, ⟨unit, .resolution⟩, ⟨last, .generation⟩]
        { completed? := some .generation, body? := none, artifacts := [artifact] }

variable {session : Session} {done : List Request} {request : Request}

/-! What one call does. -/

theorem calls (session : Session) (request : Request) :
    Calls session request (session.call request) := by
  obtain ⟨unit, phase⟩ := request
  unfold call runPhase
  split
  · rename_i turn
    unfold perform
    cases phase with
    | validation =>
        dsimp only
        split
        · exact .validated unit turn
        · exact .refused _ _ nofun
    | resolution =>
        dsimp only
        split
        · rename_i body resolves
          exact .resolved turn resolves
        · exact .refused _ _ nofun
    | generation =>
        dsimp only
        split
        · rename_i gone
          exact .refused _ _ fun _ => .inr gone
        · rename_i body held
          split
          · rename_i artifact generates
            simpa [turn, Phase.previous?] using Calls.generated turn held generates
          · exact .lost unit _ turn
  · rename_i early
    refine .refused _ _ fun asked => .inl ?_
    obtain rfl : phase = .generation := asked
    exact early

/-- Only the body can be lost in a call that fails. -/
theorem failed_call_keeps {error : CompileError}
    (failed : (session.call request).1 = .error error) :
    (session.call request).2.completed? = session.completed? ∧
      (session.call request).2.artifacts = session.artifacts := by
  have possible := calls session request
  generalize session.call request = result at possible failed ⊢
  cases possible with
  | refused | lost => exact ⟨rfl, rfl⟩
  | validated | resolved | generated => cases failed

/-- A call takes a session to another that can be reached, and counts if it succeeds. -/
theorem Reached.call (reached : Reached done session) (request : Request) :
    match session.call request with
    | (.ok _, next) => Reached (done ++ [request]) next
    | (.error _, next) => Reached done next := by
  have possible := calls session request
  generalize session.call request = result at possible ⊢
  cases possible with
  | refused => exact reached
  | lost unit error turn =>
      cases reached with
      | resolved checked resolves => exact .spent checked _
      | spent checked last => exact .spent checked last
      | opened | validated | generated => cases turn
  | validated unit turn =>
      cases reached with
      | opened => exact .validated unit
      | validated | resolved | spent | generated => cases turn
  | resolved turn resolves =>
      cases reached with
      | validated unit => exact .resolved unit resolves
      | opened | resolved | spent | generated => cases turn
  | generated turn held generates =>
      cases reached with
      | resolved checked resolves =>
          obtain rfl := Option.some.inj held
          exact .generated checked resolves generates
      | spent => cases held
      | opened | validated | generated => cases turn

/-- Whatever is called, the session stays among those that can be reached. -/
theorem Reached.run (reached : Reached done session) (requests : List Request) :
    Reached (done ++ session.succeeded requests) (session.after requests) := by
  induction requests generalizing done session with
  | nil => simpa [succeeded, after] using reached
  | cons request rest inductionHypothesis =>
      have step := reached.call request
      unfold succeeded after
      rw [List.foldl_cons]
      cases called : session.call request with
      | mk outcome next =>
          rw [called] at step
          cases outcome with
          | error error => exact inductionHypothesis step
          | ok done =>
              have behind := inductionHypothesis step
              rwa [List.append_assoc] at behind

/-! When nothing can succeed any more. -/

/-- A session that has been resolved and has no body any more: it is spent, or it has its artifact. -/
def Exhausted (session : Session) : Prop :=
  session.body? = none ∧
    (session.completed? = some .resolution ∨ session.completed? = some .generation)

theorem Exhausted.call (exhausted : session.Exhausted) (request : Request) :
    ∃ error, session.call request = (.error error, session) := by
  obtain ⟨gone, late⟩ := exhausted
  have possible := calls session request
  generalize session.call request = result at possible ⊢
  cases possible with
  | refused _ error => exact ⟨error, rfl⟩
  | lost unit error =>
      refine ⟨error, congrArg (Prod.mk _) ?_⟩
      cases session
      cases gone
      rfl
  | validated unit turn | resolved turn => simp [turn] at late
  | generated turn held => simp [gone] at held

theorem Exhausted.succeeded (exhausted : session.Exhausted) (requests : List Request) :
    session.succeeded requests = [] := by
  induction requests with
  | nil => rfl
  | cons request rest inductionHypothesis =>
      obtain ⟨error, called⟩ := exhausted.call request
      rw [Session.succeeded, called]
      exact inductionHypothesis

theorem Reached.exhausted_of_failed {unit : CompilationUnit Fragment} {error : CompileError}
    (reached : Reached done session) (resolved : .resolution ∈ done.map Request.phase)
    (failed : (session.call ⟨unit, .generation⟩).1 = .error error) :
    (session.call ⟨unit, .generation⟩).2.Exhausted := by
  have possible := calls session ⟨unit, .generation⟩
  generalize session.call ⟨unit, .generation⟩ = result at possible failed ⊢
  cases possible with
  | refused _ _ spared =>
      cases reached with
      | opened | validated => simp at resolved
      | resolved => simpa using spared rfl
      | spent => exact ⟨rfl, .inl rfl⟩
      | generated => exact ⟨rfl, .inr rfl⟩
  | lost _ _ turn => exact ⟨rfl, .inl turn⟩
  | generated => cases failed

/-! What the calls that succeed tell of the session. -/

theorem Reached.in_order (reached : Reached done session) :
    done.map Request.phase <+: Phase.all := by
  cases reached with
  | opened => exact List.nil_prefix
  | validated => exact ⟨[.resolution, .generation], rfl⟩
  | resolved | spent => exact ⟨[.generation], rfl⟩
  | generated => exact ⟨[], rfl⟩

theorem Reached.no_artifact (reached : Reached done session)
    (missing : .generation ∉ done.map Request.phase) : session.artifacts = [] := by
  cases reached with
  | opened | validated | resolved | spent => rfl
  | generated => simp at missing

theorem madeOf_of_generate {unit : CompilationUnit Fragment} {body : Body} {artifact : Artifact}
    (generates : Code.generate unit body = .ok artifact) : MadeOf unit body artifact := by
  refine ⟨generate_name generates, ?_⟩
  obtain ⟨definition, typed, written⟩ := generate_ok generates
  obtain ⟨constructor, entry, filling, running, generated⟩ := Code.generated_of_ok typed
  exact ⟨definition, constructor, entry, running ++ Code.ending body, written, generated.methods,
    generated.entry.name, generated.made, generated.entry.code⟩

theorem Reached.artifact {generating : CompilationUnit Fragment} (reached : Reached done session)
    (made : ⟨generating, .generation⟩ ∈ done) :
    ∃ (resolving : CompilationUnit Fragment) (body : Body) (artifact : Artifact),
      ⟨resolving, .resolution⟩ ∈ done ∧ Resolves resolving body ∧
      session.artifacts = [artifact] ∧ MadeOf generating body artifact := by
  cases reached with
  | opened | validated | resolved | spent => simp at made
  | generated checked resolves generates =>
      obtain rfl : generating = _ := by simpa using made
      exact ⟨_, _, _, by simp, resolves, rfl, madeOf_of_generate generates⟩

/-- Whatever is called on a new session, with any units: the phases that succeed come in their order and
each once, and a call that fails changes neither the phase that counts as completed nor the artifacts.
There is one artifact if a generation has succeeded, and none otherwise. It has the name of the unit that
generation was asked for, and its entry method the code of the body that was found for the unit resolution
was asked for. If a generation fails after a resolution has succeeded, nothing succeeds any more. -/
theorem calls_obey_protocol (requests : List Request) :
    (initial.succeeded requests).map Request.phase <+: Phase.all ∧
    (∀ request error, ((initial.after requests).call request).1 = .error error →
      ((initial.after requests).call request).2.completed? = (initial.after requests).completed? ∧
      ((initial.after requests).call request).2.artifacts = (initial.after requests).artifacts) ∧
    (.generation ∉ (initial.succeeded requests).map Request.phase →
      (initial.after requests).artifacts = []) ∧
    (∀ generating, ⟨generating, .generation⟩ ∈ initial.succeeded requests →
      ∃ (resolving : CompilationUnit Fragment) (body : Body) (artifact : Artifact),
        ⟨resolving, .resolution⟩ ∈ initial.succeeded requests ∧ Resolves resolving body ∧
        (initial.after requests).artifacts = [artifact] ∧ MadeOf generating body artifact) ∧
    (∀ unit error, .resolution ∈ (initial.succeeded requests).map Request.phase →
      ((initial.after requests).call ⟨unit, .generation⟩).1 = .error error →
      ∀ later, ((initial.after requests).call ⟨unit, .generation⟩).2.succeeded later = []) := by
  have reached : Reached (initial.succeeded requests) (initial.after requests) :=
    Reached.opened.run requests
  refine ⟨reached.in_order, ?_, reached.no_artifact, ?_, ?_⟩
  · intro request error failed
    exact failed_call_keeps failed
  · intro generating made
    exact reached.artifact made
  · intro unit error resolved failed later
    exact (reached.exhausted_of_failed resolved failed).succeeded later

end Calls

def oneUnit (fields : List Field) : CompilationUnit Fragment :=
  { typeName := "Fragment$1"
    entryMethod := "run"
    fields
    body := [.number 1 ⟨0, 1⟩]
    shape := .expression
    origin := 0 }

/-- A field without a value makes the generation fail, and trying it again with another unit is in
vain. -/
example :
    (initial.succeeded
      [⟨oneUnit [], .validation⟩, ⟨oneUnit [], .resolution⟩,
        ⟨oneUnit [{ name := "x", value := .nothing }], .generation⟩,
        ⟨oneUnit [], .generation⟩, ⟨oneUnit [], .resolution⟩]).map Request.phase =
      [.validation, .resolution] := by
  decide +kernel

end Session
end Lisp
end FragmentLisp
