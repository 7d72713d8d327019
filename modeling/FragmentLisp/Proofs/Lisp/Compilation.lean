import FragmentLisp.Lisp.Session
import FragmentLisp.Proofs.Compilation
import FragmentLisp.Proofs.Lisp.Generation

/-!
What compiling a fragment comes to. A unit that compiles has passed the grammar and the resolution, and its
artifact is what the generated type was written to.
-/

namespace FragmentLisp

namespace Lisp

/-- A type is generated for a unit whose body has passed the grammar and been resolved. -/
def Generates (unit : CompilationUnit Fragment) (definition : TypeDefinition) : Prop :=
  ∃ body, Grammar.check unit.body.statements = .ok () ∧
    Resolution.resolveFragment unit.fields unit.body.statements = .ok body ∧
    Code.typeDefinition unit body = .ok definition

def CompileError.failure : CompileError → StepFailure
  | diagnostic found => .reported (.diagnostic found.cause.message found.span)
  | internal error => .reported (.internal error.message)
  | crashed text? => .crashed text?

theorem CompileError.result_eq {Result : Type} (error : CompileError) :
    (error.result : StepResult Result) = error.failure.result := by
  cases error <;> rfl

def compilationError (unit : CompilationUnit Fragment) : CompileError → CompilationError
  | .diagnostic found => .semantic found.cause.message (unit.position found.span)
  | .internal error => .internal error.message
  | .crashed text? => .crashed "compilation" text?

section Units

variable {unit : CompilationUnit Fragment}

theorem guarded_result {Result : Type} (error : CompileError) :
    unit.guarded "compilation" (error.result : StepResult Result) =
      .error (compilationError unit error) := by
  cases error <;> rfl

theorem Generates.unique {first second : TypeDefinition} (left : Generates unit first)
    (right : Generates unit second) : first = second := by
  obtain ⟨body, _, resolved, typed⟩ := left
  obtain ⟨other, _, resolvedAgain, typedAgain⟩ := right
  obtain rfl : body = other := Except.ok.inj (resolved.symm.trans resolvedAgain)
  exact Except.ok.inj (typed.symm.trans typedAgain)

theorem generates_parts {definition : TypeDefinition} (generates : Generates unit definition) :
    ∃ body constructor entry filling running,
      Resolution.resolveFragment unit.fields unit.body.statements = .ok body ∧
      Resolution.Derived unit.fields unit.body.statements body ∧
      Code.Generated unit body definition constructor entry filling running := by
  obtain ⟨body, checked, resolved, typed⟩ := generates
  obtain ⟨constructor, entry, filling, running, generated⟩ := Code.generated_of_ok typed
  exact ⟨body, constructor, entry, filling, running, resolved,
    Resolution.derived_of_ok checked resolved, generated⟩

variable [ObjectFormat]

def translate (unit : CompilationUnit Fragment) : Except CompileError Artifact := do
  Grammar.check unit.body.statements
  let body ← Resolution.resolveFragment unit.fields unit.body.statements
  (Code.generate unit body).mapError .ofFailure

theorem generate_ok {body : Body} {artifact : Artifact}
    (generated : Code.generate unit body = .ok artifact) :
    ∃ definition, Code.typeDefinition unit body = .ok definition ∧
      definition.write = .ok artifact := by
  obtain ⟨definition, typed, written⟩ := bind_eq_ok.mp generated
  exact ⟨definition, mapError_eq_ok.mp typed, mapError_eq_ok.mp written⟩

theorem generate_of_untyped {body : Body} {error : InternalError}
    (untyped : Code.typeDefinition unit body = .error error) :
    Code.generate unit body = .error (.refused error) :=
  bind_eq_error.mpr (.inl (mapError_eq_error.mpr ⟨error, untyped, rfl⟩))

theorem generate_of_unwritten {body : Body} {definition : TypeDefinition}
    {failure : Failure ArtifactError} (typed : Code.typeDefinition unit body = .ok definition)
    (unwritten : definition.write = .error failure) :
    Code.generate unit body = .error (failure.map .unwritable) :=
  bind_eq_error.mpr (.inr ⟨definition, mapError_eq_ok.mpr typed,
    mapError_eq_error.mpr ⟨failure, unwritten, rfl⟩⟩)

theorem generate_name {body : Body} {artifact : Artifact}
    (generated : Code.generate unit body = .ok artifact) : artifact.name = unit.typeName := by
  obtain ⟨definition, typed, written⟩ := generate_ok generated
  obtain ⟨_, _, _, _, made⟩ := Code.generated_of_ok typed
  obtain ⟨_, _, named, _⟩ := TypeDefinition.write_ok written
  rw [named, made.definition_eq]

/-! Phases in their order. -/

/-- A phase fails, once the phases before it have gone well. -/
def FailsIn (unit : CompilationUnit Fragment) (phase : Phase) (failure : StepFailure) : Prop :=
  ∃ earlier later opened reached, Phase.all = earlier ++ phase :: later ∧
    frontEnd.openSession unit = .completed opened ∧
    unit.runPhases frontEnd earlier opened = .ok reached ∧
    frontEnd.runPhase unit phase reached = failure.result

/-- What makes a phase fail. -/
inductive Stops (unit : CompilationUnit Fragment) : Phase → CompileError → Prop
  | validation {error : CompileError} (refused : Grammar.check unit.body.statements = .error error) :
      Stops unit .validation error
  | resolution {error : CompileError} (checked : Grammar.check unit.body.statements = .ok ())
      (refused : Resolution.resolveFragment unit.fields unit.body.statements = .error error) :
      Stops unit .resolution error
  | generation {body : Body} {failure : Failure InternalError}
      (checked : Grammar.check unit.body.statements = .ok ())
      (resolved : Resolution.resolveFragment unit.fields unit.body.statements = .ok body)
      (refused : Code.generate unit body = .error failure) : Stops unit .generation (.ofFailure failure)

theorem stops_of_translate {error : CompileError} (failed : translate unit = .error error) :
    ∃ phase, Stops unit phase error := by
  unfold translate at failed
  rcases bind_eq_error.mp failed with refused | ⟨_, checked, afterChecking⟩
  · exact ⟨.validation, .validation refused⟩
  rcases bind_eq_error.mp afterChecking with refused | ⟨body, resolved, afterResolving⟩
  · exact ⟨.resolution, .resolution checked refused⟩
  obtain ⟨failure, refused, rfl⟩ := mapError_eq_error.mp afterResolving
  exact ⟨.generation, .generation checked resolved refused⟩

theorem runPhases_step {phase : Phase} {session next : Session}
    (step : session.runPhase unit phase = (.ok (), next)) (phases : List Phase) :
    unit.runPhases frontEnd (phase :: phases) session = unit.runPhases frontEnd phases next := by
  have completed : frontEnd.runPhase unit phase session = .completed next := by
    simp only [frontEnd, step]
  simp only [CompilationUnit.runPhases, completed]
  rfl

theorem runPhase_failed {phase : Phase} {session : Session} {error : CompileError}
    (step : (session.runPhase unit phase).1 = .error error) :
    frontEnd.runPhase unit phase session = error.failure.result := by
  have whole : session.runPhase unit phase = (.error error, (session.runPhase unit phase).2) :=
    Prod.ext step rfl
  simp only [frontEnd]
  rw [whole]
  exact error.result_eq

theorem validation_step (checked : Grammar.check unit.body.statements = .ok ()) :
    Session.initial.runPhase unit .validation =
      (.ok (), { Session.initial with completed? := some .validation }) := by
  simp [Session.runPhase, Session.perform, Session.initial, Phase.previous?, checked]

theorem resolution_step {body : Body}
    (resolved : Resolution.resolveFragment unit.fields unit.body.statements = .ok body) :
    { Session.initial with completed? := some .validation }.runPhase unit .resolution =
      (.ok (), { Session.initial with completed? := some .resolution, body? := some body }) := by
  simp [Session.runPhase, Session.perform, Phase.previous?, resolved]

theorem generation_step {body : Body} {artifact : Artifact}
    (generated : Code.generate unit body = .ok artifact) :
    { Session.initial with completed? := some .resolution, body? := some body }.runPhase unit
        .generation =
      (.ok (), { Session.initial with completed? := some .generation, artifacts := [artifact] }) := by
  simp [Session.runPhase, Session.perform, Session.initial, Phase.previous?, generated]

theorem Stops.failsIn {phase : Phase} {error : CompileError} (stops : Stops unit phase error) :
    FailsIn unit phase error.failure := by
  cases stops with
  | validation refused =>
      refine ⟨[], [.resolution, .generation], Session.initial, Session.initial, rfl, rfl, rfl,
        runPhase_failed ?_⟩
      simp [Session.runPhase, Session.perform, Session.initial, Phase.previous?, refused]
  | resolution checked refused =>
      refine ⟨[.validation], [.generation], Session.initial, _, rfl, rfl,
        runPhases_step (validation_step checked) [], runPhase_failed ?_⟩
      simp [Session.runPhase, Session.perform, Phase.previous?, refused]
  | generation checked resolved refused =>
      refine ⟨[.validation, .resolution], [], Session.initial, _, rfl, rfl,
        (runPhases_step (validation_step checked) _).trans
          (runPhases_step (resolution_step resolved) []),
        runPhase_failed ?_⟩
      simp [Session.runPhase, Session.perform, Phase.previous?, refused]

theorem FailsIn.compile {phase : Phase} {error : CompileError}
    (fails : FailsIn unit phase error.failure) :
    unit.compile frontEnd = .error (compilationError unit error) := by
  obtain ⟨earlier, later, opened, reached, phases, session, ran, failed⟩ := fails
  have stopped : unit.runPhases frontEnd Phase.all opened = .error (compilationError unit error) := by
    rw [phases, CompilationUnit.runPhases_append ran]
    unfold CompilationUnit.runPhases
    rw [failed, ← error.result_eq, guarded_result]
    rfl
  unfold CompilationUnit.compile
  rw [session]
  exact bind_eq_error.mpr (.inr ⟨opened, rfl, bind_eq_error.mpr (.inl stopped)⟩)

/-- The phases run in their order, each on what the one before it has left, and the artifact that is made
has the name that is asked for; so nothing but a phase can fail. -/
theorem compile_eq (unit : CompilationUnit Fragment) :
    unit.compile frontEnd = (translate unit).mapError (compilationError unit) := by
  cases translated : translate unit with
  | error error =>
      obtain ⟨phase, stops⟩ := stops_of_translate translated
      exact stops.failsIn.compile
  | ok artifact =>
      obtain ⟨_, checked, afterChecking⟩ := bind_eq_ok.mp translated
      obtain ⟨body, resolved, afterResolving⟩ := bind_eq_ok.mp afterChecking
      have generated := mapError_eq_ok.mp afterResolving
      have ran := (runPhases_step (validation_step checked) [.resolution, .generation]).trans
        ((runPhases_step (resolution_step resolved) [.generation]).trans
          (runPhases_step (generation_step generated) []))
      refine bind_eq_ok.mpr ⟨Session.initial, rfl, bind_eq_ok.mpr ⟨_, ran, ?_⟩⟩
      exact bind_eq_ok.mpr ⟨[artifact], rfl, if_pos (generate_name generated)⟩

theorem compile_ok {artifact : Artifact} (compiled : unit.compile frontEnd = .ok artifact) :
    ∃ definition, Generates unit definition ∧ definition.write = .ok artifact := by
  rw [compile_eq, mapError_eq_ok] at compiled
  obtain ⟨_, checked, afterChecking⟩ := bind_eq_ok.mp compiled
  obtain ⟨body, resolved, generated⟩ := bind_eq_ok.mp afterChecking
  obtain ⟨definition, typed, written⟩ := generate_ok (mapError_eq_ok.mp generated)
  exact ⟨definition, ⟨body, checked, resolved, typed⟩, written⟩

theorem compile_of_written {definition : TypeDefinition} {artifact : Artifact}
    (generates : Generates unit definition) (written : definition.write = .ok artifact) :
    unit.compile frontEnd = .ok artifact := by
  obtain ⟨body, checked, resolved, typed⟩ := generates
  have generated : Code.generate unit body = .ok artifact :=
    bind_eq_ok.mpr ⟨definition, mapError_eq_ok.mpr typed, mapError_eq_ok.mpr written⟩
  rw [compile_eq, mapError_eq_ok]
  exact bind_eq_ok.mpr ⟨(), checked, bind_eq_ok.mpr ⟨body, resolved, mapError_eq_ok.mpr generated⟩⟩

end Units

end Lisp
end FragmentLisp
