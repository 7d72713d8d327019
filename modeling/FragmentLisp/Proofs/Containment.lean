import FragmentLisp.Proofs.Compilation
import FragmentLisp.Proofs.Instance.Ending
import FragmentLisp.Proofs.Safety

/-!
Evaluation with any front end. Whatever the front end does, and whatever artifacts it hands over, the
evaluation ends with a value or with an error that tells which stage was the first to fail; only verified
code that runs for ever keeps it from ending. Nothing is assumed of the front end here.
-/

namespace FragmentLisp

namespace CompilationUnit

variable {Fragment : Type} {unit : CompilationUnit Fragment}

theorem selectArtifact_error_kind {artifacts : List Artifact} {error : CompilationError}
    (failed : unit.selectArtifact artifacts = .error error) :
    (EvalError.ofCompilation error).kind = .internalCompilerFault := by
  unfold selectArtifact at failed
  split at failed
  · split at failed
    · simp at failed
    · rw [← Except.error.inj failed]
      rfl
  · rw [← Except.error.inj failed]
    rfl

end CompilationUnit

/-- An evaluation with all that it is given. -/
structure Attempt (Fragment : Type) where
  host : Host
  frontEnd : FrontEnd Fragment
  options : Options
  bindings : Bindings
  fragment : Fragment

namespace Attempt

open Instance (Startable Unstartable constructing entering program)

section Course

variable [ObjectFormat] {Fragment : Type}

/-- The answer when so many steps are allowed for each of the two runs. -/
def answer? (attempt : Attempt Fragment) (steps : Nat) : Option (Except EvalError Evaluation) :=
  (attempt.host.evaluate attempt.frontEnd attempt.options attempt.bindings steps
    attempt.fragment).1

def wrapped (attempt : Attempt Fragment) : Except WrapError (CompilationUnit Fragment) :=
  CompilationUnit.wrap attempt.frontEnd attempt.options attempt.bindings attempt.host.nextNumber
    attempt.fragment

def Makes (attempt : Attempt Fragment) (artifact : Artifact) : Prop :=
  ∃ unit, attempt.wrapped = .ok unit ∧ unit.Delivers attempt.frontEnd [artifact] ∧
    artifact.name = unit.typeName

def Loads (attempt : Attempt Fragment) (definition : TypeDefinition) : Prop :=
  ∃ artifact registry, attempt.Makes artifact ∧
    attempt.host.registry.define attempt.options.stackLimit artifact = .ok (definition, registry)

/-- The type has been loaded, and both of its methods are fit to be run. -/
structure Starts (attempt : Attempt Fragment) (definition : TypeDefinition)
    (constructor entry : Method) : Prop where
  loads : attempt.Loads definition
  startable : Startable definition attempt.options.entryMethod constructor entry

structure Constructs (attempt : Attempt Fragment) (definition : TypeDefinition)
    (constructor entry : Method) (left : Machine.State) : Prop
    extends attempt.Starts definition constructor entry where
  constructed : ∃ value?, Machine.Finishes
    (program definition constructor attempt.options.stackLimit)
    (constructing definition constructor) value? left

/-- A stage of the evaluation is the first to fail. Its failure is of this kind. -/
inductive Fails (attempt : Attempt Fragment) : ErrorKind → Prop
  | wrapping {error : WrapError} (refused : attempt.wrapped = .error error) :
      Fails attempt .invalidFragment
  | diagnostic {unit : CompilationUnit Fragment} {step : FrontEndStep} {message : String}
      {span : Span} (wrapped : attempt.wrapped = .ok unit)
      (fails : unit.FailsAt attempt.frontEnd step (.reported (.diagnostic message span))) :
      Fails attempt .semanticError
  | internal {unit : CompilationUnit Fragment} {step : FrontEndStep} {message : String}
      (wrapped : attempt.wrapped = .ok unit)
      (fails : unit.FailsAt attempt.frontEnd step (.reported (.internal message))) :
      Fails attempt .internalCompilerFault
  | crash {unit : CompilationUnit Fragment} {step : FrontEndStep} {text? : Option String}
      (wrapped : attempt.wrapped = .ok unit)
      (fails : unit.FailsAt attempt.frontEnd step (.crashed text?)) :
      Fails attempt .internalCompilerFault
  | delivery {unit : CompilationUnit Fragment} {artifacts : List Artifact}
      (wrapped : attempt.wrapped = .ok unit) (delivers : unit.Delivers attempt.frontEnd artifacts)
      (wrong : ¬ ∃ artifact, artifacts = [artifact] ∧ artifact.name = unit.typeName) :
      Fails attempt .internalCompilerFault
  | loading {artifact : Artifact} {error : LoadError} (makes : attempt.Makes artifact)
      (refused : attempt.host.registry.define attempt.options.stackLimit artifact = .error error) :
      Fails attempt .loadFailure
  | starting {definition : TypeDefinition} (loads : attempt.Loads definition)
      (unstartable : Unstartable definition attempt.options.entryMethod) :
      Fails attempt .instantiationFailure
  | constructor {definition : TypeDefinition} {constructor entry : Method} {fault : Fault}
      (starts : attempt.Starts definition constructor entry)
      (faults : Machine.Faults (program definition constructor attempt.options.stackLimit)
        (constructing definition constructor) fault) : Fails attempt .instantiationFailure
  | entry {definition : TypeDefinition} {constructor entry : Method} {left : Machine.State}
      {fault : Fault} (constructs : attempt.Constructs definition constructor entry left)
      (faults : Machine.Faults (program definition entry attempt.options.stackLimit)
        (entering entry left) fault) : Fails attempt .evaluationFailure

/-- Every stage succeeds, and the entry method returns. -/
inductive Succeeds (attempt : Attempt Fragment) : Evaluation → Prop
  | returned {definition : TypeDefinition} {constructor entry : Method} {left : Machine.State}
      {value? : Option Value} {final : Machine.State}
      (constructs : attempt.Constructs definition constructor entry left)
      (finishes : Machine.Finishes (program definition entry attempt.options.stackLimit)
        (entering entry left) value? final) :
      Succeeds attempt
        { value := value?.getD .nothing, output := final.output, typeName := definition.name }

/-- A loaded type has a constructor or an entry method that never comes to an end. -/
inductive RunsForEver (attempt : Attempt Fragment) : Prop
  | constructor {definition : TypeDefinition} {constructor entry : Method}
      (starts : attempt.Starts definition constructor entry)
      (endless : Machine.RunsForEver (program definition constructor attempt.options.stackLimit)
        (constructing definition constructor)) : RunsForEver attempt
  | entry {definition : TypeDefinition} {constructor entry : Method} {left : Machine.State}
      (constructs : attempt.Constructs definition constructor entry left)
      (endless : Machine.RunsForEver (program definition entry attempt.options.stackLimit)
        (entering entry left)) : RunsForEver attempt

end Course

section Answers

variable {Fragment : Type} {attempt : Attempt Fragment}

theorem makes_iff {artifact : Artifact} :
    attempt.Makes artifact ↔
      ∃ unit, attempt.wrapped = .ok unit ∧ unit.compile attempt.frontEnd = .ok artifact := by
  constructor
  · rintro ⟨unit, wrapped, made⟩
    exact ⟨unit, wrapped, CompilationUnit.compile_ok_iff.mpr made⟩
  · rintro ⟨unit, wrapped, compiled⟩
    exact ⟨unit, wrapped, CompilationUnit.compile_ok_iff.mp compiled⟩

variable [ObjectFormat]

theorem answer?_eq (attempt : Attempt Fragment) (steps : Nat) :
    attempt.answer? steps =
      match attempt.wrapped with
      | .error error => some (.error (.ofWrapping error))
      | .ok unit =>
          match unit.compile attempt.frontEnd with
          | .error error => some (.error (.ofCompilation error))
          | .ok artifact =>
              match attempt.host.registry.define attempt.options.stackLimit artifact with
              | .error error => some (.error (.ofLoading error))
              | .ok (definition, _) => Host.execute attempt.options steps definition := by
  unfold answer? Host.evaluate wrapped
  cases CompilationUnit.wrap attempt.frontEnd attempt.options attempt.bindings
      attempt.host.nextNumber attempt.fragment with
  | error error => rfl
  | ok unit =>
      dsimp only
      cases unit.compile attempt.frontEnd with
      | error error => rfl
      | ok artifact =>
          dsimp only
          cases attempt.host.registry.define attempt.options.stackLimit artifact with
          | error error => rfl
          | ok loaded => rfl

theorem Loads.answer? {definition : TypeDefinition} (loads : attempt.Loads definition) (steps : Nat) :
    attempt.answer? steps = Host.execute attempt.options steps definition := by
  obtain ⟨artifact, registry, makes, defined⟩ := loads
  obtain ⟨unit, wrapped, compiled⟩ := makes_iff.mp makes
  rw [answer?_eq, wrapped]
  dsimp only
  rw [compiled]
  dsimp only
  rw [defined]

theorem answer?_of_compile {unit : CompilationUnit Fragment} {error : CompilationError}
    (wrapped : attempt.wrapped = .ok unit) (failed : unit.compile attempt.frontEnd = .error error)
    (steps : Nat) : attempt.answer? steps = some (.error (.ofCompilation error)) := by
  rw [answer?_eq, wrapped]
  dsimp only
  rw [failed]

theorem Fails.answer? {kind : ErrorKind} (fails : attempt.Fails kind) :
    ∃ steps error, attempt.answer? steps = some (.error error) ∧ error.kind = kind := by
  cases fails with
  | wrapping refused => exact ⟨0, .ofWrapping _, by rw [answer?_eq, refused], rfl⟩
  | diagnostic wrapped fails => exact ⟨0, _, answer?_of_compile wrapped fails.compile 0, rfl⟩
  | internal wrapped fails => exact ⟨0, _, answer?_of_compile wrapped fails.compile 0, rfl⟩
  | crash wrapped fails => exact ⟨0, _, answer?_of_compile wrapped fails.compile 0, rfl⟩
  | @delivery unit artifacts wrapped delivers wrong =>
      cases selected : unit.selectArtifact artifacts with
      | ok artifact => exact absurd ⟨artifact, CompilationUnit.selectArtifact_ok_iff.mp selected⟩ wrong
      | error error =>
          have compiled := delivers.compile.trans selected
          exact ⟨0, _, answer?_of_compile wrapped compiled 0,
            CompilationUnit.selectArtifact_error_kind selected⟩
  | @loading artifact error makes refused =>
      obtain ⟨unit, wrapped, compiled⟩ := makes_iff.mp makes
      refine ⟨0, .ofLoading error, ?_, rfl⟩
      rw [answer?_eq, wrapped]
      dsimp only
      rw [compiled]
      dsimp only
      rw [refused]
  | starting loads unstartable =>
      obtain ⟨error, refused⟩ := Host.execute_unstartable unstartable
      exact ⟨0, .ofInstantiation error, (loads.answer? 0).trans (refused 0), rfl⟩
  | constructor starts faults =>
      obtain ⟨steps, executed⟩ := Host.execute_constructor_faults starts.startable faults
      exact ⟨steps, _, (starts.loads.answer? steps).trans executed, rfl⟩
  | entry constructs faults =>
      obtain ⟨value?, constructed⟩ := constructs.constructed
      obtain ⟨steps, executed⟩ :=
        Host.execute_entry_faults constructs.startable constructed faults
      exact ⟨steps, _, (constructs.loads.answer? steps).trans executed, rfl⟩

theorem Succeeds.answer? {evaluation : Evaluation} (succeeds : attempt.Succeeds evaluation) :
    ∃ steps, attempt.answer? steps = some (.ok evaluation) := by
  obtain ⟨constructs, finishes⟩ := succeeds
  obtain ⟨value?, constructed⟩ := constructs.constructed
  obtain ⟨steps, executed⟩ :=
    Host.execute_entry_finishes constructs.startable constructed finishes
  exact ⟨steps, (constructs.loads.answer? steps).trans executed⟩

theorem RunsForEver.answer? (endless : attempt.RunsForEver) (steps : Nat) :
    attempt.answer? steps = none := by
  cases endless with
  | constructor starts endless =>
      rw [starts.loads.answer?]
      exact Host.execute_constructor_endless starts.startable endless steps
  | entry constructs endless =>
      obtain ⟨value?, constructed⟩ := constructs.constructed
      rw [constructs.loads.answer?]
      exact Host.execute_entry_endless constructs.startable constructed endless steps

/-- An answer stays the same when more steps are allowed. -/
theorem answer?_lasts {steps more : Nat} {answer : Except EvalError Evaluation}
    (answered : attempt.answer? steps = some answer) (le : steps ≤ more) :
    attempt.answer? more = some answer := by
  rw [answer?_eq] at answered ⊢
  cases wrapped : attempt.wrapped with
  | error error => rwa [wrapped] at answered
  | ok unit =>
      rw [wrapped] at answered
      dsimp only at answered ⊢
      cases compiled : unit.compile attempt.frontEnd with
      | error error => rwa [compiled] at answered
      | ok artifact =>
          rw [compiled] at answered
          dsimp only at answered ⊢
          cases defined : attempt.host.registry.define attempt.options.stackLimit artifact with
          | error error => rwa [defined] at answered
          | ok loaded =>
              rw [defined] at answered
              exact Host.execute_lasts answered le

theorem answer?_unique {first second : Nat} {answer other : Except EvalError Evaluation}
    (answered : attempt.answer? first = some answer)
    (answeredAgain : attempt.answer? second = some other) : answer = other := by
  have both := answer?_lasts answered (Nat.le_max_left first second)
  rw [answer?_lasts answeredAgain (Nat.le_max_right first second)] at both
  exact (Option.some.inj both).symm

/-- A failing step makes the evaluation fail in the way in which the step does. -/
theorem fails_of_failsAt {unit : CompilationUnit Fragment} {step : FrontEndStep}
    {failure : StepFailure} (wrapped : attempt.wrapped = .ok unit)
    (fails : unit.FailsAt attempt.frontEnd step failure) : ∃ kind, attempt.Fails kind := by
  cases failure with
  | reported error =>
      cases error with
      | diagnostic message span => exact ⟨_, .diagnostic wrapped fails⟩
      | internal message => exact ⟨_, .internal wrapped fails⟩
  | crashed text? => exact ⟨_, .crash wrapped fails⟩

/-- A type that has been loaded cannot be started, or each of its two runs ends in one of three ways. -/
theorem Loads.ends {definition : TypeDefinition} (loads : attempt.Loads definition) :
    (∃ kind, attempt.Fails kind) ∨ (∃ evaluation, attempt.Succeeds evaluation) ∨
      attempt.RunsForEver := by
  cases found : Instance.methods definition attempt.options.entryMethod with
  | error error =>
      exact Or.inl ⟨_, .starting loads (Instance.methods_error_iff.mp ⟨error, found⟩)⟩
  | ok pair =>
      have starts : attempt.Starts definition pair.1 pair.2 :=
        ⟨loads, Instance.methods_ok_iff.mp found⟩
      rcases Machine.finishes_or_faults_or_runsForEver
          (program definition pair.1 attempt.options.stackLimit) (constructing definition pair.1) with
        ⟨value?, left, constructed⟩ | ⟨fault, faults⟩ | endless
      · have constructs : attempt.Constructs definition pair.1 pair.2 left :=
          ⟨starts, value?, constructed⟩
        rcases Machine.finishes_or_faults_or_runsForEver
            (program definition pair.2 attempt.options.stackLimit) (entering pair.2 left) with
          ⟨result?, final, finishes⟩ | ⟨fault, faults⟩ | endless
        · exact Or.inr (Or.inl ⟨_, .returned constructs finishes⟩)
        · exact Or.inl ⟨_, .entry constructs faults⟩
        · exact Or.inr (Or.inr (.entry constructs endless))
      · exact Or.inl ⟨_, .constructor starts faults⟩
      · exact Or.inr (Or.inr (.constructor starts endless))

theorem fails_or_succeeds_or_runsForEver (attempt : Attempt Fragment) :
    (∃ kind, attempt.Fails kind) ∨ (∃ evaluation, attempt.Succeeds evaluation) ∨
      attempt.RunsForEver := by
  cases wrapped : attempt.wrapped with
  | error error => exact Or.inl ⟨_, .wrapping wrapped⟩
  | ok unit =>
      rcases CompilationUnit.delivers_or_failsAt attempt.frontEnd unit with
        ⟨artifacts, delivers⟩ | ⟨step, failure, fails⟩
      · by_cases right : ∃ artifact, artifacts = [artifact] ∧ artifact.name = unit.typeName
        · obtain ⟨artifact, rfl, named⟩ := right
          have makes : attempt.Makes artifact := ⟨unit, wrapped, delivers, named⟩
          cases defined : attempt.host.registry.define attempt.options.stackLimit artifact with
          | error error => exact Or.inl ⟨_, .loading makes defined⟩
          | ok loaded =>
              have loads : attempt.Loads loaded.1 := ⟨artifact, loaded.2, makes, defined⟩
              exact loads.ends
        · exact Or.inl ⟨_, .delivery wrapped delivers right⟩
      · exact Or.inl (fails_of_failsAt wrapped fails)

theorem failed_iff (kind : ErrorKind) :
    (∃ steps error, attempt.answer? steps = some (.error error) ∧ error.kind = kind) ↔
      attempt.Fails kind := by
  constructor
  · rintro ⟨steps, error, answered, rfl⟩
    rcases fails_or_succeeds_or_runsForEver attempt with ⟨kind, fails⟩ | ⟨evaluation, succeeds⟩ | endless
    · obtain ⟨others, other, answeredAgain, rfl⟩ := fails.answer?
      obtain rfl := Except.error.inj (answer?_unique answered answeredAgain)
      exact fails
    · obtain ⟨others, answeredAgain⟩ := succeeds.answer?
      have impossible := answer?_unique answered answeredAgain
      simp at impossible
    · rw [endless.answer? steps] at answered
      simp at answered
  · exact Fails.answer?

theorem succeeded_iff (evaluation : Evaluation) :
    (∃ steps, attempt.answer? steps = some (.ok evaluation)) ↔ attempt.Succeeds evaluation := by
  constructor
  · rintro ⟨steps, answered⟩
    rcases fails_or_succeeds_or_runsForEver attempt with ⟨kind, fails⟩ | ⟨other, succeeds⟩ | endless
    · obtain ⟨others, error, answeredAgain, _⟩ := fails.answer?
      have impossible := answer?_unique answered answeredAgain
      simp at impossible
    · obtain ⟨others, answeredAgain⟩ := succeeds.answer?
      obtain rfl := Except.ok.inj (answer?_unique answered answeredAgain)
      exact succeeds
    · rw [endless.answer? steps] at answered
      simp at answered
  · exact Succeeds.answer?

theorem unanswered_iff : (∀ steps, attempt.answer? steps = none) ↔ attempt.RunsForEver := by
  constructor
  · intro unanswered
    rcases fails_or_succeeds_or_runsForEver attempt with ⟨kind, fails⟩ | ⟨other, succeeds⟩ | endless
    · obtain ⟨steps, error, answered, _⟩ := fails.answer?
      simp [unanswered steps] at answered
    · obtain ⟨steps, answered⟩ := succeeds.answer?
      simp [unanswered steps] at answered
    · exact endless
  · exact RunsForEver.answer?

end Answers

/-! The same evaluation with a record of what it asks for and of what it runs. -/

section Records

variable {Fragment : Type} {attempt : Attempt Fragment}

structure Record where
  /-- The steps that the front end was asked for. -/
  asked : List FrontEndStep
  /-- The methods whose code was started, each with its type. -/
  started : List (TypeDefinition × Method)
  answer? : Option (Except EvalError Evaluation)

def recordExecution (options : Options) (steps : Nat) (definition : TypeDefinition) :
    List (TypeDefinition × Method) × Option (Except EvalError Evaluation) :=
  match Instance.methods definition options.entryMethod with
  | .error error => ([], some (.error (.ofInstantiation error)))
  | .ok (constructor, entry) =>
      match Instance.create definition options.entryMethod options.stackLimit steps with
      | none => ([(definition, constructor)], none)
      | some (.error error) => ([(definition, constructor)], some (.error (.ofInstantiation error)))
      | some (.ok object) =>
          ([(definition, constructor), (definition, entry)],
            (object.invoke steps).map fun result => result.mapError EvalError.ofFault)

theorem recordExecution_answer (options : Options) (steps : Nat) (definition : TypeDefinition) :
    (recordExecution options steps definition).2 = Host.execute options steps definition := by
  unfold recordExecution Host.execute
  cases found : Instance.methods definition options.entryMethod with
  | error error =>
      unfold Instance.create
      rw [found]
  | ok pair =>
      dsimp only
      cases Instance.create definition options.entryMethod options.stackLimit steps with
      | none => rfl
      | some outcome => cases outcome <;> rfl

theorem mem_of_recordExecution {options : Options} {steps : Nat} {definition of : TypeDefinition}
    {method : Method} (started : (of, method) ∈ (recordExecution options steps definition).1) :
    of = definition ∧ method ∈ definition.methods := by
  unfold recordExecution at started
  cases found : Instance.methods definition options.entryMethod with
  | error error => simp [found] at started
  | ok pair =>
      obtain ⟨constructorMember, _, entryMember⟩ := Instance.methods_ok found
      have either : (of, method) ∈ [(definition, pair.1), (definition, pair.2)] := by
        rw [found] at started
        dsimp only at started
        split at started
        · exact List.mem_cons.mpr (Or.inl (List.mem_singleton.mp started))
        · exact List.mem_cons.mpr (Or.inl (List.mem_singleton.mp started))
        · exact started
      rcases List.mem_cons.mp either with same | later
      · obtain ⟨rfl, rfl⟩ := Prod.mk.inj same
        exact ⟨rfl, constructorMember⟩
      · obtain ⟨rfl, rfl⟩ := Prod.mk.inj (List.mem_singleton.mp later)
        exact ⟨rfl, entryMember⟩

variable [ObjectFormat]

def recordLoading (attempt : Attempt Fragment) (steps : Nat) :
    Except CompilationError Artifact →
      List (TypeDefinition × Method) × Option (Except EvalError Evaluation)
  | .error error => ([], some (.error (.ofCompilation error)))
  | .ok artifact =>
      match attempt.host.registry.define attempt.options.stackLimit artifact with
      | .error error => ([], some (.error (.ofLoading error)))
      | .ok (definition, _) => recordExecution attempt.options steps definition

def record (attempt : Attempt Fragment) (steps : Nat) : Record :=
  match attempt.wrapped with
  | .error error => { asked := [], started := [], answer? := some (.error (.ofWrapping error)) }
  | .ok unit =>
      { asked := (unit.record attempt.frontEnd).1
        started := (attempt.recordLoading steps (unit.record attempt.frontEnd).2).1
        answer? := (attempt.recordLoading steps (unit.record attempt.frontEnd).2).2 }

theorem record_answer (steps : Nat) : (attempt.record steps).answer? = attempt.answer? steps := by
  rw [answer?_eq, record]
  cases attempt.wrapped with
  | error error => rfl
  | ok unit =>
      dsimp only
      rw [CompilationUnit.record_result]
      cases unit.compile attempt.frontEnd with
      | error error => rfl
      | ok artifact =>
          dsimp only [recordLoading]
          cases attempt.host.registry.define attempt.options.stackLimit artifact with
          | error error => rfl
          | ok loaded => exact recordExecution_answer _ _ _

/-- Code is started only of a type that has been loaded. -/
theorem loads_of_started {steps : Nat} {definition : TypeDefinition} {method : Method}
    (started : (definition, method) ∈ (attempt.record steps).started) :
    attempt.Loads definition ∧ method ∈ definition.methods := by
  rw [record] at started
  cases wrapped : attempt.wrapped with
  | error error => simp [wrapped] at started
  | ok unit =>
      rw [wrapped] at started
      dsimp only at started
      rw [CompilationUnit.record_result] at started
      cases compiled : unit.compile attempt.frontEnd with
      | error error => simp [compiled, recordLoading] at started
      | ok artifact =>
          cases defined : attempt.host.registry.define attempt.options.stackLimit artifact with
          | error error => simp [compiled, recordLoading, defined] at started
          | ok loaded =>
              rw [compiled, recordLoading, defined] at started
              obtain ⟨rfl, member⟩ := mem_of_recordExecution started
              exact ⟨⟨artifact, loaded.2, makes_iff.mpr ⟨unit, wrapped, compiled⟩, defined⟩, member⟩

/-- Nothing is asked for behind the first step that fails, and no code is started. -/
theorem record_of_failsAt {unit : CompilationUnit Fragment} {step : FrontEndStep}
    {failure : StepFailure} (wrapped : attempt.wrapped = .ok unit)
    (fails : unit.FailsAt attempt.frontEnd step failure) (steps : Nat) :
    (∃ unasked, FrontEndStep.all = (attempt.record steps).asked ++ unasked) ∧
      (attempt.record steps).asked.getLast? = some step ∧ (attempt.record steps).started = [] := by
  obtain ⟨asked, unasked, order, last, recorded⟩ := fails.record
  rw [record, wrapped]
  dsimp only
  rw [recorded]
  exact ⟨⟨unasked, order⟩, last, rfl⟩

theorem record_of_refused {error : WrapError} (refused : attempt.wrapped = .error error)
    (steps : Nat) : (attempt.record steps).asked = [] ∧ (attempt.record steps).started = [] := by
  rw [record, refused]
  exact ⟨rfl, rfl⟩

end Records

/-- Every front end is contained, and every failure is classified by the stage that was the first to fail.
An answer does not change when more steps are allowed. The evaluation reports an error of a kind just when
a stage of that kind is the first to fail, and a value just when all stages succeed; without an answer
stays only an evaluation whose loaded code runs for ever. No step of the front end is asked for behind the
first that fails, and code is started only of a type that an artifact holds and whose methods have all
passed verification under the limit. -/
theorem every_front_end_is_contained [ObjectFormat] {Fragment : Type} (attempt : Attempt Fragment) :
    (∀ steps more answer, attempt.answer? steps = some answer → steps ≤ more →
      attempt.answer? more = some answer) ∧
    (∀ kind, (∃ steps error, attempt.answer? steps = some (.error error) ∧ error.kind = kind) ↔
      attempt.Fails kind) ∧
    (∀ evaluation, (∃ steps, attempt.answer? steps = some (.ok evaluation)) ↔
      attempt.Succeeds evaluation) ∧
    ((∀ steps, attempt.answer? steps = none) ↔ attempt.RunsForEver) ∧
    (∀ steps, (attempt.record steps).answer? = attempt.answer? steps) ∧
    (∀ error, attempt.wrapped = .error error → ∀ steps,
      (attempt.record steps).asked = [] ∧ (attempt.record steps).started = []) ∧
    (∀ unit step failure, attempt.wrapped = .ok unit →
      unit.FailsAt attempt.frontEnd step failure → ∀ steps,
        (∃ unasked, FrontEndStep.all = (attempt.record steps).asked ++ unasked) ∧
          (attempt.record steps).asked.getLast? = some step ∧
          (attempt.record steps).started = []) ∧
    (∀ steps definition method, (definition, method) ∈ (attempt.record steps).started →
      method ∈ definition.methods ∧
        (∃ artifact, attempt.Makes artifact ∧
          TypeDefinition.read artifact.image = .ok definition) ∧
        ∀ each ∈ definition.methods, Verification.verify definition each = .ok () ∧
          each.signature.maxStack.toNat ≤ attempt.options.stackLimit) := by
  refine ⟨?_, failed_iff, succeeded_iff, unanswered_iff, record_answer, ?_, ?_, ?_⟩
  · intro steps more answer answered le
    exact answer?_lasts answered le
  · intro error refused steps
    exact record_of_refused refused steps
  · intro unit step failure wrapped fails steps
    exact record_of_failsAt wrapped fails steps
  · intro steps definition method started
    obtain ⟨⟨artifact, registry, makes, defined⟩, member⟩ := loads_of_started started
    obtain ⟨read, _, passed⟩ := Registry.define_ok defined
    exact ⟨member, ⟨artifact, makes, read⟩, passed⟩

def follow {Result : Type} (failure? : Option StepFailure) (result : Result) : StepResult Result :=
  match failure? with
  | some failure => failure.result
  | none => .completed result

/-- A front end that fails in steps that are given, and hands over artifacts that are given. -/
def scripted (failure? : FrontEndStep → Option StepFailure) (made : List Artifact) :
    Attempt Unit where
  host := .initial
  frontEnd :=
    { Session := Unit
      inspect := fun _ => { shape := .expression, origin := 0, depth := 0 }
      openSession := fun _ => follow (failure? .opening) ()
      runPhase := fun _ phase _ => follow (failure? (.phase phase)) ()
      artifacts := fun _ => follow (failure? .collection) made }
  options := {}
  bindings := .empty
  fragment := ()

def idleConstructor : Method :=
  { signature :=
      { name := TypeDefinition.constructorName, arity := 0, locals := 0, maxStack := 0
        returnsValue := false }
    code := (Instruction.encodeAll [.returnVoid]).toArray }

def entryMethod (maxStack : UInt32) (code : List Instruction) : Method :=
  { signature := { name := "run", arity := 0, locals := 0, maxStack, returnsValue := true }
    code := (Instruction.encodeAll code).toArray }

def typeRunning (maxStack : UInt32) (code : List Instruction) : TypeDefinition :=
  { name := "Fragment$1"
    fieldCount := 0
    constants := []
    methods := [idleConstructor, entryMethod maxStack code] }

theorem typeRunning_loads {maxStack : UInt32} {code : List Instruction}
    (small : codeSize code < 2 ^ 32) (low : maxStack.toNat ≤ 1024)
    (verified : Verification.verify (typeRunning maxStack code) (entryMethod maxStack code) =
      .ok ()) :
    ∃ artifact later, artifact.name = "Fragment$1" ∧
      Registry.empty.define 1024 artifact = .ok (typeRunning maxStack code, later) := by
  have compact : (typeRunning maxStack code).Compact := by
    refine ⟨?_, show (4 : Nat) < 2 ^ 32 by decide⟩
    intro method member
    rcases List.mem_cons.mp member with rfl | last
    · decide
    · obtain rfl := List.mem_singleton.mp last
      exact (Instruction.size_encodeAll code).trans_lt small
  have distinct : ((typeRunning maxStack code).methods.map fun method => method.signature.name).Nodup :=
    show [TypeDefinition.constructorName, "run"].Nodup by decide
  have written : (typeRunning maxStack code).write = .ok ⟨_, _⟩ := rfl
  have all_verified : ∀ method ∈ (typeRunning maxStack code).methods,
      Verification.verify (typeRunning maxStack code) method = .ok () := by
    intro method member
    rcases List.mem_cons.mp member with rfl | last
    · with_unfolding_all rfl
    · rwa [List.mem_singleton.mp last]
  have coded : ∃ method ∈ (typeRunning maxStack code).methods, ¬ method.code.isEmpty = true :=
    ⟨idleConstructor, List.mem_cons_self, by decide⟩
  have allowed : (typeRunning maxStack code).methods.find? (Registry.exceeds 1024) = none := by
    simpa [typeRunning, idleConstructor, entryMethod, Registry.exceeds] using low
  exact ⟨_, _, Registry.empty_define compact distinct written all_verified coded allowed⟩

def negatingType : TypeDefinition :=
  typeRunning 1 [.pushNil, .negate, .return]

def spinningType : TypeDefinition :=
  typeRunning 0 [.jump 0]

theorem scripted_wrapped (failure? : FrontEndStep → Option StepFailure) (made : List Artifact) :
    ∃ unit, (scripted failure? made).wrapped = .ok unit ∧ unit.typeName = "Fragment$1" := by
  have named : CompilationUnit.numberedName "Fragment" 1 = "Fragment$1" := by decide
  exact ⟨_, rfl, named⟩

theorem scripted_starts [ObjectFormat] {artifact : Artifact} {definition : TypeDefinition}
    {later : Registry} {constructor entry : Method} (named : artifact.name = "Fragment$1")
    (defined : Registry.empty.define 1024 artifact = .ok (definition, later))
    (startable : Startable definition "run" constructor entry) :
    (scripted (fun _ => none) [artifact]).Starts definition constructor entry := by
  obtain ⟨unit, wrapped, typeName⟩ := scripted_wrapped (fun _ => none) [artifact]
  have delivers : unit.Delivers (scripted (fun _ => none) [artifact]).frontEnd [artifact] :=
    ⟨(), .performed (.performed (.performed (.opened rfl) rfl) rfl) rfl, rfl⟩
  exact ⟨⟨artifact, later, ⟨unit, wrapped, delivers, named.trans typeName.symm⟩, defined⟩, startable⟩

def crashing (step : FrontEndStep) : Option StepFailure :=
  if step = .phase .resolution then some (.crashed (some "boom")) else none

theorem scripted_front_ends_are_contained :
    (∃ steps error, (scripted crashing []).answer? steps = some (.error error) ∧
      error.kind = .internalCompilerFault) ∧
    ((scripted crashing []).record 0).asked.getLast? = some (.phase .resolution) ∧
    ∃ artifact steps error,
      (scripted (fun _ => none) [artifact]).answer? steps = some (.error error) ∧
        error.kind = .evaluationFailure := by
  obtain ⟨unit, wrapped, _⟩ := scripted_wrapped crashing []
  have reaches : unit.Reaches (scripted crashing []).frontEnd [.validation] () :=
    .performed (.opened rfl) rfl
  have fails : unit.FailsAt (scripted crashing []).frontEnd (.phase .resolution)
      (.crashed (some "boom")) := .phase rfl reaches rfl
  obtain ⟨_, failed, _, _, _, _, stopped, _⟩ := every_front_end_is_contained (scripted crashing [])
  refine ⟨(failed _).mpr (.crash wrapped fails), (stopped _ _ _ wrapped fails 0).2.1, ?_⟩
  obtain ⟨artifact, later, named, defined⟩ : ∃ artifact later, artifact.name = "Fragment$1" ∧
      Registry.empty.define 1024 artifact = .ok (negatingType, later) :=
    typeRunning_loads (by decide) (by decide) (by decide +kernel)
  have starts := scripted_starts named defined ⟨rfl, rfl, rfl, rfl, rfl⟩
  have constructs : (scripted (fun _ => none) [artifact]).Constructs negatingType _ _ _ :=
    ⟨starts, none, 1, rfl⟩
  obtain ⟨_, failedAgain, _⟩ :=
    every_front_end_is_contained (scripted (fun _ => none) [artifact])
  obtain ⟨steps, error, answered, kind⟩ :=
    (failedAgain .evaluationFailure).mpr (.entry constructs ⟨2, _, rfl⟩)
  exact ⟨artifact, steps, error, answered, kind⟩

/-- Verified code that jumps to where it stands keeps an evaluation from ever being answered. -/
theorem loaded_loop_is_never_answered :
    ∃ artifact, TypeDefinition.read artifact.image = .ok spinningType ∧
      (∀ method ∈ spinningType.methods, Verification.verify spinningType method = .ok ()) ∧
      ∀ steps, (scripted (fun _ => none) [artifact]).answer? steps = none := by
  obtain ⟨artifact, later, named, defined⟩ : ∃ artifact later, artifact.name = "Fragment$1" ∧
      Registry.empty.define 1024 artifact = .ok (spinningType, later) :=
    typeRunning_loads (by decide) (by decide) (by decide +kernel)
  obtain ⟨read, _, passed⟩ := Registry.define_ok defined
  have constructs : (scripted (fun _ => none) [artifact]).Constructs spinningType _ _ _ :=
    ⟨scripted_starts named defined ⟨rfl, rfl, rfl, rfl, rfl⟩, none, 1, rfl⟩
  have endless : (scripted (fun _ => none) [artifact]).RunsForEver :=
    .entry constructs (Machine.runsForEver_of_step rfl)
  exact ⟨artifact, read, fun method member => (passed method member).1, unanswered_iff.mpr endless⟩

end Attempt
end FragmentLisp
