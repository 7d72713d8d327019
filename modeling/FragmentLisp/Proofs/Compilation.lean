import FragmentLisp.Compilation
import FragmentLisp.CompilationUnit
import FragmentLisp.Proofs.Sequencing

/-!
Wrapping a fragment and compiling the unit with any front end. The steps of the front end are asked for in
their order. The first that fails ends the compilation with its failure, and no further step is asked for.
When all of them succeed, the artifacts decide.
-/

namespace FragmentLisp

inductive FrontEndStep where
  | opening
  | phase (phase : Phase)
  | collection
deriving DecidableEq

namespace FrontEndStep

def all : List FrontEndStep :=
  opening :: (Phase.all.map phase ++ [collection])

def name : FrontEndStep → String
  | opening => "session setup"
  | phase _ => "compilation"
  | collection => "artifact collection"

end FrontEndStep

inductive StepFailure where
  | reported (error : FrontEndError)
  | crashed (text? : Option String)
deriving DecidableEq

def StepFailure.result {Result : Type} : StepFailure → StepResult Result
  | reported error => .failed error
  | crashed text? => .crashed text?

theorem StepResult.completed_or_failure {Result : Type} (result : StepResult Result) :
    (∃ value, result = .completed value) ∨ ∃ failure : StepFailure, result = failure.result := by
  cases result with
  | completed value => exact Or.inl ⟨value, rfl⟩
  | failed error => exact Or.inr ⟨.reported error, rfl⟩
  | crashed text? => exact Or.inr ⟨.crashed text?, rfl⟩

namespace CompilationUnit

/-- A wrapped fragment keeps the host's values, all of them real ones, and has an entry method that is not
the constructor. -/
theorem wrap_ok {Fragment : Type} {frontEnd : FrontEnd Fragment} {options : Options}
    {bindings : Bindings} {number : UInt64} {fragment : Fragment} {unit : CompilationUnit Fragment}
    (wrapped : wrap frontEnd options bindings number fragment = .ok unit) :
    unit.entryMethod = options.entryMethod ∧ unit.entryMethod ≠ TypeDefinition.constructorName ∧
      unit.fields = fieldsOf bindings ∧ unit.body = fragment ∧
      ∀ field ∈ unit.fields, field.value ≠ .nothing := by
  unfold wrap at wrapped
  obtain ⟨_, _, afterShape⟩ := bind_eq_ok.mp wrapped
  obtain ⟨_, checkedOptions, afterOptions⟩ := bind_eq_ok.mp afterShape
  obtain ⟨_, checkedBindings, built⟩ := bind_eq_ok.mp afterOptions
  obtain rfl := Except.ok.inj built
  refine ⟨rfl, ?_, rfl, rfl, ?_⟩
  · unfold checkOptions at checkedOptions
    split at checkedOptions
    · simp at checkedOptions
    · split at checkedOptions
      · simp at checkedOptions
      · split at checkedOptions
        · simp at checkedOptions
        · assumption
  · unfold checkBindings at checkedBindings
    split at checkedBindings
    · simp at checkedBindings
    · rename_i none_missing
      intro field member
      obtain ⟨entry, entryMember, rfl⟩ := List.mem_map.mp member
      simpa using List.find?_eq_none.mp none_missing entry entryMember

theorem unit_of_wrap {Fragment : Type} {frontEnd : FrontEnd Fragment} {options : Options}
    {bindings : Bindings} {number : UInt64} {fragment : Fragment} {unit : CompilationUnit Fragment}
    (wrapped : wrap frontEnd options bindings number fragment = .ok unit) :
    unit =
      { typeName := numberedName options.typeNamePrefix number
        entryMethod := options.entryMethod
        fields := fieldsOf bindings
        body := fragment
        shape := (frontEnd.inspect fragment).shape
        origin := (frontEnd.inspect fragment).origin } := by
  unfold wrap at wrapped
  obtain ⟨_, _, afterShape⟩ := bind_eq_ok.mp wrapped
  obtain ⟨_, _, afterOptions⟩ := bind_eq_ok.mp afterShape
  obtain ⟨_, _, built⟩ := bind_eq_ok.mp afterOptions
  exact (Except.ok.inj built).symm

theorem wrap_typeName {Fragment : Type} {frontEnd : FrontEnd Fragment} {options : Options}
    {bindings : Bindings} {number : UInt64} {fragment : Fragment} {unit : CompilationUnit Fragment}
    (wrapped : wrap frontEnd options bindings number fragment = .ok unit) :
    unit.typeName = numberedName options.typeNamePrefix number := by
  rw [unit_of_wrap wrapped]

theorem runPhases_append {Fragment : Type} {frontEnd : FrontEnd Fragment}
    {unit : CompilationUnit Fragment} {earlier : List Phase} {session reached : frontEnd.Session}
    (ran : unit.runPhases frontEnd earlier session = .ok reached) (later : List Phase) :
    unit.runPhases frontEnd (earlier ++ later) session = unit.runPhases frontEnd later reached := by
  induction earlier generalizing session with
  | nil =>
      obtain rfl := Except.ok.inj ran
      rfl
  | cons phase earlier inductionHypothesis =>
      obtain ⟨next, step, rest⟩ := bind_eq_ok.mp ran
      have behind := inductionHypothesis rest
      rw [List.cons_append, ← behind]
      simp only [runPhases, step]
      rfl

section Steps

variable {Fragment : Type} {frontEnd : FrontEnd Fragment} {unit : CompilationUnit Fragment}

theorem selectArtifact_ok_iff {artifacts : List Artifact} {artifact : Artifact} :
    unit.selectArtifact artifacts = .ok artifact ↔
      artifacts = [artifact] ∧ artifact.name = unit.typeName := by
  unfold selectArtifact
  split
  · rename_i only
    split
    · rename_i named
      constructor
      · intro selected
        obtain rfl := Except.ok.inj selected
        exact ⟨rfl, named⟩
      · rintro ⟨same, _⟩
        rw [List.singleton_inj.mp same]
    · rename_i misnamed
      constructor
      · intro impossible
        simp at impossible
      · rintro ⟨same, named⟩
        rw [List.singleton_inj.mp same] at misnamed
        exact absurd named misnamed
  · rename_i several
    constructor
    · intro impossible
      simp at impossible
    · rintro ⟨same, _⟩
      exact absurd same (several artifact)

def failure (unit : CompilationUnit Fragment) (step : FrontEndStep) :
    StepFailure → CompilationError
  | .reported (.diagnostic message span) => .semantic message (unit.position span)
  | .reported (.internal message) => .internal message
  | .crashed text? => .crashed step.name text?

theorem guarded_failure {Result : Type} (step : FrontEndStep) (failure : StepFailure) :
    unit.guarded step.name (failure.result : StepResult Result) =
      .error (unit.failure step failure) := by
  cases failure with
  | reported error => cases error <;> rfl
  | crashed text? => rfl

/-- A session is opened and these phases succeed one after the other. -/
inductive Reaches (frontEnd : FrontEnd Fragment) (unit : CompilationUnit Fragment) :
    List Phase → frontEnd.Session → Prop
  | opened {session : frontEnd.Session} (opens : frontEnd.openSession unit = .completed session) :
      Reaches frontEnd unit [] session
  | performed {earlier : List Phase} {phase : Phase} {session next : frontEnd.Session}
      (reaches : Reaches frontEnd unit earlier session)
      (performs : frontEnd.runPhase unit phase session = .completed next) :
      Reaches frontEnd unit (earlier ++ [phase]) next

inductive FailsAt (frontEnd : FrontEnd Fragment) (unit : CompilationUnit Fragment) :
    FrontEndStep → StepFailure → Prop
  | opening {failure : StepFailure} (fails : frontEnd.openSession unit = failure.result) :
      FailsAt frontEnd unit .opening failure
  | phase {earlier later : List Phase} {phase : Phase} {session : frontEnd.Session}
      {failure : StepFailure} (order : Phase.all = earlier ++ phase :: later)
      (reaches : Reaches frontEnd unit earlier session)
      (fails : frontEnd.runPhase unit phase session = failure.result) :
      FailsAt frontEnd unit (.phase phase) failure
  | collection {session : frontEnd.Session} {failure : StepFailure}
      (reaches : Reaches frontEnd unit Phase.all session)
      (fails : frontEnd.artifacts session = failure.result) :
      FailsAt frontEnd unit .collection failure

/-- All steps succeed and these artifacts are handed over. -/
def Delivers (frontEnd : FrontEnd Fragment) (unit : CompilationUnit Fragment)
    (artifacts : List Artifact) : Prop :=
  ∃ session, Reaches frontEnd unit Phase.all session ∧
    frontEnd.artifacts session = .completed artifacts

theorem Reaches.runPhases {phases : List Phase} {session : frontEnd.Session}
    (reaches : Reaches frontEnd unit phases session) :
    ∃ opened, frontEnd.openSession unit = .completed opened ∧
      unit.runPhases frontEnd phases opened = .ok session := by
  induction reaches with
  | opened opens => exact ⟨_, opens, rfl⟩
  | performed _ performs inductionHypothesis =>
      obtain ⟨opened, opens, ran⟩ := inductionHypothesis
      refine ⟨opened, opens, ?_⟩
      rw [runPhases_append ran, CompilationUnit.runPhases, performs]
      rfl

/-- The phases that are left succeed, or one of them is the first step to fail. -/
theorem Reaches.onward {earlier later : List Phase} {session : frontEnd.Session}
    (order : Phase.all = earlier ++ later) (reaches : Reaches frontEnd unit earlier session) :
    (∃ final, Reaches frontEnd unit Phase.all final) ∨
      ∃ step failure, FailsAt frontEnd unit step failure := by
  induction later generalizing earlier session with
  | nil =>
      rw [order, List.append_nil]
      exact Or.inl ⟨session, reaches⟩
  | cons phase later inductionHypothesis =>
      rcases (frontEnd.runPhase unit phase session).completed_or_failure with
        ⟨next, performs⟩ | ⟨failure, fails⟩
      · exact inductionHypothesis (by rw [order, List.append_assoc]; rfl) (reaches.performed performs)
      · exact Or.inr ⟨_, failure, .phase order reaches fails⟩

theorem delivers_or_failsAt (frontEnd : FrontEnd Fragment) (unit : CompilationUnit Fragment) :
    (∃ artifacts, Delivers frontEnd unit artifacts) ∨
      ∃ step failure, FailsAt frontEnd unit step failure := by
  rcases (frontEnd.openSession unit).completed_or_failure with
    ⟨opened, opens⟩ | ⟨failure, fails⟩
  · rcases (Reaches.opened opens).onward rfl with ⟨final, reaches⟩ | failed
    · rcases (frontEnd.artifacts final).completed_or_failure with
        ⟨artifacts, delivered⟩ | ⟨failure, fails⟩
      · exact Or.inl ⟨artifacts, final, reaches, delivered⟩
      · exact Or.inr ⟨_, failure, .collection reaches fails⟩
    · exact Or.inr failed
  · exact Or.inr ⟨_, failure, .opening fails⟩

end Steps

/-! The same compilation with a record of the steps that it asks for. -/

section Records

variable {Fragment : Type} {frontEnd : FrontEnd Fragment} {unit : CompilationUnit Fragment}

abbrev Recorded (Result : Type) : Type :=
  List FrontEndStep × Except CompilationError Result

def ask {First Second : Type} (step : FrontEndStep) (outcome : Except CompilationError First)
    (rest : First → Recorded Second) : Recorded Second :=
  match outcome with
  | .error error => ([step], .error error)
  | .ok value => (step :: (rest value).1, (rest value).2)

def recordPhases {Result : Type} (frontEnd : FrontEnd Fragment) (unit : CompilationUnit Fragment)
    (rest : frontEnd.Session → Recorded Result) :
    List Phase → frontEnd.Session → Recorded Result
  | [], session => rest session
  | phase :: phases, session =>
      ask (.phase phase) (unit.guarded "compilation" (frontEnd.runPhase unit phase session))
        (recordPhases frontEnd unit rest phases)

def recordCollection (frontEnd : FrontEnd Fragment) (unit : CompilationUnit Fragment)
    (session : frontEnd.Session) : Recorded Artifact :=
  ask .collection (unit.guarded "artifact collection" (frontEnd.artifacts session))
    fun artifacts => ([], unit.selectArtifact artifacts)

def record (frontEnd : FrontEnd Fragment) (unit : CompilationUnit Fragment) : Recorded Artifact :=
  ask .opening (unit.guarded "session setup" (frontEnd.openSession unit))
    (recordPhases frontEnd unit (recordCollection frontEnd unit) Phase.all)

theorem ask_result {First Second : Type} (step : FrontEndStep)
    (outcome : Except CompilationError First) (rest : First → Recorded Second) :
    (ask step outcome rest).2 = outcome >>= fun value => (rest value).2 := by
  cases outcome <;> rfl

theorem recordPhases_result {Result : Type} (rest : frontEnd.Session → Recorded Result)
    (phases : List Phase) (session : frontEnd.Session) :
    (recordPhases frontEnd unit rest phases session).2 =
      unit.runPhases frontEnd phases session >>= fun final => (rest final).2 := by
  induction phases generalizing session with
  | nil => rfl
  | cons phase phases inductionHypothesis =>
      rw [recordPhases, ask_result, runPhases, bind_assoc]
      exact congrArg _ (funext inductionHypothesis)

theorem record_result : (record frontEnd unit).2 = unit.compile frontEnd := by
  rw [record, ask_result, compile]
  refine congrArg _ (funext fun session => ?_)
  rw [recordPhases_result]
  exact congrArg _ (funext fun final => ask_result _ _ _)

theorem recordPhases_append {Result : Type} (rest : frontEnd.Session → Recorded Result)
    {earlier : List Phase} {session reached : frontEnd.Session}
    (ran : unit.runPhases frontEnd earlier session = .ok reached) (later : List Phase) :
    recordPhases frontEnd unit rest (earlier ++ later) session =
      (earlier.map .phase ++ (recordPhases frontEnd unit rest later reached).1,
        (recordPhases frontEnd unit rest later reached).2) := by
  induction earlier generalizing session with
  | nil =>
      obtain rfl := Except.ok.inj ran
      rfl
  | cons phase earlier inductionHypothesis =>
      obtain ⟨next, performed, behind⟩ := bind_eq_ok.mp ran
      rw [List.cons_append, recordPhases, performed, ask, inductionHypothesis behind]
      rfl

theorem Reaches.record {earlier later : List Phase} {session : frontEnd.Session}
    (order : Phase.all = earlier ++ later) (reaches : Reaches frontEnd unit earlier session) :
    record frontEnd unit =
      (.opening :: (earlier.map .phase ++
          (recordPhases frontEnd unit (recordCollection frontEnd unit) later session).1),
        (recordPhases frontEnd unit (recordCollection frontEnd unit) later session).2) := by
  obtain ⟨opened, opens, ran⟩ := reaches.runPhases
  rw [CompilationUnit.record, opens, order, guarded, ask, recordPhases_append _ ran]

/-- The steps that are asked for end with the first that fails, and its failure is the compilation's. -/
theorem FailsAt.record {step : FrontEndStep} {failure : StepFailure}
    (fails : FailsAt frontEnd unit step failure) :
    ∃ asked unasked, FrontEndStep.all = asked ++ unasked ∧ asked.getLast? = some step ∧
      record frontEnd unit = (asked, .error (unit.failure step failure)) := by
  cases fails with
  | opening fails =>
      refine ⟨[.opening], Phase.all.map .phase ++ [.collection], rfl, rfl, ?_⟩
      have asked := @guarded_failure Fragment unit frontEnd.Session .opening failure
      rw [FrontEndStep.name] at asked
      rw [CompilationUnit.record, fails, asked]
      rfl
  | @phase earlier later phase session _ order reaches fails =>
      refine ⟨.opening :: (earlier.map .phase ++ [.phase phase]),
        later.map .phase ++ [.collection], ?_, ?_, ?_⟩
      · rw [FrontEndStep.all, order]
        simp
      · rw [← List.cons_append, List.getLast?_concat]
      · have asked := @guarded_failure Fragment unit frontEnd.Session (.phase phase) failure
        rw [FrontEndStep.name] at asked
        rw [reaches.record order, recordPhases, fails, asked]
        rfl
  | @collection session _ reaches fails =>
      refine ⟨FrontEndStep.all, [], (List.append_nil _).symm, rfl, ?_⟩
      have asked := @guarded_failure Fragment unit (List Artifact) .collection failure
      rw [FrontEndStep.name] at asked
      rw [reaches.record (List.append_nil _).symm, recordPhases, recordCollection, fails, asked]
      rfl

theorem Delivers.record {artifacts : List Artifact} (delivers : Delivers frontEnd unit artifacts) :
    record frontEnd unit = (FrontEndStep.all, unit.selectArtifact artifacts) := by
  obtain ⟨session, reaches, collected⟩ := delivers
  rw [reaches.record (List.append_nil _).symm, recordPhases, recordCollection, collected]
  rfl

theorem FailsAt.compile {step : FrontEndStep} {failure : StepFailure}
    (fails : FailsAt frontEnd unit step failure) :
    unit.compile frontEnd = .error (unit.failure step failure) := by
  obtain ⟨asked, unasked, _, _, recorded⟩ := fails.record
  rw [← record_result, recorded]

theorem Delivers.compile {artifacts : List Artifact} (delivers : Delivers frontEnd unit artifacts) :
    unit.compile frontEnd = unit.selectArtifact artifacts := by
  rw [← record_result, delivers.record]

theorem compile_ok_iff {artifact : Artifact} :
    unit.compile frontEnd = .ok artifact ↔
      Delivers frontEnd unit [artifact] ∧ artifact.name = unit.typeName := by
  constructor
  · intro compiled
    rcases delivers_or_failsAt frontEnd unit with ⟨artifacts, delivers⟩ | ⟨step, failure, fails⟩
    · rw [delivers.compile] at compiled
      obtain ⟨rfl, named⟩ := selectArtifact_ok_iff.mp compiled
      exact ⟨delivers, named⟩
    · rw [fails.compile] at compiled
      simp at compiled
  · rintro ⟨delivers, named⟩
    rw [delivers.compile]
    exact selectArtifact_ok_iff.mpr ⟨rfl, named⟩

/-- Whatever the front end hands over, only an artifact of the unit's name gets past compilation. -/
theorem compile_typeName {artifact : Artifact} (compiled : unit.compile frontEnd = .ok artifact) :
    artifact.name = unit.typeName :=
  (compile_ok_iff.mp compiled).2

end Records

end CompilationUnit
end FragmentLisp
