import FragmentLisp.Evaluation
import FragmentLisp.Proofs.Instance

/-!
How it ends to run a loaded type. The constructor and the entry method have to be fit to be run, and then
each of the two runs returns, stops with a fault or goes on for ever. An answer that has been given stays
the same when more steps are allowed.
-/

namespace FragmentLisp
namespace Machine

section Runs

variable {program : Program}

def Faults (program : Program) (start : State) (fault : Fault) : Prop :=
  ∃ steps stopped, run program steps start = .faulted fault stopped

def Finishes (program : Program) (start : State) (value? : Option Value) (final : State) : Prop :=
  ∃ steps, run program steps start = .returned value? final

def RunsForEver (program : Program) (start : State) : Prop :=
  ∀ steps, ∃ state, run program steps start = .unfinished state

theorem runsForEver_of_step {start : State} (loops : step program start = .running start) :
    RunsForEver program start := by
  intro steps
  induction steps with
  | zero => exact ⟨start, rfl⟩
  | succ steps inductionHypothesis =>
      rw [run, loops]
      exact inductionHypothesis

theorem run_lasts {steps more : Nat} {state : State} {outcome : Outcome}
    (ran : run program steps state = outcome) (ended : ∀ further, outcome ≠ .unfinished further)
    (le : steps ≤ more) : run program more state = outcome := by
  induction steps generalizing state more with
  | zero => exact absurd ran.symm (ended state)
  | succ steps inductionHypothesis =>
      cases more with
      | zero => simp at le
      | succ more =>
          rw [run] at ran ⊢
          cases once : step program state with
          | running next =>
              rw [once] at ran
              exact inductionHypothesis ran (Nat.le_of_succ_le_succ le)
          | returned value? final =>
              rw [once] at ran
              exact ran
          | faulted fault stopped =>
              rw [once] at ran
              exact ran

theorem run_unfinished_or_same {steps more : Nat} (program : Program) (start : State)
    (le : steps ≤ more) :
    (∃ state, run program steps start = .unfinished state) ∨
      run program more start = run program steps start := by
  cases ran : run program steps start with
  | unfinished state => exact Or.inl ⟨state, rfl⟩
  | returned value? final => exact Or.inr (run_lasts ran (by simp) le)
  | faulted fault stopped => exact Or.inr (run_lasts ran (by simp) le)

theorem finishes_or_faults_or_runsForEver (program : Program) (start : State) :
    (∃ value? final, Finishes program start value? final) ∨ (∃ fault, Faults program start fault) ∨
      RunsForEver program start := by
  by_cases endless : RunsForEver program start
  · exact Or.inr (Or.inr endless)
  · obtain ⟨steps, ended⟩ := Classical.not_forall.mp endless
    cases outcome : run program steps start with
    | unfinished state => exact absurd ⟨state, outcome⟩ ended
    | returned value? final => exact Or.inl ⟨value?, final, steps, outcome⟩
    | faulted fault stopped => exact Or.inr (Or.inl ⟨fault, steps, stopped, outcome⟩)

end Runs

end Machine

namespace Instance

section Methods

variable {definition : TypeDefinition} {entryName : String} {constructor entry : Method}

/-- The constructor and the entry method are there and take no arguments, and the constructor is not
declared to return a value. -/
structure Startable (definition : TypeDefinition) (entryName : String)
    (constructor entry : Method) : Prop where
  constructorFound : definition.method? TypeDefinition.constructorName = some constructor
  constructorArity : constructor.signature.arity = 0
  constructorVoid : constructor.signature.returnsValue = false
  entryFound : definition.method? entryName = some entry
  entryArity : entry.signature.arity = 0

/-- One of the two methods is missing or takes arguments, or the constructor is declared to return a
value. -/
inductive Unstartable (definition : TypeDefinition) (entryName : String) : Prop
  | missing {name : String} (needed : name = TypeDefinition.constructorName ∨ name = entryName)
      (missing : definition.method? name = none) : Unstartable definition entryName
  | takesArguments {name : String} {method : Method}
      (needed : name = TypeDefinition.constructorName ∨ name = entryName)
      (found : definition.method? name = some method) (arity : method.signature.arity ≠ 0) :
      Unstartable definition entryName
  | constructorReturns {constructor : Method}
      (found : definition.method? TypeDefinition.constructorName = some constructor)
      (returns : constructor.signature.returnsValue = true) : Unstartable definition entryName

theorem zeroArgumentMethod_ok_iff {name : String} {method : Method} :
    zeroArgumentMethod definition name = .ok method ↔
      definition.method? name = some method ∧ method.signature.arity = 0 := by
  unfold zeroArgumentMethod
  cases definition.method? name with
  | none => simp
  | some found =>
      dsimp only
      split
      · rename_i none_taken
        constructor
        · intro same
          obtain rfl := Except.ok.inj same
          exact ⟨rfl, none_taken⟩
        · rintro ⟨same, _⟩
          rw [Option.some.inj same]
      · rename_i taken
        constructor
        · intro impossible
          simp at impossible
        · rintro ⟨same, arity⟩
          rw [Option.some.inj same] at taken
          exact absurd arity taken

theorem unfit_of_zeroArgumentMethod {name : String} {error : InstantiationError}
    (needed : name = TypeDefinition.constructorName ∨ name = entryName)
    (failed : zeroArgumentMethod definition name = .error error) :
    Unstartable definition entryName := by
  unfold zeroArgumentMethod at failed
  cases found : definition.method? name with
  | none => exact .missing needed found
  | some method =>
      rw [found] at failed
      dsimp only at failed
      split at failed
      · simp at failed
      · rename_i arity
        exact .takesArguments needed found arity

theorem methods_ok_iff :
    methods definition entryName = .ok (constructor, entry) ↔
      Startable definition entryName constructor entry := by
  unfold methods
  constructor
  · intro found
    cases first : zeroArgumentMethod definition TypeDefinition.constructorName with
    | error error => simp [first] at found
    | ok candidate =>
        simp only [first] at found
        split at found
        · simp at found
        rename_i void
        cases second : zeroArgumentMethod definition entryName with
        | error error => simp [second, Except.map] at found
        | ok other =>
            simp only [second, Except.map] at found
            obtain ⟨rfl, rfl⟩ := Prod.mk.inj (Except.ok.inj found)
            obtain ⟨constructorFound, constructorArity⟩ := zeroArgumentMethod_ok_iff.mp first
            obtain ⟨entryFound, entryArity⟩ := zeroArgumentMethod_ok_iff.mp second
            exact ⟨constructorFound, constructorArity, by simpa using void, entryFound, entryArity⟩
  · intro startable
    have first := zeroArgumentMethod_ok_iff.mpr
      ⟨startable.constructorFound, startable.constructorArity⟩
    have second := zeroArgumentMethod_ok_iff.mpr ⟨startable.entryFound, startable.entryArity⟩
    simp [first, second, startable.constructorVoid, Except.map]

theorem Startable.not_unstartable (startable : Startable definition entryName constructor entry) :
    ¬ Unstartable definition entryName := by
  intro unstartable
  cases unstartable with
  | missing needed missing =>
      rcases needed with rfl | rfl
      · simp [startable.constructorFound] at missing
      · simp [startable.entryFound] at missing
  | takesArguments needed found arity =>
      rcases needed with rfl | rfl
      · rw [startable.constructorFound] at found
        exact arity (Option.some.inj found ▸ startable.constructorArity)
      · rw [startable.entryFound] at found
        exact arity (Option.some.inj found ▸ startable.entryArity)
  | constructorReturns found returns =>
      rw [startable.constructorFound] at found
      rw [← Option.some.inj found, startable.constructorVoid] at returns
      simp at returns

theorem methods_error_iff :
    (∃ error, methods definition entryName = .error error) ↔ Unstartable definition entryName := by
  constructor
  · rintro ⟨error, failed⟩
    unfold methods at failed
    cases first : zeroArgumentMethod definition TypeDefinition.constructorName with
    | error error => exact unfit_of_zeroArgumentMethod (Or.inl rfl) first
    | ok candidate =>
        cases second : zeroArgumentMethod definition entryName with
        | error error => exact unfit_of_zeroArgumentMethod (Or.inr rfl) second
        | ok other =>
            simp only [first, second, Except.map] at failed
            split at failed
            · rename_i returns
              exact .constructorReturns (zeroArgumentMethod_ok_iff.mp first).1 returns
            · simp at failed
  · intro unstartable
    cases found : methods definition entryName with
    | error error => exact ⟨error, rfl⟩
    | ok pair => exact absurd unstartable (methods_ok_iff.mp found).not_unstartable

end Methods

def constructing (definition : TypeDefinition) (constructor : Method) : Machine.State :=
  .initial constructor.signature.locals.toNat (Array.replicate definition.fieldCount.toNat .nil) ""

def entering (entry : Method) (left : Machine.State) : Machine.State :=
  .initial entry.signature.locals.toNat left.fields left.output

end Instance

namespace Host

open Instance (Startable Unstartable conclude constructing entering program)

section Execution

variable {options : Options} {definition : TypeDefinition} {constructor entry : Method}

theorem execute_startable
    (startable : Startable definition options.entryMethod constructor entry) (steps : Nat) :
    execute options steps definition =
      match Machine.run (program definition constructor options.stackLimit) steps
        (constructing definition constructor) with
      | .unfinished _ => none
      | .faulted fault _ =>
          some (.error (.ofInstantiation (.constructorFailed definition.name fault)))
      | .returned _ left =>
          (conclude definition.name
              (Machine.run (program definition entry options.stackLimit) steps
                (entering entry left))).map
            fun result => result.mapError EvalError.ofFault := by
  unfold execute Instance.create
  rw [Instance.methods_ok_iff.mpr startable]
  dsimp only [constructing]
  cases Machine.run (program definition constructor options.stackLimit) steps
      (.initial constructor.signature.locals.toNat
        (Array.replicate definition.fieldCount.toNat .nil) "") with
  | unfinished state => rfl
  | faulted fault stopped => rfl
  | returned value? left => rfl

theorem execute_unstartable (unstartable : Unstartable definition options.entryMethod) :
    ∃ error, ∀ steps,
      execute options steps definition = some (.error (.ofInstantiation error)) := by
  obtain ⟨error, failed⟩ := Instance.methods_error_iff.mpr unstartable
  refine ⟨error, fun steps => ?_⟩
  unfold execute Instance.create
  rw [failed]

theorem execute_constructor_faults
    (startable : Startable definition options.entryMethod constructor entry) {fault : Fault}
    (faults : Machine.Faults (program definition constructor options.stackLimit)
      (constructing definition constructor) fault) :
    ∃ steps, execute options steps definition =
      some (.error (.ofInstantiation (.constructorFailed definition.name fault))) := by
  obtain ⟨steps, stopped, ran⟩ := faults
  exact ⟨steps, by rw [execute_startable startable, ran]⟩

theorem execute_constructor_endless
    (startable : Startable definition options.entryMethod constructor entry)
    (endless : Machine.RunsForEver (program definition constructor options.stackLimit)
      (constructing definition constructor)) (steps : Nat) :
    execute options steps definition = none := by
  obtain ⟨state, ran⟩ := endless steps
  rw [execute_startable startable, ran]

/-- An answer that has been given stays the same when more steps are allowed. -/
theorem execute_lasts {steps more : Nat} {answer : Except EvalError Evaluation}
    (answered : execute options steps definition = some answer) (le : steps ≤ more) :
    execute options more definition = some answer := by
  cases found : Instance.methods definition options.entryMethod with
  | error error =>
      obtain ⟨other, refused⟩ := execute_unstartable (Instance.methods_error_iff.mp ⟨error, found⟩)
      rwa [refused more, ← refused steps]
  | ok pair =>
      have startable := Instance.methods_ok_iff.mp found
      rw [execute_startable startable] at answered ⊢
      rcases Machine.run_unfinished_or_same (program definition pair.1 options.stackLimit)
          (constructing definition pair.1) le with
        ⟨state, unfinished⟩ | same
      · simp [unfinished] at answered
      rw [same]
      cases ran : Machine.run (program definition pair.1 options.stackLimit) steps
          (constructing definition pair.1) with
      | unfinished state => simp [ran] at answered
      | faulted fault stopped => rwa [ran] at answered
      | returned value? left =>
          rw [ran] at answered
          dsimp only at answered ⊢
          rcases Machine.run_unfinished_or_same (program definition pair.2 options.stackLimit)
              (entering pair.2 left) le with
            ⟨state, unfinished⟩ | same
          · simp [unfinished, conclude] at answered
          · rwa [same]

section Constructed

variable {value? : Option Value} {left : Machine.State}
variable (startable : Startable definition options.entryMethod constructor entry)
variable (constructed : Machine.Finishes (program definition constructor options.stackLimit)
  (constructing definition constructor) value? left)

include startable constructed

theorem execute_constructed :
    ∃ enough, ∀ steps, enough ≤ steps → execute options steps definition =
      (conclude definition.name
          (Machine.run (program definition entry options.stackLimit) steps (entering entry left))).map
        fun result => result.mapError EvalError.ofFault := by
  obtain ⟨enough, returned⟩ := constructed
  refine ⟨enough, fun steps le => ?_⟩
  rw [execute_startable startable, Machine.run_lasts returned (by simp) le]

theorem execute_entry_faults {fault : Fault}
    (faults : Machine.Faults (program definition entry options.stackLimit)
      (entering entry left) fault) :
    ∃ steps, execute options steps definition = some (.error (.ofFault fault)) := by
  obtain ⟨enough, later⟩ := execute_constructed startable constructed
  obtain ⟨needed, stopped, ran⟩ := faults
  refine ⟨max enough needed, ?_⟩
  rw [later _ (Nat.le_max_left enough needed),
    Machine.run_lasts ran (by simp) (Nat.le_max_right enough needed)]
  rfl

theorem execute_entry_finishes {result? : Option Value} {final : Machine.State}
    (finishes : Machine.Finishes (program definition entry options.stackLimit)
      (entering entry left) result? final) :
    ∃ steps, execute options steps definition =
      some (.ok
        { value := result?.getD .nothing
          output := final.output
          typeName := definition.name }) := by
  obtain ⟨enough, later⟩ := execute_constructed startable constructed
  obtain ⟨needed, ran⟩ := finishes
  refine ⟨max enough needed, ?_⟩
  rw [later _ (Nat.le_max_left enough needed),
    Machine.run_lasts ran (by simp) (Nat.le_max_right enough needed)]
  rfl

theorem execute_entry_endless
    (endless : Machine.RunsForEver (program definition entry options.stackLimit)
      (entering entry left)) (steps : Nat) :
    execute options steps definition = none := by
  cases answered : execute options steps definition with
  | none => rfl
  | some answer =>
      -- An early answer would last until the constructor has returned, where there is none.
      obtain ⟨enough, later⟩ := execute_constructed startable constructed
      have late := execute_lasts answered (Nat.le_max_left steps enough)
      obtain ⟨state, unfinished⟩ := endless (max steps enough)
      rw [later _ (Nat.le_max_right steps enough), unfinished] at late
      simp [conclude] at late

end Constructed

end Execution

end Host
end FragmentLisp
