import FragmentLisp.Lisp.Source
import FragmentLisp.Proofs.Lisp.Interference
import FragmentLisp.Proofs.Machine.Headroom
import FragmentLisp.Proofs.Reader.Soundness

/-!
Limits are only gates. A fragment that gets through the limits of its host does the same under looser
ones: they are looked at when the source is read, when it is wrapped and when its type is loaded, and on
each push of a run, where a method that passed verification never meets them.
-/

namespace FragmentLisp

/-- Options that differ in limits only, none of which is stricter. -/
structure Options.Relaxes (options relaxed : Options) : Prop where
  typeNamePrefix : relaxed.typeNamePrefix = options.typeNamePrefix
  entryMethod : relaxed.entryMethod = options.entryMethod
  blocks : options.allowBlocks = true → relaxed.allowBlocks = true
  stack : options.stackLimit ≤ relaxed.stackLimit
  nesting : options.nestingLimit ≤ relaxed.nestingLimit

/-- A gate has kept a fragment from being run: it was refused as it stands, or its type was. -/
def ErrorKind.IsGate (kind : ErrorKind) : Prop :=
  kind = .invalidFragment ∨ kind = .loadFailure

/-! Runs of methods that passed verification. -/

namespace Machine

theorem Sound.not_overflows {method : Method} {outcome : Outcome} (sound : Sound method outcome) :
    ¬ outcome.Overflows := by
  cases outcome with
  | faulted fault stopped =>
      obtain ⟨dynamic, _⟩ := sound
      cases fault <;> simp_all [Outcome.Overflows, Fault.IsDynamic]
  | returned | unfinished => exact id

/-- A method that passed verification and fits under a limit runs the same under a larger one. -/
theorem verified_run_limited {definition : TypeDefinition} {method : Method} {limit larger : Nat}
    (verified : Verification.verify definition method = .ok ())
    (room : method.signature.maxStack.toNat ≤ limit) (more : limit ≤ larger)
    {fields : Array Value} (sized : fields.size = definition.fieldCount.toNat)
    (present : ∀ value ∈ fields, value ≠ .nothing) (output : String) (steps : Nat) :
    run (Instance.program definition method larger) steps
        (.initial method.signature.locals.toNat fields output) =
      run (Instance.program definition method limit) steps
        (.initial method.signature.locals.toNat fields output) := by
  have sound := verified_run_sound verified room sized present output steps
  rcases @run_unhindered (Instance.program definition method limit) larger more steps
      (.initial method.signature.locals.toNat fields output) with same | overflows
  · exact same
  · exact absurd overflows sound.not_overflows

end Machine

def TypeDefinition.Passes (limit : Nat) (definition : TypeDefinition) : Prop :=
  ∀ method ∈ definition.methods, Verification.verify definition method = .ok () ∧
    method.signature.maxStack.toNat ≤ limit

namespace Instance

variable {definition : TypeDefinition} {limit larger : Nat}

def limited (limit : Nat) (object : Instance) : Instance :=
  { object with stackLimit := limit }

theorem create_limited (passes : definition.Passes limit) (more : limit ≤ larger)
    (entryName : String) (steps : Nat) :
    create definition entryName larger steps =
      (create definition entryName limit steps).map fun result => result.map (limited larger) := by
  unfold create
  cases found : methods definition entryName with
  | error error => rfl
  | ok pair =>
      obtain ⟨constructor, entry⟩ := pair
      obtain ⟨verified, room⟩ := passes constructor (methods_ok found).1
      simp only [Machine.verified_run_limited verified room more Array.size_replicate
        (Machine.nils_present _)]
      split <;> rfl

theorem invoke_limited (passes : definition.Passes limit) (more : limit ≤ larger)
    {entryName : String} {started : Nat} {object : Instance}
    (created : create definition entryName limit started = some (.ok object)) (steps : Nat) :
    (object.limited larger).invoke steps = object.invoke steps := by
  obtain ⟨constructor, entry, found, value?, final, returned, rfl⟩ := create_ok created
  obtain ⟨constructorMember, _, entryMember⟩ := methods_ok found
  obtain ⟨constructorVerified, constructorRoom⟩ := passes constructor constructorMember
  obtain ⟨entryVerified, entryRoom⟩ := passes entry entryMember
  obtain ⟨_, _, _, _, _, filled⟩ := Machine.verified_run_keeps constructorVerified
    constructorRoom Array.size_replicate (Machine.nils_present _) "" started
  rw [returned] at filled
  have same := Machine.verified_run_limited entryVerified entryRoom more
    (Machine.Returns.fields filled) (Machine.Returns.present filled).fields final.output steps
  unfold invoke limited
  simp only [same]

end Instance

section Options

variable {options relaxed : Options}

theorem Host.execute_relaxed (relaxes : options.Relaxes relaxed) {definition : TypeDefinition}
    (passes : definition.Passes options.stackLimit) (steps : Nat) :
    execute relaxed steps definition = execute options steps definition := by
  unfold execute
  rw [relaxes.entryMethod, Instance.create_limited passes relaxes.stack]
  cases created : Instance.create definition options.entryMethod options.stackLimit steps with
  | none => rfl
  | some result =>
      cases result with
      | error error => rfl
      | ok object =>
          simp only [Option.map_some, Except.map]
          rw [Instance.invoke_limited passes relaxes.stack created]

/-! The gates. -/

theorem Registry.define_relaxed [ObjectFormat] (relaxes : options.Relaxes relaxed)
    {registry : Registry} {artifact : Artifact} {loaded : TypeDefinition × Registry}
    (accepted : registry.define options.stackLimit artifact = .ok loaded) :
    registry.define relaxed.stackLimit artifact = .ok loaded := by
  obtain ⟨definition, later⟩ := loaded
  obtain ⟨read, named, passes⟩ := define_ok accepted
  have methods : checkMethods definition options.stackLimit definition.methods = .ok () :=
    checkMethods_ok_iff.mpr passes
  have looser : checkMethods definition relaxed.stackLimit definition.methods = .ok () :=
    checkMethods_ok_iff.mpr fun method member =>
      ⟨(passes method member).1, Nat.le_trans (passes method member).2 relaxes.stack⟩
  unfold define check at accepted ⊢
  rw [read] at accepted ⊢
  simp only [methods] at accepted
  simp only [looser]
  exact accepted

theorem CompilationUnit.wrap_relaxed {Fragment : Type} {frontEnd : FrontEnd Fragment}
    (relaxes : options.Relaxes relaxed) {bindings : Bindings} {number : UInt64}
    {fragment : Fragment} {unit : CompilationUnit Fragment}
    (wrapped : wrap frontEnd options bindings number fragment = .ok unit) :
    wrap frontEnd relaxed bindings number fragment = .ok unit := by
  unfold wrap at wrapped ⊢
  obtain ⟨_, shape, afterShape⟩ := bind_eq_ok.mp wrapped
  obtain ⟨_, checked, afterOptions⟩ := bind_eq_ok.mp afterShape
  refine bind_eq_ok.mpr ⟨(), ?_, bind_eq_ok.mpr ⟨(), ?_, ?_⟩⟩
  · revert shape
    cases (frontEnd.inspect fragment).shape with
    | block statements =>
        simp only [checkShape]
        intro shape
        have blocks := relaxes.blocks
        split at shape
        · rename_i allowed
          rw [if_pos (blocks allowed)]
        · cases shape
    | empty | declaration | expression | statement => exact id
  · unfold checkOptions at checked ⊢
    rw [relaxes.entryMethod]
    split at checked
    · cases checked
    · rename_i shallow
      rw [if_neg (by have nesting := relaxes.nesting; omega)]
      exact checked
  · rw [relaxes.entryMethod, relaxes.typeNamePrefix]
    exact afterOptions

theorem Reader.read_relaxed {source : String} {limit larger : Nat} {nodes : List Node}
    (more : limit ≤ larger) (accepted : read source limit = .ok nodes) :
    read source larger = .ok nodes := by
  obtain ⟨text, ending, shape, spells, last, shallow⟩ := read_eq_ok_iff.mp accepted
  exact read_eq_ok_iff.mpr ⟨text, ending, shape, spells, last,
    fun node member => Nat.le_trans (shallow node member) more⟩

def Ungated (answer : Option (Except EvalError Evaluation)) : Prop :=
  ∀ error, answer = some (.error error) → ¬ error.kind.IsGate

theorem Host.evaluate_relaxed [ObjectFormat] {Fragment : Type} {frontEnd : FrontEnd Fragment}
    (relaxes : options.Relaxes relaxed) {host : Host} {bindings : Bindings} {steps : Nat}
    {fragment : Fragment}
    (ungated : Ungated (host.evaluate frontEnd options bindings steps fragment).1) :
    host.evaluate frontEnd relaxed bindings steps fragment =
      host.evaluate frontEnd options bindings steps fragment := by
  unfold evaluate at ungated ⊢
  cases wrapped : CompilationUnit.wrap frontEnd options bindings host.nextNumber fragment with
  | error error =>
      rw [wrapped] at ungated
      exact absurd (.inl rfl) (ungated _ rfl)
  | ok unit =>
      rw [CompilationUnit.wrap_relaxed relaxes wrapped]
      rw [wrapped] at ungated
      dsimp only at ungated ⊢
      cases compiled : unit.compile frontEnd with
      | error error => rfl
      | ok artifact =>
          rw [compiled] at ungated
          dsimp only at ungated ⊢
          cases defined : host.registry.define options.stackLimit artifact with
          | error error =>
              rw [defined] at ungated
              exact absurd (.inr rfl) (ungated _ rfl)
          | ok loaded =>
              obtain ⟨definition, later⟩ := loaded
              rw [Registry.define_relaxed relaxes defined]
              dsimp only
              rw [execute_relaxed relaxes (Registry.define_ok defined).2.2]

theorem Host.evaluateSource_relaxed [ObjectFormat] (relaxes : options.Relaxes relaxed)
    {host : Host} {bindings : Bindings} {steps : Nat} {source : String}
    (ungated : Ungated (host.evaluateSource options bindings steps source).1) :
    host.evaluateSource relaxed bindings steps source =
      host.evaluateSource options bindings steps source := by
  unfold evaluateSource at ungated ⊢
  cases read : Reader.read source options.nestingLimit with
  | error error =>
      rw [read] at ungated
      exact absurd (.inl rfl) (ungated _ rfl)
  | ok nodes =>
      rw [read] at ungated
      rw [Reader.read_relaxed relaxes.nesting read]
      exact evaluate_relaxed relaxes ungated

/-! Hosts whose numbers differ. -/

theorem AnswersAlike.ungated {name other : String}
    {left right : Option (Except EvalError Evaluation)} (alike : AnswersAlike name other left right)
    (ungated : Ungated left) : Ungated right := by
  rintro error rfl
  cases alike with
  | failed kind parts position? cause? =>
      exact ungated { kind, message := name.intercalate parts, position?, cause? } rfl

theorem Lisp.evaluateSource_alike [ObjectFormat] [LawfulObjectFormat] {host other : Host}
    {bindings : Bindings} {source : String}
    (onPar : host.OnPar options other)
    (addressable : ∀ nodes, Reader.read source options.nestingLimit = .ok nodes →
      Addressable options bindings host.nextNumber nodes ∧
        Addressable options bindings other.nextNumber nodes) (steps : Nat) :
    AnswersAlike (host.nextName options) (other.nextName options)
      (host.evaluateSource options bindings steps source).1
      (other.evaluateSource options bindings steps source).1 := by
  unfold Host.evaluateSource
  cases read : Reader.read source options.nestingLimit with
  | error error => exact .same _
  | ok nodes =>
      obtain ⟨own, others⟩ := addressable nodes read
      exact evaluate_alike onPar own others steps

end Options

/-- What a source comes to that gets through the gates of its host, it comes to under looser limits too,
and all that the host keeps is the same. On another host only the name of the generated type can be
another one. -/
theorem Lisp.limits_are_only_gates [ObjectFormat] [LawfulObjectFormat] {options relaxed : Options}
    {host : Host} {bindings : Bindings} {steps : Nat} {source : String}
    (relaxes : options.Relaxes relaxed)
    (ungated : Ungated (host.evaluateSource options bindings steps source).1) :
    host.evaluateSource relaxed bindings steps source =
        host.evaluateSource options bindings steps source ∧
      ∀ other : Host, host.OnPar options other →
        (∀ nodes, Reader.read source options.nestingLimit = .ok nodes →
          Addressable options bindings host.nextNumber nodes ∧
            Addressable options bindings other.nextNumber nodes) →
        AnswersAlike (host.nextName options) (other.nextName options)
          (host.evaluateSource options bindings steps source).1
          (other.evaluateSource relaxed bindings steps source).1 := by
  refine ⟨Host.evaluateSource_relaxed relaxes ungated, ?_⟩
  intro other onPar addressable
  have alike := evaluateSource_alike onPar addressable steps
  rw [Host.evaluateSource_relaxed relaxes (alike.ungated ungated)]
  exact alike

def roomyOptions : Options :=
  { allowBlocks := true, stackLimit := 4096, nestingLimit := 1000 }

theorem Lisp.sum_runs :
    (Host.initial.evaluateSource {} sumBindings 10 "(+ x 1)").1 =
      some (.ok { value := .integer 42, output := "", typeName := "Fragment$1" }) := by
  have read : Reader.read "(+ x 1)" ({} : Options).nestingLimit = .ok sumFragment := rfl
  have wrapped : CompilationUnit.wrap frontEnd {} sumBindings Host.initial.nextNumber sumFragment =
    .ok sumUnit := sum_wraps
  obtain ⟨artifact, compiled⟩ := sum_compiles
  have loads : Host.initial.registry.define ({} : Options).stackLimit artifact =
    .ok (sumType, { types := [sumType] }) := sum_loads compiled
  have executed : Host.execute {} 10 sumType =
      some (.ok { value := .integer 42, output := "", typeName := "Fragment$1" }) := by
    decide +kernel
  rw [Host.evaluateSource, read]
  dsimp only
  rw [evaluate_answer, wrapped]
  dsimp only
  rw [answer, compiled]
  dsimp only
  rw [launch, loads]
  exact executed

theorem Lisp.sum_passes_the_gates :
    Options.Relaxes {} roomyOptions ∧
      Ungated (Host.initial.evaluateSource {} sumBindings 10 "(+ x 1)").1 ∧
      Host.initial.evaluateSource roomyOptions sumBindings 10 "(+ x 1)" =
        Host.initial.evaluateSource {} sumBindings 10 "(+ x 1)" ∧
      (Host.initial.evaluateSource roomyOptions sumBindings 10 "(+ x 1)").1 =
        some (.ok { value := .integer 42, output := "", typeName := "Fragment$1" }) := by
  have relaxes : Options.Relaxes {} roomyOptions :=
    ⟨rfl, rfl, nofun, by decide, by decide⟩
  have ungated : Ungated (Host.initial.evaluateSource {} sumBindings 10 "(+ x 1)").1 := by
    rw [sum_runs]
    intro error failed
    cases failed
  obtain ⟨same, _⟩ := limits_are_only_gates relaxes ungated
  refine ⟨relaxes, ungated, same, ?_⟩
  rw [same]
  exact sum_runs

end FragmentLisp
