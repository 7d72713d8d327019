import FragmentLisp.Proofs.LoadedType
import FragmentLisp.Proofs.Lisp.Outcome
import Mathlib.Data.List.Basic

/-!
What a host holds after any calls. A call loads at most one type, and a loaded type stays as it was read
when it was loaded. As long as the numbers of types only go up, the names that wrapping makes never meet.
-/

namespace FragmentLisp

/-- What a host is asked for: to load an artifact, or to evaluate a fragment of any front end. All hosts
draw their numbers from one supply, so elsewhere the next number can become any other. -/
inductive Call : Type 1 where
  | define (limit : Nat) (artifact : Artifact)
  | evaluate {Fragment : Type} (frontEnd : FrontEnd Fragment) (options : Options)
      (bindings : Bindings) (steps : Nat) (fragment : Fragment)
  | elsewhere (nextNumber : UInt64)

namespace Call

variable [ObjectFormat]

def after (host : Host) : Call → Host
  | define limit artifact =>
      match host.registry.define limit artifact with
      | .error _ => host
      | .ok (_, registry) => { host with registry }
  | evaluate frontEnd options bindings steps fragment =>
      (host.evaluate frontEnd options bindings steps fragment).2
  | elsewhere nextNumber => { host with nextNumber }

/-- The artifact that a call gives to the registry, with the limit for operand stacks. An evaluation gives
one once its fragment is wrapped and compiled. -/
def request? (host : Host) : Call → Option (Nat × Artifact)
  | define limit artifact => some (limit, artifact)
  | evaluate frontEnd options bindings _ fragment =>
      match CompilationUnit.wrap frontEnd options bindings host.nextNumber fragment with
      | .error _ => none
      | .ok unit =>
          match unit.compile frontEnd with
          | .error _ => none
          | .ok artifact => some (options.stackLimit, artifact)
  | elsewhere _ => none

def loading? (host : Host) (call : Call) : Option (Artifact × TypeDefinition) :=
  match call.request? host with
  | none => none
  | some (limit, artifact) =>
      match host.registry.define limit artifact with
      | .error _ => none
      | .ok (definition, _) => some (artifact, definition)

end Call

namespace Host

variable [ObjectFormat]

/-- The host after calls in their order. -/
def after (host : Host) (calls : List Call) : Host :=
  calls.foldl Call.after host

def loadings : Host → List Call → List (Artifact × TypeDefinition)
  | _, [] => []
  | host, call :: rest => (call.loading? host).toList ++ loadings (call.after host) rest

def CountsUp : Host → List Call → Prop
  | _, [] => True
  | host, call :: rest =>
      host.nextNumber ≤ (call.after host).nextNumber ∧ CountsUp (call.after host) rest

end Host

namespace Registry

theorem checkMethods_ne_alreadyDefined (definition : TypeDefinition) (limit : Nat)
    (methods : List Method) (name : String) :
    checkMethods definition limit methods ≠ .error (.alreadyDefined name) := by
  induction methods with
  | nil => simp [checkMethods]
  | cons method rest inductionHypothesis =>
      unfold checkMethods
      split
      · simp
      · split
        · simp
        · exact inductionHypothesis

theorem check_ne_alreadyDefined (named : String) (limit : Nat) (definition : TypeDefinition)
    (name : String) : check named limit definition ≠ .error (.alreadyDefined name) := by
  unfold check
  split
  · simp
  · split
    · rename_i error failed
      intro same
      rw [same] at failed
      exact checkMethods_ne_alreadyDefined definition limit definition.methods name failed
    · split
      · simp
      · simp

/-- Only a type of that name can make the registry answer that the name is taken. -/
theorem define_ne_alreadyDefined [ObjectFormat] {registry : Registry} {artifact : Artifact}
    (free : registry.get? artifact.name = none) (limit : Nat) (name : String) :
    registry.define limit artifact ≠ .error (.alreadyDefined name) := by
  unfold define
  rw [free]
  simp only [Option.isSome_none, Bool.false_eq_true, if_false]
  split
  · simp
  · split
    · rename_i definition _ _ error refused
      intro same
      rw [Except.error.inj same] at refused
      exact check_ne_alreadyDefined artifact.name limit definition name refused
    · simp

end Registry

namespace CompilationUnit

theorem numberedName_toList (typeNamePrefix : String) (number : UInt64) :
    (numberedName typeNamePrefix number).toList =
      typeNamePrefix.toList ++ '$' :: Nat.toDigits 10 number.toNat := by
  have digits : (toString number.toNat).toList = Nat.toDigits 10 number.toNat := by
    change (Nat.repr number.toNat).toList = _
    rw [Nat.repr_eq_ofList_toDigits, String.toList_ofList]
  have joined : numberedName typeNamePrefix number =
      typeNamePrefix ++ "$" ++ toString number.toNat := by
    rw [numberedName]
    rfl
  rw [joined, String.toList_append, String.toList_append, digits, List.append_assoc]
  rfl

theorem dollar_notMem_toDigits (value : Nat) : '$' ∉ Nat.toDigits 10 value := by
  intro member
  exact absurd (Nat.isDigit_of_mem_toDigits (by decide) (by decide) member) (by decide)

/-- What stands behind the last dollar sign can be told from the whole. -/
theorem behind_dollar_inj {front other back further : List Char} (first : '$' ∉ back)
    (second : '$' ∉ further) (same : front ++ '$' :: back = other ++ '$' :: further) :
    back = further := by
  rcases List.append_eq_append_iff.mp same with ⟨between, _, split⟩ | ⟨between, _, split⟩
  · cases between with
    | nil => exact (List.cons.inj split).2
    | cons head rest =>
        refine absurd ?_ first
        rw [(List.cons.inj split).2]
        simp
  · cases between with
    | nil => exact (List.cons.inj split).2.symm
    | cons head rest =>
        refine absurd ?_ second
        rw [(List.cons.inj split).2]
        simp

/-- The number can be told from a name, whatever the prefixes are. -/
theorem numberedName_inj {left right : String} {first second : UInt64}
    (same : numberedName left first = numberedName right second) : first = second := by
  have lists := congrArg String.toList same
  rw [numberedName_toList, numberedName_toList] at lists
  have digits := behind_dollar_inj (dollar_notMem_toDigits _) (dollar_notMem_toDigits _) lists
  have values := congrArg (fun digits => Nat.ofDigitChars 10 digits 0) digits
  simp only [Nat.ofDigitChars_ten_toDigits] at values
  exact UInt64.toNat_inj.mp values

end CompilationUnit

section Calls

variable {host : Host} {call : Call} {artifact : Artifact} {definition : TypeDefinition}
variable {Fragment : Type} {frontEnd : FrontEnd Fragment} {options : Options} {bindings : Bindings}
  {steps : Nat} {fragment : Fragment}

namespace Host

/-- Every loaded type has a name with a number that was drawn before. -/
def Numbered (host : Host) : Prop :=
  ∀ definition ∈ host.registry.types, ∃ typeNamePrefix number, number < host.nextNumber ∧
    definition.name = CompilationUnit.numberedName typeNamePrefix number

/-- A name that is made with the next number is free, whatever prefixes the loaded types have. -/
theorem Numbered.free (numbered : host.Numbered) (typeNamePrefix : String) :
    host.registry.get? (CompilationUnit.numberedName typeNamePrefix host.nextNumber) = none := by
  refine List.find?_eq_none.mpr ?_
  intro definition member same
  obtain ⟨earlier, number, drawn, named⟩ := numbered definition member
  have equal := CompilationUnit.numberedName_inj (named.symm.trans (of_decide_eq_true same))
  exact absurd (equal ▸ drawn) (UInt64.lt_irrefl _)

theorem request?_evaluate {limit : Nat}
    (requested : (Call.evaluate frontEnd options bindings steps fragment).request? host =
      some (limit, artifact)) :
    ∃ unit, CompilationUnit.wrap frontEnd options bindings host.nextNumber fragment = .ok unit ∧
      unit.compile frontEnd = .ok artifact ∧ limit = options.stackLimit ∧
      artifact.name = CompilationUnit.numberedName options.typeNamePrefix host.nextNumber := by
  rw [Call.request?] at requested
  split at requested
  · simp at requested
  · rename_i unit wrapped
    split at requested
    · simp at requested
    · rename_i found compiled
      obtain ⟨rfl, rfl⟩ := Prod.mk.inj (Option.some.inj requested)
      refine ⟨unit, wrapped, compiled, rfl, ?_⟩
      rw [CompilationUnit.compile_typeName compiled, CompilationUnit.wrap_typeName wrapped]

theorem execute_error {error : EvalError}
    (failed : execute options steps definition = some (.error error)) :
    error.kind = .instantiationFailure ∨ error.kind = .evaluationFailure := by
  unfold execute at failed
  split at failed
  · simp at failed
  · rw [← Except.error.inj (Option.some.inj failed)]
    exact Or.inl rfl
  · obtain ⟨result, _, mapped⟩ := Option.map_eq_some_iff.mp failed
    cases result with
    | ok evaluation => simp [Except.mapError] at mapped
    | error fault =>
        rw [← Except.error.inj mapped]
        exact Or.inr rfl

end Host

variable [ObjectFormat]

namespace Call

theorem loading?_eq_some (loaded : call.loading? host = some (artifact, definition)) :
    ∃ limit later, call.request? host = some (limit, artifact) ∧
      host.registry.define limit artifact = .ok (definition, later) := by
  unfold loading? at loaded
  split at loaded
  · simp at loaded
  · rename_i limit requested request
    split at loaded
    · simp at loaded
    · rename_i found later defined
      obtain ⟨rfl, rfl⟩ := Prod.mk.inj (Option.some.inj loaded)
      exact ⟨limit, later, request, defined⟩

theorem read_of_loading? (loaded : call.loading? host = some (artifact, definition)) :
    TypeDefinition.read artifact.image = .ok definition ∧ definition.name = artifact.name ∧
      host.registry.get? definition.name = none := by
  obtain ⟨limit, later, _, defined⟩ := loading?_eq_some loaded
  obtain ⟨read, named, _⟩ := Registry.define_ok defined
  refine ⟨read, named, ?_⟩
  rw [named]
  exact (Registry.accepted_of_define defined).1

/-- The types after a call: those before it and, in front of them, the one that it loads. -/
theorem types_after (host : Host) (call : Call) :
    (call.after host).registry.types =
      ((call.loading? host).map Prod.snd).toList ++ host.registry.types := by
  have taken {limit : Nat} {artifact : Artifact} {definition : TypeDefinition} {later : Registry}
      (defined : host.registry.define limit artifact = .ok (definition, later)) :
      later.types = definition :: host.registry.types :=
    congrArg Registry.types (Registry.accepted_of_define defined).2.2.2
  cases call with
  | define limit artifact =>
      rw [after, loading?, request?]
      cases defined : host.registry.define limit artifact with
      | error error => simp [defined]
      | ok result => simp [defined, taken defined]
  | evaluate frontEnd options bindings steps fragment =>
      rw [after, loading?, request?, Host.evaluate]
      cases wrapped : CompilationUnit.wrap frontEnd options bindings host.nextNumber fragment with
      | error error => simp
      | ok unit =>
          cases compiled : unit.compile frontEnd with
          | error error => simp [compiled]
          | ok artifact =>
              cases defined : host.registry.define options.stackLimit artifact with
              | error error => simp [compiled, defined]
              | ok result => simp [compiled, defined, taken defined]
  | elsewhere nextNumber => rfl

end Call

/-- What is found under a name stays; under a name that was free, the type that is loaded is found. -/
theorem Call.get?_after (host : Host) (call : Call) (name : String) :
    (call.after host).registry.get? name =
      (host.registry.get? name).or
        (((call.loading? host).toList.find? fun loading => loading.1.name = name).map Prod.snd) := by
  unfold Registry.get?
  rw [types_after]
  cases loaded : call.loading? host with
  | none => simp
  | some loading =>
      obtain ⟨artifact, definition⟩ := loading
      obtain ⟨_, named, free⟩ := read_of_loading? loaded
      by_cases same : definition.name = name
      · subst same
        have absent : (host.registry.types.find? fun other => other.name = definition.name) = none :=
          free
        rw [named] at absent ⊢
        simp [absent, named]
      · have other : ¬ artifact.name = name := by rwa [← named]
        simp [same, other]

namespace Host

theorem after_cons (host : Host) (call : Call) (rest : List Call) :
    host.after (call :: rest) = (call.after host).after rest :=
  rfl

theorem after_append (host : Host) (calls later : List Call) :
    host.after (calls ++ later) = (host.after calls).after later :=
  List.foldl_append

theorem get?_after (host : Host) (calls : List Call) (name : String) :
    (host.after calls).registry.get? name =
      (host.registry.get? name).or
        (((host.loadings calls).find? fun loading => loading.1.name = name).map Prod.snd) := by
  induction calls generalizing host with
  | nil => simp [after, loadings]
  | cons call rest inductionHypothesis =>
      rw [after_cons, inductionHypothesis, Call.get?_after, loadings, List.find?_append,
        Option.map_or, Option.or_assoc]

theorem read_of_loadings {calls : List Call} {loading : Artifact × TypeDefinition}
    (member : loading ∈ host.loadings calls) :
    TypeDefinition.read loading.1.image = .ok loading.2 := by
  induction calls generalizing host with
  | nil => simp [loadings] at member
  | cons call rest inductionHypothesis =>
      rcases List.mem_append.mp member with own | later
      · exact (Call.read_of_loading? (Option.mem_toList.mp own)).1
      · exact inductionHypothesis later

/-- An evaluation that loads nothing answers with an error of one of the steps up to loading. -/
theorem evaluate_unloaded
    (unloaded : (Call.evaluate frontEnd options bindings steps fragment).loading? host = none) :
    ∃ error, (host.evaluate frontEnd options bindings steps fragment).1 = some (.error error) ∧
      (error.kind = .invalidFragment ∨ error.kind = .semanticError ∨
        error.kind = .internalCompilerFault ∨ error.kind = .loadFailure) := by
  rw [Call.loading?, Call.request?] at unloaded
  rw [evaluate]
  cases wrapped : CompilationUnit.wrap frontEnd options bindings host.nextNumber fragment with
  | error error => exact ⟨.ofWrapping error, rfl, Or.inl rfl⟩
  | ok unit =>
      cases compiled : unit.compile frontEnd with
      | error error =>
          refine ⟨.ofCompilation error, by simp [compiled], Or.inr ?_⟩
          cases error with
          | semantic message position => exact Or.inl rfl
          | internal message => exact Or.inr (Or.inl rfl)
          | crashed step text => exact Or.inr (Or.inl rfl)
          | artifactCount unit count => exact Or.inr (Or.inl rfl)
          | artifactName artifact unit => exact Or.inr (Or.inl rfl)
      | ok artifact =>
          cases defined : host.registry.define options.stackLimit artifact with
          | error error =>
              exact ⟨.ofLoading error, by simp [compiled, defined], Or.inr (Or.inr (Or.inr rfl))⟩
          | ok result => simp [wrapped, compiled, defined] at unloaded

theorem evaluate_loaded
    (loaded : (Call.evaluate frontEnd options bindings steps fragment).loading? host =
      some (artifact, definition)) :
    (host.evaluate frontEnd options bindings steps fragment).1 = execute options steps definition ∧
      definition.name = CompilationUnit.numberedName options.typeNamePrefix host.nextNumber := by
  obtain ⟨limit, later, requested, defined⟩ := Call.loading?_eq_some loaded
  obtain ⟨unit, wrapped, compiled, rfl, named⟩ := request?_evaluate requested
  refine ⟨?_, (Registry.define_ok defined).2.1.trans named⟩
  rw [evaluate]
  simp only [wrapped, compiled, defined]

theorem number_after
    (loaded : (Call.evaluate frontEnd options bindings steps fragment).loading? host =
      some (artifact, definition)) :
    ((Call.evaluate frontEnd options bindings steps fragment).after host).nextNumber =
      host.nextNumber + 1 := by
  obtain ⟨limit, later, requested, defined⟩ := Call.loading?_eq_some loaded
  obtain ⟨unit, wrapped, compiled, rfl, _⟩ := request?_evaluate requested
  rw [Call.after, evaluate]
  simp only [wrapped, compiled, defined]

theorem Numbered.after_call (numbered : host.Numbered)
    (undefined : ∀ limit artifact, call ≠ .define limit artifact)
    (up : host.nextNumber ≤ (call.after host).nextNumber) : (call.after host).Numbered := by
  intro definition member
  rw [Call.types_after] at member
  rcases List.mem_append.mp member with own | old
  · obtain ⟨⟨artifact, found⟩, loaded, rfl⟩ := Option.map_eq_some_iff.mp (Option.mem_toList.mp own)
    cases call with
    | define limit artifact => exact absurd rfl (undefined limit artifact)
    | elsewhere nextNumber => simp [Call.loading?, Call.request?] at loaded
    | evaluate frontEnd options bindings steps fragment =>
        rw [number_after loaded] at up ⊢
        refine ⟨_, host.nextNumber, ?_, (evaluate_loaded loaded).2⟩
        rw [UInt64.lt_iff_toNat_lt]
        rw [UInt64.le_iff_toNat_le] at up
        rw [UInt64.toNat_add] at up ⊢
        have one : (1 : UInt64).toNat = 1 := rfl
        omega
  · obtain ⟨typeNamePrefix, number, drawn, named⟩ := numbered definition old
    exact ⟨typeNamePrefix, number, UInt64.lt_of_lt_of_le drawn up, named⟩

theorem Numbered.after {calls : List Call} (numbered : host.Numbered)
    (undefined : ∀ limit artifact, Call.define limit artifact ∉ calls)
    (up : host.CountsUp calls) : (host.after calls).Numbered := by
  induction calls generalizing host with
  | nil => exact numbered
  | cons call rest inductionHypothesis =>
      refine inductionHypothesis (numbered.after_call ?_ up.1) ?_ up.2
      · intro limit artifact same
        exact undefined limit artifact (same ▸ List.mem_cons_self)
      · intro limit artifact member
        exact undefined limit artifact (List.mem_cons_of_mem _ member)

end Host
end Calls

namespace Registry

theorem loaded?_unpacked (registry : Registry) (name : String) :
    (registry.loaded? name).map LoadedType.unpacked = registry.get? name := by
  rw [loaded?, Option.map_map]
  convert Option.map_id' (x := registry.get? name) using 2
  exact funext LoadedType.unpacked_ofDefinition

end Registry

namespace Host

/-- A registry that was empty at the start holds, after any calls, the first type that was loaded under
each name, as its artifact was read. A further call that loads nothing changes no type, and an evaluation
of this sort has failed at loading or before; a call that loads a type adds this one alone, and an
evaluation of this sort can fail only in the run. Among evaluations alone, no name is ever taken as long
as the numbers go up. -/
theorem loaded_types_are_kept [ObjectFormat] (start : UInt64) (calls : List Call) :
    let fresh : Host := { registry := .empty, nextNumber := start }
    let host := fresh.after calls
    (∀ name,
      (host.registry.loaded? name).map LoadedType.unpacked =
        ((fresh.loadings calls).find? fun loading => loading.1.name = name).map Prod.snd) ∧
    (∀ name loaded, host.registry.loaded? name = some loaded → ∀ method,
      (loaded.method? method).map loaded.unpackedMethod = loaded.unpacked.method? method) ∧
    (∀ loading ∈ fresh.loadings calls, TypeDefinition.read loading.1.image = .ok loading.2) ∧
    (∀ later name loaded, host.registry.loaded? name = some loaded →
      (fresh.after (calls ++ later)).registry.loaded? name = some loaded) ∧
    (∀ call : Call,
      (call.loading? host = none → (call.after host).registry = host.registry) ∧
      ∀ artifact definition, call.loading? host = some (artifact, definition) →
        (call.after host).registry.types = definition :: host.registry.types ∧
          definition.name = artifact.name ∧ host.registry.loaded? definition.name = none) ∧
    (∀ {Fragment : Type} (frontEnd : FrontEnd Fragment) options bindings steps fragment,
      let call := Call.evaluate frontEnd options bindings steps fragment
      let answer := (host.evaluate frontEnd options bindings steps fragment).1
      (call.loading? host = none → ∃ error, answer = some (.error error) ∧
        (error.kind = .invalidFragment ∨ error.kind = .semanticError ∨
          error.kind = .internalCompilerFault ∨ error.kind = .loadFailure)) ∧
      ∀ artifact definition, call.loading? host = some (artifact, definition) →
        definition.name = CompilationUnit.numberedName options.typeNamePrefix host.nextNumber ∧
          answer = execute options steps definition ∧
          ∀ error, answer = some (.error error) →
            error.kind = .instantiationFailure ∨ error.kind = .evaluationFailure) ∧
    ((∀ limit artifact, Call.define limit artifact ∉ calls) → fresh.CountsUp calls →
      ∀ {Fragment : Type} (frontEnd : FrontEnd Fragment) options bindings fragment unit artifact,
        CompilationUnit.wrap frontEnd options bindings host.nextNumber fragment = .ok unit →
        unit.compile frontEnd = .ok artifact →
        ∀ name, host.registry.define options.stackLimit artifact ≠ .error (.alreadyDefined name)) := by
  intro fresh host
  refine ⟨?_, ?_, ?_, ?_, ?_, ?_, ?_⟩
  · intro name
    rw [Registry.loaded?_unpacked, get?_after]
    rfl
  · intro name loaded _ method
    exact loaded.method?_unpacked method
  · intro loading member
    exact read_of_loadings member
  · intro later name loaded found
    obtain ⟨definition, held, packed⟩ := Option.map_eq_some_iff.mp found
    rw [after_append, Registry.loaded?, get?_after, held]
    exact congrArg some packed
  · intro call
    have types := Call.types_after host call
    constructor
    · intro unloaded
      rw [unloaded] at types
      exact congrArg Registry.mk types
    · intro artifact definition loaded
      obtain ⟨_, named, free⟩ := Call.read_of_loading? loaded
      rw [loaded] at types
      refine ⟨types, named, ?_⟩
      rw [Registry.loaded?, free]
      rfl
  · intro Fragment frontEnd options bindings steps fragment call answer
    refine ⟨evaluate_unloaded, ?_⟩
    intro artifact definition loaded
    obtain ⟨run, named⟩ := evaluate_loaded loaded
    refine ⟨named, run, ?_⟩
    intro error failed
    exact execute_error (run.symm.trans failed)
  · intro undefined up Fragment frontEnd options bindings fragment unit artifact wrapped compiled
    have none_yet : fresh.Numbered := fun definition member => absurd member List.not_mem_nil
    have numbered : host.Numbered := none_yet.after undefined up
    refine Registry.define_ne_alreadyDefined ?_ options.stackLimit
    rw [CompilationUnit.compile_typeName compiled, CompilationUnit.wrap_typeName wrapped]
    exact numbered.free options.typeNamePrefix

open Lisp (sumFragment sumBindings sumUnit sumType sumBody)

def secondSum : CompilationUnit Lisp.Fragment :=
  { sumUnit with typeName := "Fragment$1$7" }

theorem second_sum_compiles : ∃ artifact, secondSum.compile Lisp.frontEnd = .ok artifact := by
  have generates : Lisp.Generates secondSum { sumType with name := "Fragment$1$7" } :=
    ⟨sumBody, by decide, Lisp.sum_resolves, by decide +kernel⟩
  have written : TypeDefinition.write { sumType with name := "Fragment$1$7" } = .ok ⟨_, _⟩ := rfl
  exact ⟨_, Lisp.compile_of_written generates written⟩

theorem two_sums_are_kept :
    let host := ({ registry := .empty, nextNumber := 1 } : Host).after
      [.evaluate Lisp.frontEnd {} sumBindings 100 sumFragment, .elsewhere 7]
    (host.registry.loaded? "Fragment$1").map LoadedType.unpacked = some sumType ∧
      ∃ artifact, secondSum.compile Lisp.frontEnd = .ok artifact ∧
        host.registry.define 1024 artifact ≠ .error (.alreadyDefined "Fragment$1$7") := by
  intro host
  obtain ⟨artifact, compiled⟩ := Lisp.sum_compiles
  obtain ⟨second, compiledAgain⟩ := second_sum_compiles
  have loaded : (Call.evaluate Lisp.frontEnd {} sumBindings 100 sumFragment).loading?
      { registry := .empty, nextNumber := 1 } = some (artifact, sumType) := by
    simp only [Call.loading?, Call.request?, Lisp.sum_wraps, compiled, Lisp.sum_loads compiled]
  have number := number_after loaded
  have up : CountsUp { registry := .empty, nextNumber := 1 }
      [.evaluate Lisp.frontEnd {} sumBindings 100 sumFragment, .elsewhere 7] := by
    refine ⟨?_, ?_, trivial⟩
    · rw [number]
      decide
    · rw [number]
      decide
  obtain ⟨kept, _, _, _, _, _, fresh⟩ := loaded_types_are_kept 1
    [.evaluate Lisp.frontEnd {} sumBindings 100 sumFragment, .elsewhere 7]
  constructor
  · rw [kept, loadings, loaded]
    have named : artifact.name = "Fragment$1" := CompilationUnit.compile_typeName compiled
    simp [named]
  · have wrapped : CompilationUnit.wrap Lisp.frontEnd { typeNamePrefix := "Fragment$1" } sumBindings 7
        sumFragment = .ok secondSum := by
      with_unfolding_all rfl
    have undefined : ∀ limit artifact, Call.define limit artifact ∉
        [.evaluate Lisp.frontEnd {} sumBindings 100 sumFragment, .elsewhere 7] := by
      simp
    have taken := fresh undefined up Lisp.frontEnd _ _ _ _ second wrapped compiledAgain
    exact ⟨second, compiledAgain, taken "Fragment$1$7"⟩

end Host
end FragmentLisp
