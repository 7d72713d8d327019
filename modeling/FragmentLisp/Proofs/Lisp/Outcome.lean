import FragmentLisp.Evaluation
import FragmentLisp.Proofs.Lisp.Compilation
import FragmentLisp.Proofs.Lisp.Execution
import FragmentLisp.Proofs.Safety

/-!
What can become of a compiled fragment. Loading fails only at the limit for operand stacks. The instance
then holds the host's values, and running it gives a value or one of the faults that values cause.
-/

namespace FragmentLisp
namespace Lisp

open Machine (State)

def answerOf (typeName : String) (outcome : Except Fault (Option Value × Store)) :
    Except Fault Evaluation :=
  outcome.map fun result =>
    { value := result.1.getD .nothing, output := result.2.output, typeName }

def Body.evaluate (fields : Array Value) (body : Body) : Except Fault (Option Value × Store) :=
  evaluateStatements fields (some .nil)
    { locals := Array.replicate body.locals.toNat .nil, output := "" } body.statements

/-- A generated type of a unit whose entry method is not taken for the constructor and whose fields hold
values. -/
structure Prepared [ObjectFormat] (unit : CompilationUnit Fragment) (artifact : Artifact)
    (body : Body) (definition : TypeDefinition) (constructor entry : Method)
    (filling running : List Instruction) : Prop where
  written : definition.write = .ok artifact
  resolved : Resolution.resolveFragment unit.fields unit.body.statements = .ok body
  derived : Resolution.Derived unit.fields unit.body.statements body
  generated : Code.Generated unit body definition constructor entry filling running
  code : ∀ method ∈ definition.methods, method.code.size < 2 ^ 32
  storable : definition.Storable
  other : unit.entryMethod ≠ TypeDefinition.constructorName
  real : ∀ field ∈ unit.fields, field.value ≠ .nothing

section Units

variable [ObjectFormat] {unit : CompilationUnit Fragment} {artifact : Artifact} {body : Body}
variable {definition : TypeDefinition} {constructor entry : Method}
variable {filling running : List Instruction} {limit : Nat}

theorem prepared_of_ok {options : Options} {bindings : Bindings} {number : UInt64}
    {fragment : Fragment}
    (wrapped : CompilationUnit.wrap frontEnd options bindings number fragment = .ok unit)
    (compiled : unit.compile frontEnd = .ok artifact)
    (compact : ∀ definition, Generates unit definition → definition.Compact) :
    ∃ body definition constructor entry filling running, Generates unit definition ∧
      Prepared unit artifact body definition constructor entry filling running := by
  obtain ⟨_, other, _, _, real⟩ := CompilationUnit.wrap_ok wrapped
  obtain ⟨definition, generates, written⟩ := compile_ok compiled
  obtain ⟨body, constructor, entry, filling, running, resolved, derived, generated⟩ :=
    generates_parts generates
  have small := compact definition generates
  exact ⟨body, definition, constructor, entry, filling, running, generates, written, resolved,
    derived, generated, small.code, generated.storable other small, other, real⟩

section Parts

variable (prepared : Prepared unit artifact body definition constructor entry filling running)

include prepared

theorem Prepared.verified :
    ∀ method ∈ definition.methods, Verification.verify definition method = .ok () :=
  prepared.generated.verified prepared.derived prepared.code

theorem Prepared.constructor_mem : constructor ∈ definition.methods := by
  rw [prepared.generated.methods]
  exact List.mem_cons_self

theorem Prepared.entry_mem : entry ∈ definition.methods := by
  rw [prepared.generated.methods]
  exact List.mem_cons_of_mem _ List.mem_cons_self

/-- Loading the artifact fails only if a method declares more of the stack than the limit allows. -/
theorem Prepared.define [LawfulObjectFormat] {registry : Registry}
    (fresh : registry.get? artifact.name = none) :
    registry.define limit artifact =
      match definition.methods.find? (Registry.exceeds limit) with
      | some method =>
          .error (.stackLimit definition.name method.signature.name
            method.signature.maxStack.toNat limit)
      | none => .ok (definition, { types := definition :: registry.types }) := by
  obtain ⟨named, read⟩ := TypeDefinition.read_write prepared.storable prepared.written
  have accepted := prepared.generated.constructor_accepted prepared.code
  exact Registry.define_of_verified fresh read named prepared.verified
    ⟨constructor, prepared.constructor_mem, accepted.nonempty⟩

theorem Prepared.methods :
    Instance.methods definition unit.entryMethod = .ok (constructor, entry) := by
  have constructorNamed := prepared.generated.constructor.name
  have entryNamed := prepared.generated.entry.name
  have different : ¬ constructor.signature.name = unit.entryMethod := by
    rw [constructorNamed]
    exact prepared.other.symm
  have first : Instance.zeroArgumentMethod definition TypeDefinition.constructorName =
      .ok constructor := by
    unfold Instance.zeroArgumentMethod TypeDefinition.method?
    simp [prepared.generated.methods, constructorNamed, prepared.generated.constructor.arity]
  have second : Instance.zeroArgumentMethod definition unit.entryMethod = .ok entry := by
    unfold Instance.zeroArgumentMethod TypeDefinition.method?
    simp [prepared.generated.methods, different, entryNamed, prepared.generated.entry.arity]
  unfold Instance.methods
  rw [first]
  simp only [prepared.generated.constructor.returns, second]
  rfl

theorem Prepared.name : definition.name = unit.typeName := by
  rw [prepared.generated.definition_eq]

def Prepared.object (_ : Prepared unit artifact body definition constructor entry filling running)
    (limit : Nat) : Instance :=
  { definition
    entry
    fields := (unit.fields.map Field.value).toArray
    output := ""
    stackLimit := limit }

theorem Prepared.create_settles
    (room : ∀ method ∈ definition.methods, method.signature.maxStack.toNat ≤ limit) :
    Settles (Instance.create definition unit.entryMethod limit) (.ok (prepared.object limit)) := by
  have verified := prepared.verified constructor prepared.constructor_mem
  have fits := room constructor prepared.constructor_mem
  obtain ⟨last, final, passes, once, fields, output⟩ :=
    @Code.Generated.fills_fields _ _ _ _ _ _ _ _ limit prepared.generated prepared.code
  obtain ⟨needed, reached⟩ := passes.run fun steps stopped ran => by
    have sound := Machine.verified_run_sound verified fits Array.size_replicate
      (Machine.nils_present _) "" steps
    rw [ran] at sound
    exact sound.1
  have settled := Instance.create_settles prepared.methods reached once
  rwa [fields, output] at settled

/-- The run of the entry method comes to what the body gives, and a fault is one that values cause. -/
theorem Prepared.invoke_settles
    (room : ∀ method ∈ definition.methods, method.signature.maxStack.toNat ≤ limit) :
    Settles (prepared.object limit).invoke
        (answerOf unit.typeName (body.evaluate (unit.fields.map Field.value).toArray)) ∧
      ∀ fault, body.evaluate (unit.fields.map Field.value).toArray = .error fault →
        fault.IsDynamic := by
  have verified := prepared.verified entry prepared.entry_mem
  have fits := room entry prepared.entry_mem
  have sized : (unit.fields.map Field.value).toArray.size = definition.fieldCount.toNat := by
    rw [prepared.generated.fieldCount, List.size_toArray, List.length_map]
  have present : ∀ value ∈ (unit.fields.map Field.value).toArray, value ≠ .nothing := by
    intro value member
    obtain ⟨field, inside, rfl⟩ := List.mem_map.mp (List.mem_toArray.mp member)
    exact prepared.real field inside
  have sound := Machine.verified_run_sound verified fits sized present ""
  have start : State.initial entry.signature.locals.toNat (unit.fields.map Field.value).toArray "" =
      place (unit.fields.map Field.value).toArray 0 []
        { locals := Array.replicate body.locals.toNat .nil, output := "" } := by
    rw [prepared.generated.entry.locals]
    rfl
  obtain ⟨last, passes, ended, _⟩ :=
    @Code.Generated.concludes _ _ _ _ _ _ _ _ _ limit prepared.generated prepared.derived
      prepared.code _ (Code.conforms_fields unit.fields)
      { locals := Array.replicate body.locals.toNat .nil, output := "" } Array.size_replicate
  obtain ⟨needed, reached⟩ := passes.run fun steps stopped ran => by
    have own := sound steps
    rw [start, ran] at own
    exact own.1
  rw [← start] at reached
  change Code.EndsWith _ last (body.evaluate (unit.fields.map Field.value).toArray) at ended
  cases evaluated : body.evaluate (unit.fields.map Field.value).toArray with
  | ok result =>
      rw [evaluated] at ended
      obtain ⟨final, once, output⟩ := ended
      refine ⟨?_, nofun⟩
      apply @Instance.invoke_settles needed last (prepared.object limit) _ _ reached once
      rw [Instance.conclude, output]
      change some (Except.ok (Evaluation.mk _ _ definition.name)) = _
      rw [prepared.name]
      rfl
  | error fault =>
      rw [evaluated] at ended
      refine ⟨@Instance.invoke_settles needed last (prepared.object limit) _ _ reached ended rfl, ?_⟩
      intro other same
      obtain rfl := Except.error.inj same
      have final : ∀ state, Machine.Outcome.faulted fault last ≠ .unfinished state := by simp
      have stopped := sound (needed + 1)
      rw [Machine.run_ended reached ended final (Nat.lt_succ_self needed)] at stopped
      exact stopped.1

end Parts

end Units

theorem execute_settles {options : Options} {definition : TypeDefinition} {object : Instance}
    {answer : Except Fault Evaluation}
    (created : Settles (Instance.create definition options.entryMethod options.stackLimit)
      (.ok object))
    (invoked : Settles object.invoke answer) :
    Settles (fun steps => Host.execute options steps definition)
      (answer.mapError EvalError.ofFault) := by
  obtain ⟨forCreation, creation⟩ := created
  obtain ⟨forInvocation, invocation⟩ := invoked
  refine ⟨max forCreation forInvocation, fun steps => ?_⟩
  simp only [Host.execute, creation steps]
  by_cases early : steps < forCreation
  · rw [if_pos early, if_pos (by omega)]
  · rw [if_neg early]
    simp only [invocation steps]
    by_cases late : steps < forInvocation
    · rw [if_pos late, if_pos (by omega)]
      rfl
    · rw [if_neg late, if_neg (by omega)]
      rfl

/-! A small fragment with all that it is turned into. -/

def sumFragment : Fragment :=
  [.list [.symbol "+" ⟨1, 1⟩, .symbol "x" ⟨3, 1⟩, .number 1 ⟨5, 1⟩] ⟨0, 7⟩]

def sumBindings : Bindings :=
  { entries := [("x", .integer 41)] }

def sumUnit : CompilationUnit Fragment :=
  { typeName := "Fragment$1"
    entryMethod := "run"
    fields := [{ name := "x", value := .integer 41 }]
    body := sumFragment
    shape := .expression
    origin := 0 }

def sumBody : Body :=
  { statements := [.expression (.arithmetic .add [.field 0, .number 1])]
    locals := 0
    result? := some .number }

def sumType : TypeDefinition :=
  { name := "Fragment$1"
    fieldCount := 1
    constants := []
    methods :=
      [{ signature :=
           { name := TypeDefinition.constructorName, arity := 0, locals := 0, maxStack := 1
             returnsValue := false }
         code := (Instruction.encodeAll
           [.pushInteger 41, .storeField 0, .returnVoid]).toArray },
       { signature := { name := "run", arity := 0, locals := 0, maxStack := 2, returnsValue := true }
         code := (Instruction.encodeAll
           [.loadField 0, .pushInteger 1, .arithmetic .add, .return]).toArray }] }

theorem sum_wraps : CompilationUnit.wrap frontEnd {} sumBindings 1 sumFragment = .ok sumUnit := by
  with_unfolding_all rfl

theorem sum_resolves : Resolution.resolveFragment sumUnit.fields sumFragment = .ok sumBody := rfl

theorem sum_types : Code.typeDefinition sumUnit sumBody = .ok sumType := by
  decide +kernel

theorem sum_generates : Generates sumUnit sumType :=
  ⟨sumBody, by decide, sum_resolves, sum_types⟩

theorem sum_compiles : ∃ artifact, sumUnit.compile frontEnd = .ok artifact := by
  have written : sumType.write = .ok ⟨sumType.name, _⟩ := rfl
  exact ⟨_, compile_of_written sum_generates written⟩

theorem sum_compact : ∀ definition, Generates sumUnit definition → definition.Compact := by
  intro definition generates
  rw [generates.unique sum_generates]
  exact ⟨by decide, by decide⟩

theorem sum_loads {artifact : Artifact} (compiled : sumUnit.compile frontEnd = .ok artifact) :
    Registry.empty.define 1024 artifact = .ok (sumType, { types := [sumType] }) := by
  obtain ⟨body, definition, constructor, entry, filling, running, generates, prepared⟩ :=
    prepared_of_ok sum_wraps compiled sum_compact
  obtain rfl := generates.unique sum_generates
  rw [prepared.define rfl]
  rfl

/-- A fragment that compiles cannot go wrong later. Its artifact is refused only because a method
declares more of the operand stack than the limit allows. Otherwise the instance holds the host's values
in their order and has printed nothing, and the run ends with a value or with a fault that values
cause. -/
theorem compiled_fragment_cannot_go_wrong [ObjectFormat] [LawfulObjectFormat] {options : Options}
    {bindings : Bindings} {number : UInt64} {fragment : Fragment} {unit : CompilationUnit Fragment} {artifact : Artifact}
    {registry : Registry}
    (wrapped : CompilationUnit.wrap frontEnd options bindings number fragment = .ok unit)
    (compiled : unit.compile frontEnd = .ok artifact)
    (compact : ∀ definition, Generates unit definition → definition.Compact)
    (fresh : registry.get? artifact.name = none) :
    ∃ definition, Generates unit definition ∧
      ((∃ method ∈ definition.methods,
          options.stackLimit < method.signature.maxStack.toNat ∧
          registry.define options.stackLimit artifact =
            .error (.stackLimit definition.name method.signature.name
              method.signature.maxStack.toNat options.stackLimit)) ∨
        ((∀ method ∈ definition.methods,
            method.signature.maxStack.toNat ≤ options.stackLimit) ∧
          registry.define options.stackLimit artifact =
            .ok (definition, { types := definition :: registry.types }) ∧
          ∃ object : Instance,
            object.fields = (bindings.entries.map Prod.snd).toArray ∧ object.output = "" ∧
            Settles (Instance.create definition options.entryMethod options.stackLimit)
              (.ok object) ∧
            ∃ answer, Settles object.invoke answer ∧
              (∀ fault, answer = .error fault → fault.IsDynamic) ∧
              Settles (fun steps => Host.execute options steps definition)
                (answer.mapError EvalError.ofFault))) := by
  obtain ⟨entryName, _, fields, _, _⟩ := CompilationUnit.wrap_ok wrapped
  obtain ⟨body, definition, constructor, entry, filling, running, generates, prepared⟩ :=
    prepared_of_ok wrapped compiled compact
  refine ⟨definition, generates, ?_⟩
  have defined := @Prepared.define _ _ _ _ _ _ _ _ _ options.stackLimit prepared _ registry fresh
  cases found : definition.methods.find? (Registry.exceeds options.stackLimit) with
  | some method =>
      rw [found] at defined
      exact Or.inl ⟨method, List.mem_of_find?_eq_some found,
        Registry.exceeds_iff.mp (List.find?_some found), defined⟩
  | none =>
      rw [found] at defined
      have room : ∀ method ∈ definition.methods,
          method.signature.maxStack.toNat ≤ options.stackLimit := by
        intro method member
        have fits := List.find?_eq_none.mp found method member
        rw [Registry.exceeds_iff] at fits
        exact Nat.le_of_not_lt fits
      have created := prepared.create_settles room
      obtain ⟨invoked, dynamic⟩ := prepared.invoke_settles room
      rw [entryName] at created
      refine Or.inr ⟨room, defined, prepared.object options.stackLimit, ?_, rfl, created, _, invoked,
        ?_, execute_settles created invoked⟩
      · change (unit.fields.map Field.value).toArray = _
        rw [fields, CompilationUnit.fieldsOf, List.map_map]
        rfl
      · intro fault failed
        unfold answerOf at failed
        cases evaluated : body.evaluate (unit.fields.map Field.value).toArray with
        | ok result =>
            rw [evaluated] at failed
            simp [Except.map] at failed
        | error other =>
            rw [evaluated] at failed
            obtain rfl := Except.error.inj failed
            exact dynamic _ evaluated

theorem sum_cannot_go_wrong :
    ∃ artifact object answer, sumUnit.compile frontEnd = .ok artifact ∧
      Registry.empty.define 1024 artifact = .ok (sumType, { types := [sumType] }) ∧
      object.fields = #[.integer 41] ∧
      Settles (Instance.create sumType "run" 1024) (.ok object) ∧
      Settles object.invoke answer := by
  obtain ⟨artifact, compiled⟩ := sum_compiles
  obtain ⟨definition, generates, outcome⟩ := compiled_fragment_cannot_go_wrong sum_wraps compiled
    sum_compact (rfl : Registry.empty.get? artifact.name = none)
  obtain rfl := generates.unique sum_generates
  have room : ∀ method ∈ sumType.methods, method.signature.maxStack.toNat ≤ 1024 := by decide
  rcases outcome with ⟨method, member, exceeding, _⟩ | ⟨_, defined, object, fields, _, created, rest⟩
  · exact absurd (room method member) (Nat.not_le.mpr exceeding)
  · obtain ⟨answer, invoked, _⟩ := rest
    exact ⟨artifact, object, answer, compiled, defined, fields, created, invoked⟩

end Lisp
end FragmentLisp
