import FragmentLisp.Proofs.Artifact
import FragmentLisp.Proofs.Instance.Ending
import FragmentLisp.Proofs.Machine.Effect
import FragmentLisp.Proofs.ObjectFile.Image
import FragmentLisp.Proofs.Verification

/-!
Methods that passed verification run safely. The invariant ties the state of a run to the heights that
the stack analysis has recorded; one instruction keeps it, so a run of any length does. Nothing is
assumed of where the code comes from, and it may loop.
-/

namespace FragmentLisp
namespace Machine

open Instruction (placed)
open Verification (Accepted)

/-- A run that is about to perform an instruction of the method, within the declared height. -/
structure AtInstruction (method : Method) (state : State) : Prop where
  boundary : state.offset ∈ (Instruction.listing method.code).1.map Prod.fst
  height : state.stack.entries.length ≤ method.signature.maxStack.toNat

/-- How a run of a method may stand after some steps: at an instruction, returned as the method
declares, or stopped at an instruction by a fault of its values. -/
def Sound (method : Method) : Outcome → Prop
  | .unfinished state => AtInstruction method state
  | .returned value? state =>
      value?.isSome = method.signature.returnsValue ∧
        state.stack.entries.length ≤ method.signature.maxStack.toNat
  | .faulted fault state => fault.IsDynamic ∧ AtInstruction method state

/-- What every state of a run keeps, for the heights and the bound that the stack analysis found. -/
structure Invariant (definition : TypeDefinition) (method : Method)
    (instructions : List Instruction) (heights : StackDepth.Heights) (bound : Nat)
    (state : State) : Prop where
  located : ∃ instruction, (state.offset, instruction) ∈ placed 0 instructions
  recorded : heights[state.offset]? = some (some state.stack.height)
  bounded : state.stack.height ≤ bound
  locals : state.locals.size = method.signature.locals.toNat
  fields : state.fields.size = definition.fieldCount.toNat
  present : Present state

/-- How a method may leave its frame. -/
structure Returns (definition : TypeDefinition) (method : Method) (bound : Nat)
    (value? : Option Value) (state : State) : Prop where
  declared : value?.isSome = method.signature.returnsValue
  real : value? ≠ some .nothing
  bounded : state.stack.height ≤ bound
  fields : state.fields.size = definition.fieldCount.toNat
  present : Present state

section Runs

variable {definition : TypeDefinition} {method : Method} {instructions : List Instruction}
variable {heights : StackDepth.Heights} {bound limit : Nat}

def Keeps (definition : TypeDefinition) (method : Method) (instructions : List Instruction)
    (heights : StackDepth.Heights) (bound : Nat) : Outcome → Prop
  | .unfinished state => Invariant definition method instructions heights bound state
  | .returned value? final => Returns definition method bound value? final
  | .faulted fault stopped =>
      fault.IsDynamic ∧ Invariant definition method instructions heights bound stopped

theorem names_of_accepted (accepted : Accepted definition method instructions)
    {state : State} {instruction : Instruction}
    (kept : Invariant definition method instructions heights bound state)
    (member : (state.offset, instruction) ∈ placed 0 instructions) :
    Names (Instance.program definition method limit) state instruction := by
  have checked := accepted.operands _ member
  have locals := kept.locals
  have fields := kept.fields
  cases instruction with
  | pushConstant index =>
      simp only [Verification.checkOperand, Verification.checkConstant] at checked
      split at checked
      · simpa [Names, Instance.program]
      · simp at checked
  | loadLocal slot | storeLocal slot =>
      simp only [Verification.checkOperand, Verification.checkLocal] at checked
      split at checked
      · rename_i inside
        have below := UInt16.lt_iff_toNat_lt.mp inside
        rw [← locals] at below
        exact below
      · simp at checked
  | loadField index | storeField index =>
      simp only [Verification.checkOperand, Verification.checkField] at checked
      split at checked
      · rename_i inside
        have below := UInt16.lt_iff_toNat_lt.mp inside
        rw [← fields] at below
        exact below
      · simp at checked
  | _ => trivial

/-- Where execution goes on there is an instruction, since the analysis has recorded a height there. -/
theorem successor_located (accepted : Accepted definition method instructions)
    (complete : method.code.size ≤ codeSize instructions)
    {offset next : Nat} {instruction : Instruction}
    (member : (offset, instruction) ∈ placed 0 instructions)
    (successor : next ∈ instruction.successors offset) (inside : next < method.code.size) :
    ∃ following, (next, following) ∈ placed 0 instructions := by
  rcases Instruction.mem_successors.mp successor with ⟨_, rfl⟩ | jumped
  · rcases Instruction.placed_next member with found | ended
    · exact found
    · simp only at ended
      omega
  · exact (accepted.jumps _ member next jumped).2

theorem returns_as_declared (accepted : Accepted definition method instructions)
    {offset : Nat} {instruction : Instruction} (withValue : Bool)
    (member : (offset, instruction) ∈ placed 0 instructions)
    (returning : Verification.checkOperand definition method.signature offset instruction =
      Verification.checkReturn method.signature withValue) :
    withValue = method.signature.returnsValue := by
  have checked := accepted.operands _ member
  simp only [returning, Verification.checkReturn] at checked
  split at checked
  · rename_i same
    exact same.symm
  · split at checked <;> simp at checked

theorem step_keeps (accepted : Accepted definition method instructions)
    (sized : heights.size = method.code.size)
    (closed : ∀ offset height, heights[offset]? = some (some height) →
      StackDepth.Closed method.code heights bound offset height)
    (room : bound ≤ limit) {state : State}
    (kept : Invariant definition method instructions heights bound state) :
    Keeps definition method instructions heights bound
      (run (Instance.program definition method limit) 1 state) := by
  obtain ⟨holds, filled⟩ := Instruction.holds_of_listing_placed accepted.listed
  obtain ⟨instruction, member⟩ := kept.located
  obtain ⟨inside, decoded⟩ := holds _ member
  obtain ⟨found, decodedAgain, operands, below, reached⟩ := closed _ _ kept.recorded
  obtain rfl : instruction = found := Except.ok.inj (decoded.symm.trans decodedAgain)
  have proper : Proper instruction state
      (perform (Instance.program definition method limit) state instruction) :=
    perform_proper operands (Nat.le_trans below room) (names_of_accepted accepted kept member)
  have performed : step (Instance.program definition method limit) state =
      perform (Instance.program definition method limit) state instruction := by
    unfold step
    rw [if_pos (show state.offset < (Instance.program definition method limit).code.size from inside)]
    rw [show Instruction.decodeAt (Instance.program definition method limit).code state.offset =
      .ok instruction from decoded]
  rw [run, performed]
  cases outcome : perform (Instance.program definition method limit) state instruction with
  | running next =>
      rw [outcome] at proper
      obtain ⟨successor, height, locals, fields, present⟩ := proper
      have recorded := reached _ successor
      have within : next.offset < method.code.size :=
        sized ▸ (Array.getElem?_eq_some_iff.mp recorded).1
      exact ⟨successor_located accepted filled member successor within, height ▸ recorded,
        height ▸ below, locals.trans kept.locals, fields.trans kept.fields, present kept.present⟩
  | returned value? final =>
      rw [outcome] at proper
      obtain ⟨how, height, fields, present⟩ := proper
      rcases how with ⟨rfl, value, rfl, real⟩ | ⟨rfl, rfl⟩
      · have declared := returns_as_declared accepted true member rfl
        refine ⟨by simpa using declared, ?_, height ▸ below, fields.trans kept.fields,
          present kept.present⟩
        intro none_given
        exact real kept.present (Option.some.inj none_given)
      · have declared := returns_as_declared accepted false member rfl
        exact ⟨by simpa using declared, by simp, height ▸ below, fields.trans kept.fields,
          present kept.present⟩
  | faulted fault stopped =>
      rw [outcome] at proper
      obtain ⟨dynamic, rfl⟩ := proper
      exact ⟨dynamic, kept⟩

/-- A run of any length keeps the invariant. -/
theorem run_keeps (accepted : Accepted definition method instructions)
    (sized : heights.size = method.code.size)
    (closed : ∀ offset height, heights[offset]? = some (some height) →
      StackDepth.Closed method.code heights bound offset height)
    (room : bound ≤ limit) (steps : Nat) {state : State}
    (kept : Invariant definition method instructions heights bound state) :
    Keeps definition method instructions heights bound
      (run (Instance.program definition method limit) steps state) := by
  induction steps generalizing state with
  | zero => exact kept
  | succ steps inductionHypothesis =>
      have once := step_keeps accepted sized closed room kept
      rw [run] at once
      rw [run]
      cases outcome : step (Instance.program definition method limit) state with
      | running next =>
          rw [outcome] at once
          exact inductionHypothesis once
      | returned value? final =>
          rw [outcome] at once
          exact once
      | faulted fault stopped =>
          rw [outcome] at once
          exact once

end Runs

theorem Invariant.atInstruction {definition : TypeDefinition} {method : Method}
    {instructions : List Instruction} {heights : StackDepth.Heights} {bound : Nat} {state : State}
    (accepted : Accepted definition method instructions)
    (declared : bound ≤ method.signature.maxStack.toNat)
    (kept : Invariant definition method instructions heights bound state) :
    AtInstruction method state := by
  obtain ⟨instruction, member⟩ := kept.located
  constructor
  · rw [accepted.listed]
    exact List.mem_map.mpr ⟨_, member, rfl⟩
  · rw [← state.stack.height_eq]
    exact Nat.le_trans kept.bounded declared

theorem Keeps.sound {definition : TypeDefinition} {method : Method}
    {instructions : List Instruction} {heights : StackDepth.Heights} {bound : Nat}
    {outcome : Outcome} (accepted : Accepted definition method instructions)
    (declared : bound ≤ method.signature.maxStack.toNat)
    (kept : Keeps definition method instructions heights bound outcome) :
    Sound method outcome := by
  cases outcome with
  | unfinished state => exact Invariant.atInstruction accepted declared kept
  | returned value? final =>
      refine ⟨Returns.declared kept, ?_⟩
      rw [← final.stack.height_eq]
      exact Nat.le_trans (Returns.bounded kept) declared
  | faulted fault stopped => exact ⟨kept.1, Invariant.atInstruction accepted declared kept.2⟩

theorem nils_present (count : Nat) :
    ∀ value ∈ Array.replicate count Value.nil, value ≠ .nothing := by
  intro value member
  rw [(Array.mem_replicate.mp member).2]
  simp

/-- A method that passed verification and fits under the stack limit keeps its invariant from its start
on, on fields that hold values. -/
theorem verified_run_keeps {definition : TypeDefinition} {method : Method} {limit : Nat}
    (verified : Verification.verify definition method = .ok ())
    (room : method.signature.maxStack.toNat ≤ limit)
    {fields : Array Value} (sized : fields.size = definition.fieldCount.toNat)
    (present : ∀ value ∈ fields, value ≠ .nothing) (output : String) (steps : Nat) :
    ∃ instructions heights bound, Accepted definition method instructions ∧
      bound ≤ method.signature.maxStack.toNat ∧
      Keeps definition method instructions heights bound
        (run (Instance.program definition method limit) steps
          (.initial method.signature.locals.toNat fields output)) := by
  obtain ⟨instructions, accepted⟩ := Verification.verify_ok_iff.mp verified
  obtain ⟨bound, measured, declared⟩ := accepted.stack
  obtain ⟨heights, heightsSized, atStart, closed⟩ := maxStackDepth_heights measured
  refine ⟨instructions, heights, bound, accepted, declared, ?_⟩
  apply run_keeps accepted heightsSized closed (Nat.le_trans declared room) steps
  refine ⟨?_, atStart, Nat.zero_le _, by simp [State.initial], sized, ?_, ?_, present⟩
  · obtain ⟨holds, filled⟩ := Instruction.holds_of_listing_placed accepted.listed
    cases instructions with
    | nil =>
        have empty : method.code.size = 0 := Nat.le_zero.mp filled
        exact absurd (by simpa [Array.isEmpty] using empty) accepted.nonempty
    | cons instruction rest => exact ⟨instruction, List.mem_cons_self⟩
  · intro value member
    exact absurd member List.not_mem_nil
  · exact nils_present _

theorem verified_run_sound {definition : TypeDefinition} {method : Method} {limit : Nat}
    (verified : Verification.verify definition method = .ok ())
    (room : method.signature.maxStack.toNat ≤ limit)
    {fields : Array Value} (sized : fields.size = definition.fieldCount.toNat)
    (present : ∀ value ∈ fields, value ≠ .nothing) (output : String) (steps : Nat) :
    Sound method (run (Instance.program definition method limit) steps
      (.initial method.signature.locals.toNat fields output)) := by
  obtain ⟨instructions, heights, bound, accepted, declared, kept⟩ :=
    verified_run_keeps verified room sized present output steps
  exact kept.sound accepted declared

end Machine

namespace Instance

theorem methods_ok {definition : TypeDefinition} {entryName : String} {constructor entry : Method}
    (found : methods definition entryName = .ok (constructor, entry)) :
    constructor ∈ definition.methods ∧ constructor.signature.returnsValue = false ∧
      entry ∈ definition.methods := by
  have startable := methods_ok_iff.mp found
  exact ⟨List.mem_of_find?_eq_some startable.constructorFound, startable.constructorVoid,
    List.mem_of_find?_eq_some startable.entryFound⟩

theorem create_ok {definition : TypeDefinition} {entryName : String} {stackLimit steps : Nat}
    {object : Instance} (created : create definition entryName stackLimit steps = some (.ok object)) :
    ∃ constructor entry, methods definition entryName = .ok (constructor, entry) ∧
      ∃ value? final,
        Machine.run (program definition constructor stackLimit) steps
          (.initial constructor.signature.locals.toNat
            (Array.replicate definition.fieldCount.toNat .nil) "") = .returned value? final ∧
        object = ⟨definition, entry, final.fields, final.output, stackLimit⟩ := by
  unfold create at created
  split at created
  · simp at created
  rename_i constructor entry found
  refine ⟨constructor, entry, found, ?_⟩
  simp only at created
  split at created
  · simp at created
  · simp at created
  rename_i value? final returned
  exact ⟨value?, final, returned, (Except.ok.inj (Option.some.inj created)).symm⟩

end Instance

/-- A type that can be written and whose methods are in order can be loaded where nothing is loaded yet. -/
theorem Registry.empty_define [ObjectFormat] [LawfulObjectFormat] {definition : TypeDefinition}
    {artifact : Artifact} {limit : Nat} (compact : definition.Compact)
    (distinct : (definition.methods.map fun method => method.signature.name).Nodup)
    (written : definition.write = .ok artifact)
    (verified : ∀ method ∈ definition.methods, Verification.verify definition method = .ok ())
    (coded : ∃ method ∈ definition.methods, ¬ method.code.isEmpty = true)
    (low : definition.methods.find? (exceeds limit) = none) :
    artifact.name = definition.name ∧
      empty.define limit artifact = .ok (definition, { types := [definition] }) := by
  have storable := TypeDefinition.storable_of_compact compact distinct
  obtain ⟨named, read⟩ := TypeDefinition.read_write storable written
  have loaded := @define_of_verified _ .empty limit _ _ rfl read named verified coded
  rw [low] at loaded
  exact ⟨named, loaded⟩

def loopingType : TypeDefinition :=
  { name := "Loop"
    fieldCount := 0
    constants := []
    methods :=
      [{ signature :=
           { name := TypeDefinition.constructorName, arity := 0, locals := 0, maxStack := 0
             returnsValue := false }
         code := (Instruction.encodeAll [.returnVoid]).toArray },
       { signature := { name := "run", arity := 0, locals := 1, maxStack := 1, returnsValue := true }
         code := (Instruction.encodeAll [.loadLocal 0, .storeLocal 0, .jump 0]).toArray }] }

theorem loopingType_loads :
    ∃ artifact later, Registry.empty.define 1024 artifact = .ok (loopingType, later) := by
  have compact : loopingType.Compact := ⟨by decide, by decide⟩
  have verified : ∀ method ∈ loopingType.methods,
      Verification.verify loopingType method = .ok () := by
    intro method member
    rcases List.mem_cons.mp member with rfl | last
    · decide +kernel
    · obtain rfl := List.mem_singleton.mp last
      decide +kernel
  have written : loopingType.write = .ok ⟨loopingType.name, _⟩ := rfl
  have coded : ∃ method ∈ loopingType.methods, ¬ method.code.isEmpty = true :=
    ⟨_, List.mem_cons_self, by decide⟩
  exact ⟨_, _, (Registry.empty_define compact (by decide) written verified coded rfl).2⟩

/-- Whatever artifact has been loaded, its constructor and its entry method run soundly for any number of
steps under the limits they were loaded with: no fault but those of the values, at an instruction at
every moment, and within the declared stack. An answer is the value that stands for none exactly when
the entry method is declared to return nothing. -/
theorem Registry.loaded_type_runs_soundly [ObjectFormat] {registry later : Registry} {limit : Nat}
    {artifact : Artifact} {definition : TypeDefinition}
    (loaded : registry.define limit artifact = .ok (definition, later)) (entryName : String) :
    (∀ constructor entry, Instance.methods definition entryName = .ok (constructor, entry) →
      ∀ steps, Machine.Sound constructor
        (Machine.run (Instance.program definition constructor limit) steps
          (.initial constructor.signature.locals.toNat
            (Array.replicate definition.fieldCount.toNat .nil) ""))) ∧
    ∀ object started, Instance.create definition entryName limit started = some (.ok object) →
      ∀ steps,
        Machine.Sound object.entry
          (Machine.run (Instance.program object.definition object.entry object.stackLimit) steps
            (.initial object.entry.signature.locals.toNat object.fields object.output)) ∧
        (∀ fault, object.invoke steps = some (.error fault) → fault.IsDynamic) ∧
        ∀ answer, object.invoke steps = some (.ok answer) →
          (answer.value = .nothing ↔ object.entry.signature.returnsValue = false) := by
  obtain ⟨_, _, passed⟩ := Registry.define_ok loaded
  have nils : ∀ value ∈ Array.replicate definition.fieldCount.toNat Value.nil, value ≠ .nothing := by
    intro value member
    rw [(Array.mem_replicate.mp member).2]
    simp
  refine ⟨?_, ?_⟩
  · intro constructor entry found steps
    obtain ⟨member, _, _⟩ := Instance.methods_ok found
    obtain ⟨verified, room⟩ := passed constructor member
    exact Machine.verified_run_sound verified room Array.size_replicate nils "" steps
  · intro object started created steps
    obtain ⟨constructor, entry, found, value?, final, returned, rfl⟩ := Instance.create_ok created
    obtain ⟨constructorMember, _, entryMember⟩ := Instance.methods_ok found
    obtain ⟨constructorVerified, constructorRoom⟩ := passed constructor constructorMember
    obtain ⟨entryVerified, entryRoom⟩ := passed entry entryMember
    obtain ⟨_, _, _, _, _, filled⟩ := Machine.verified_run_keeps constructorVerified
      constructorRoom Array.size_replicate nils "" started
    rw [returned] at filled
    obtain ⟨instructions, heights, bound, accepted, declared, kept⟩ :=
      Machine.verified_run_keeps entryVerified entryRoom (Machine.Returns.fields filled)
        (Machine.Returns.present filled).fields final.output steps
    refine ⟨kept.sound accepted declared, ?_, ?_⟩
    · intro fault failed
      unfold Instance.invoke at failed
      simp only at failed
      split at failed
      · simp at failed
      · rename_i found stopped outcome
        rw [outcome] at kept
        obtain rfl : found = fault := by simpa using failed
        exact kept.1
      · simp at failed
    · intro answer answered
      unfold Instance.invoke at answered
      simp only at answered
      split at answered
      · simp at answered
      · simp at answered
      · rename_i result? last outcome
        rw [outcome] at kept
        have real := Machine.Returns.real kept
        have declaredReturn := Machine.Returns.declared kept
        obtain rfl : _ = answer := by simpa using answered
        cases result? with
        | none => simpa using declaredReturn.symm
        | some value =>
            have value_real : value ≠ .nothing := fun same => real (congrArg some same)
            simpa [value_real] using declaredReturn.symm

theorem Registry.looping_type_runs_soundly :
    ∃ artifact later object, empty.define 1024 artifact = .ok (loopingType, later) ∧
      Instance.create loopingType "run" 1024 1 = some (.ok object) ∧
      ∀ steps, Machine.Sound object.entry
        (Machine.run (Instance.program object.definition object.entry object.stackLimit) steps
          (.initial object.entry.signature.locals.toNat object.fields object.output)) := by
  obtain ⟨artifact, later, loaded⟩ := loopingType_loads
  have created : Instance.create loopingType "run" 1024 1 = some (.ok _) := rfl
  refine ⟨artifact, later, _, loaded, created, fun steps => ?_⟩
  exact ((loaded_type_runs_soundly loaded "run").2 _ 1 created steps).1

end FragmentLisp
