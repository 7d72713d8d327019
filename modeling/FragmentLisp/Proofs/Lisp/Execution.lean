import FragmentLisp.Proofs.Instance
import FragmentLisp.Proofs.Lisp.Generation
import FragmentLisp.Proofs.Lisp.Simulation

/-!
What the two methods of a generated type do. The constructor leaves the host's values in the fields. The
entry method does what the evaluation of the body says and ends as the last statement asks.
-/

namespace FragmentLisp
namespace Lisp
namespace Code

open Machine (Program State Outcome Passes Follows)
open Instruction (Holds)
open Resolution (Derived fieldKinds)
open Occurrence (inSequence Occurs)

/-! The constructor. -/

def filled (offset : Nat) (values : List Value) : State :=
  { offset
    stack := .ofEntries []
    locals := #[]
    fields := values.toArray
    output := "" }

theorem perform_pushField {constants : Constants} {program : Program} {field : Field}
    {push : Instruction} (pushed : pushField constants field = .ok push)
    (known : ∀ text, field.value = .string text →
      program.constants[(constants.number text).toNat]? = some text) (state : State) :
    Machine.perform program state push =
      Machine.leave program state (state.offset + push.size) state.stack field.value := by
  unfold pushField at pushed
  split at pushed
  · rename_i value same
    obtain rfl := Except.ok.inj pushed
    rw [same]
    rfl
  · rename_i value same
    obtain rfl := Except.ok.inj pushed
    rw [same]
    rfl
  · rename_i text same
    obtain rfl := Except.ok.inj pushed
    rw [same]
    simp only [Machine.perform, known text same]
  · rename_i same
    obtain rfl := Except.ok.inj pushed
    rw [same]
    rfl
  · simp at pushed

theorem passes_fill {program : Program} {base : Nat} {value : Value} {index : UInt16}
    {push : Instruction} {code : List Instruction} {before behind : List Value}
    (held : Holds program.code base (push :: .storeField index :: code))
    (pushes : ∀ state, Machine.perform program state push =
      Machine.leave program state (state.offset + push.size) state.stack value)
    (place : index.toNat = before.length) :
    Passes program (fun _ => True) (filled base (before ++ .nil :: behind))
      (filled (base + push.size + 3) (before ++ value :: behind)) := by
  obtain ⟨heldPush, heldRest⟩ := Holds.cons_iff.mp held
  obtain ⟨heldStore, _⟩ := Holds.cons_iff.mp heldRest
  have pushed := @Passes.leave program (fun _ => True) (filled base (before ++ .nil :: behind)) push
    [] value heldPush trivial (pushes _)
  refine pushed.trans (Passes.perform heldStore trivial ?_)
  have inside : index.toNat < (before ++ Value.nil :: behind).toArray.size := by
    rw [List.size_toArray, List.length_append, List.length_cons]
    omega
  have stored : (before ++ Value.nil :: behind).toArray.setIfInBounds index.toNat value =
      (before ++ value :: behind).toArray := by
    rw [List.setIfInBounds_toArray, place, List.set_append_right _ _ (Nat.le_refl _), Nat.sub_self]
    rfl
  refine (if_pos inside).trans ?_
  unfold filled
  rw [← stored]
  rfl

theorem passes_fills {constants : Constants} {program : Program} {base index : Nat}
    {fields : List Field} {code : List Instruction} (fills : Fills constants index fields code)
    (held : Holds program.code base code)
    (known : ∀ field ∈ fields, ∀ text, field.value = .string text →
      program.constants[(constants.number text).toNat]? = some text)
    {before : List Value} (counted : before.length = index)
    (few : index + fields.length ≤ 65535) :
    ∃ finish, Passes program (fun _ => True)
        (filled base (before ++ List.replicate fields.length .nil))
        (filled finish (before ++ fields.map Field.value)) ∧
      Holds program.code finish [.returnVoid] := by
  induction fills generalizing base before with
  | nil index => exact ⟨base, .done _, held⟩
  | @cons index field rest push code head tail inductionHypothesis =>
      rw [List.length_cons] at few
      have word : (UInt16.ofNat index).toNat = before.length := by
        rw [counted]
        apply UInt16.toNat_ofNat_of_lt'
        unfold UInt16.size
        omega
      have first := @passes_fill program base field.value _ push code before
        (List.replicate rest.length .nil) held
        (perform_pushField head (known field List.mem_cons_self)) word
      have heldRest := (Holds.cons_iff.mp (Holds.cons_iff.mp held).2).2
      have countedNext : (before ++ [field.value]).length = index + 1 := by
        rw [List.length_append, counted]
        rfl
      obtain ⟨finish, others, ended⟩ := inductionHypothesis heldRest
        (fun other inRest => known other (List.mem_cons_of_mem _ inRest)) countedNext (by omega)
      refine ⟨finish, ?_, ended⟩
      simp only [List.append_assoc, List.singleton_append] at others
      rw [List.length_cons, List.replicate_succ, List.map_cons]
      exact first.trans others

/-! The entry method. -/

/-- Wherever the run comes to an expression of the statements, the slots in use have their kinds. -/
def InBody (fieldKinds : List Kind) (statements : List Statement) (state : State) : Prop :=
  ∀ child ∈ inSequence fieldKinds [] 0 statements, ∀ inner, Occurs fieldKinds child inner →
    inner.base = state.offset → Conforms inner.kinds state.locals

/-- A fault of a wrong kind is blamed on an operand in one of the statements. -/
def BlamedInBody (fieldKinds : List Kind) (statements : List Statement) (state : State)
    (fault : Fault) : Prop :=
  ∃ child ∈ inSequence fieldKinds [] 0 statements, Blamed fieldKinds child state fault

theorem inBody_of_within {fieldKinds : List Kind} {statements : List Statement} {child : Occurrence}
    (member : child ∈ inSequence fieldKinds [] 0 statements) {state : State}
    (within : Within fieldKinds child state) : InBody fieldKinds statements state := by
  intro other otherMember inner occurs start
  have bounds := occurs.within
  have positive := inner.base_lt_finish
  have above := within.above
  have below := within.below
  rcases Occurrence.eq_or_apart (Occurrence.inSequence_apart fieldKinds [] 0 statements) member
    otherMember with rfl | before | behind
  · exact within.conforms inner occurs start
  · omega
  · omega

theorem inBody_behind {fieldKinds : List Kind} {statements : List Statement} {child : Occurrence}
    (member : child ∈ inSequence fieldKinds [] 0 statements) {state : State}
    (here : state.offset = child.finish) : InBody fieldKinds statements state := by
  intro other otherMember inner occurs start
  have bounds := occurs.within
  have positive := inner.base_lt_finish
  rcases Occurrence.free_behind (Occurrence.inSequence_apart fieldKinds [] 0 statements) member
    otherMember (Nat.le_of_eq here.symm) (Nat.lt_succ_of_le (Nat.le_of_eq here)) with behind | before
  · omega
  · omega

theorem inBody_end {fieldKinds : List Kind} {statements : List Statement} {state : State}
    (behind : widthSteps statements ≤ state.offset) : InBody fieldKinds statements state := by
  intro child member inner occurs start
  have bounds := occurs.within
  have positive := inner.base_lt_finish
  have finish := (Occurrence.mem_inSequence member).2.2.2
  omega

theorem conforms_fields (fields : List Field) :
    Conforms (fieldKinds fields) (fields.map Field.value).toArray := by
  intro index kind known
  rw [fieldKinds, List.getElem?_map] at known
  obtain ⟨field, found, rfl⟩ := Option.map_eq_some_iff.mp known
  refine ⟨field.value, ?_, Or.inr rfl⟩
  rw [List.getElem?_toArray, List.getElem?_map, found]
  rfl

/-- How an entry method ends: with the value of the body, and with what has been printed. -/
def EndsWith (program : Program) (last : State) : Except Fault (Option Value × Store) → Prop
  | .ok (value?, after) =>
      ∃ final, Machine.run program 1 last = .returned value? final ∧ final.output = after.output
  | .error fault => Machine.run program 1 last = .faulted fault last

theorem evaluateStatements_cons (fields : Array Value) (last? other? : Option Value) (store : Store)
    (statement : Statement) (rest : List Statement) :
    evaluateStatements fields last? store (statement :: rest) =
      evaluateStatements fields other? store (statement :: rest) := by
  cases statement <;> rfl

theorem run_return {program : Program} {fields : Array Value} {offset : Nat} {value : Value}
    {entries : List Value} {store : Store} (held : Holds program.code offset [.return]) :
    ∃ final, Machine.run program 1 (place fields offset (value :: entries) store) =
      .returned (some value) final ∧ final.output = store.output := by
  have once := @Machine.step_eq_perform program (place fields offset (value :: entries) store) _
    (Holds.cons_iff.mp held).1
  rw [Machine.run, once]
  exact ⟨_, rfl, rfl⟩

theorem run_returnVoid {program : Program} {state : State}
    (held : Holds program.code state.offset [.returnVoid]) :
    ∃ final, Machine.run program 1 state = .returned none final ∧
      final.fields = state.fields ∧ final.output = state.output := by
  have once := Machine.step_eq_perform (Holds.cons_iff.mp held).1
  rw [Machine.run, once]
  exact ⟨_, rfl, rfl, rfl⟩

section Types

variable {Fragment : Type} {unit : CompilationUnit Fragment} {nodes : List Node} {body : Body}
variable {definition : TypeDefinition} {constructor entry : Method}
variable {filling running : List Instruction} {limit : Nat}

theorem Generated.program_constants (made : Method)
    (generated : Generated unit body definition constructor entry filling running) :
    (Instance.program definition made limit).constants = Constants.ofBody unit.fields body := by
  simp [Instance.program, generated.constants]

theorem Generated.fills_fields
    (generated : Generated unit body definition constructor entry filling running)
    (small : ∀ method ∈ definition.methods, method.code.size < 2 ^ 32) :
    ∃ last final,
      Passes (Instance.program definition constructor limit) (fun _ => True)
        (.initial constructor.signature.locals.toNat
          (Array.replicate definition.fieldCount.toNat .nil) "") last ∧
      Machine.run (Instance.program definition constructor limit) 1 last = .returned none final ∧
      final.fields = (unit.fields.map Field.value).toArray ∧ final.output = "" := by
  have start : State.initial constructor.signature.locals.toNat
      (Array.replicate definition.fieldCount.toNat .nil) "" =
        filled 0 ([] ++ List.replicate unit.fields.length .nil) := by
    rw [generated.constructor.locals, generated.fieldCount]
    simp [State.initial, filled, OperandStack.empty_eq_ofEntries]
  have held : Holds (Instance.program definition constructor limit).code 0 filling := by
    change Holds constructor.code 0 filling
    rw [generated.constructor.code]
    exact Instruction.holds_encodeAll filling
  have known : ∀ field ∈ unit.fields, ∀ text, field.value = .string text →
      (Instance.program definition constructor limit).constants[
        ((Constants.ofBody unit.fields body).number text).toNat]? = some text := by
    intro field member text value
    rw [generated.program_constants]
    exact constant_at_number (Constants.field_mem_ofBody member value body)
      (generated.constantsSmall small)
  have few : 0 + unit.fields.length ≤ 65535 := by
    rw [Nat.zero_add]
    exact generated.few
  obtain ⟨finish, passes, ended⟩ := @passes_fills _ _ 0 0 _ _ generated.fills held known [] rfl few
  rw [start]
  obtain ⟨final, once, fields, output⟩ := @run_returnVoid _ (filled finish _) ended
  exact ⟨_, final, passes, once, fields, output⟩

theorem Generated.entry_held
    (generated : Generated unit body definition constructor entry filling running) :
    Holds (Instance.program definition entry limit).code 0 (running ++ ending body) := by
  change Holds entry.code 0 _
  rw [generated.entry.code]
  exact Instruction.holds_encodeAll _

theorem Generated.follows
    (generated : Generated unit body definition constructor entry filling running)
    (derived : Derived unit.fields nodes body)
    (small : ∀ method ∈ definition.methods, method.code.size < 2 ^ 32)
    {fields : Array Value} (conforms : Conforms (fieldKinds unit.fields) fields) {store : Store}
    (sized : store.locals.size = body.locals.toNat) :
    Follows (Instance.program definition entry limit)
      (InBody (fieldKinds unit.fields) body.statements)
      (BlamedInBody (fieldKinds unit.fields) body.statements) (place fields 0 [] store)
      (evaluateStatements fields none store body.statements)
      fun answer => place fields (widthSteps body.statements) answer.1.toList answer.2 := by
  have constants : (Instance.program definition entry limit).constants =
      Constants.ofBody unit.fields body := generated.program_constants entry
  have constantsSmall := generated.constantsSmall small
  have reach := generated.runningSmall small
  have numbered : Numbered body.locals.toNat ([] : List Kind).length body.statements :=
    derived.numbered
  have each : ChildrenDeliver (Constants.ofBody unit.fields body) (fieldKinds unit.fields)
      (Instance.program definition entry limit) fields body.locals.toNat
      (InBody (fieldKinds unit.fields) body.statements)
      (BlamedInBody (fieldKinds unit.fields) body.statements)
      (inSequence (fieldKinds unit.fields) [] 0 body.statements) := by
    intro child member
    have settled := (derived.traced child member).settled
    have finish := (Occurrence.mem_inSequence member).2.2.2
    refine ⟨respectsKinds conforms child settled, ?_⟩
    intro code made heldCode entries store conformsStore sized
    rw [← constants] at made constantsSmall
    have pooled := Constants.pooled_ofBody unit.fields member
    rw [← constants] at pooled
    have own := delivers conforms constantsSmall child settled pooled (by omega) made heldCode
      entries store conformsStore sized
    exact own.widen (fun _ => inBody_of_within member) (fun _ _ blamed => ⟨child, member, blamed⟩)
  have follows := follows_statements generated.runs (Holds.append_iff.mp generated.entry_held).1 numbered each
    (fun child member state here _ => inBody_behind member here) (fun _ => rfl) [] (conforms_nil _) sized
  simpa using follows

/-- What stands behind the code of the body: the end of the method, where the value of the body lies on
the stack. -/
theorem Generated.ends
    (generated : Generated unit body definition constructor entry filling running)
    (derived : Derived unit.fields nodes body) {fields : Array Value}
    (conforms : Conforms (fieldKinds unit.fields) fields) {store after : Store} {value? : Option Value}
    (sized : store.locals.size = body.locals.toNat)
    (evaluated : evaluateStatements fields none store body.statements = .ok (value?, after)) :
    ∃ last result?, evaluateStatements fields (some .nil) store body.statements =
        .ok (result?, after) ∧
      Passes (Instance.program definition entry limit)
        (InBody (fieldKinds unit.fields) body.statements)
        (place fields (widthSteps body.statements) value?.toList after) last ∧
      EndsWith (Instance.program definition entry limit) last (.ok (result?, after)) := by
  have heldEnding : Holds (Instance.program definition entry limit).code
      (widthSteps body.statements) (ending body) := by
    have behind := (Holds.append_iff.mp (@Generated.entry_held _ _ _ _ _ _ _ _ limit generated)).2
    rwa [generated.running_size, Nat.zero_add] at behind
  rw [ending_of_derived derived] at heldEnding
  cases shape : body.statements with
  | nil =>
      rw [shape] at evaluated heldEnding
      obtain ⟨rfl, rfl⟩ := Prod.mk.inj (Except.ok.inj evaluated)
      obtain ⟨heldNil, heldReturn⟩ := Holds.cons_iff.mp heldEnding
      have pushed := @passes_value (Instance.program definition entry limit)
        (InBody (fieldKinds unit.fields) []) fields 0 [] [] store .pushNil [.return] .nil heldEnding
        (inBody_end (Nat.zero_le _)) rfl
      exact ⟨_, some .nil, rfl, pushed, run_return heldReturn⟩
  | cons first rest =>
      have numbered : Numbered body.locals.toNat ([] : List Kind).length body.statements :=
        derived.numbered
      have respects : ∀ child ∈ inSequence (fieldKinds unit.fields) [] 0 body.statements,
          RespectsKinds (fieldKinds unit.fields) body.locals.toNat fields child :=
        fun child member => respectsKinds conforms child (derived.traced child member).settled
      obtain ⟨covers, _⟩ := evaluateStatements_respects respects numbered
        (show CoversResult none none from trivial) (conforms_nil _) sized evaluated
      have given := covers.isSome
      rw [resultKind?_isSome] at given
      rw [shape] at evaluated given heldEnding
      refine ⟨_, value?, ?_, .done _, ?_⟩
      · rw [← evaluated]
        exact evaluateStatements_cons _ _ _ _ _ _
      · unfold endsWithValue at given
        cases last : (first :: rest).getLast? with
        | none => simp at last
        | some statement =>
            rw [last] at heldEnding given
            cases statement with
            | definition slot value =>
                obtain rfl : value? = none := by simpa using given
                obtain ⟨final, once, _, output⟩ := @run_returnVoid _
                  (place fields (widthSteps (first :: rest)) [] after) heldEnding
                exact ⟨final, once, output⟩
            | expression value =>
                obtain ⟨result, rfl⟩ := Option.isSome_iff_exists.mp given
                exact run_return heldEnding

/-- The entry method comes to an end, with what the evaluation of the body gives. -/
theorem Generated.concludes
    (generated : Generated unit body definition constructor entry filling running)
    (derived : Derived unit.fields nodes body)
    (small : ∀ method ∈ definition.methods, method.code.size < 2 ^ 32)
    {fields : Array Value} (conforms : Conforms (fieldKinds unit.fields) fields) {store : Store}
    (sized : store.locals.size = body.locals.toNat) :
    ∃ last, Passes (Instance.program definition entry limit)
        (InBody (fieldKinds unit.fields) body.statements) (place fields 0 [] store) last ∧
      EndsWith (Instance.program definition entry limit) last
        (evaluateStatements fields (some .nil) store body.statements) ∧
      ∀ fault, evaluateStatements fields (some .nil) store body.statements = .error fault →
        BlamedInBody (fieldKinds unit.fields) body.statements last fault := by
  have follows := @Generated.follows _ _ _ _ _ _ _ _ _ limit generated derived small _ conforms _
    sized
  cases evaluated : evaluateStatements fields none store body.statements with
  | ok result =>
      obtain ⟨value?, after⟩ := result
      rw [evaluated] at follows
      obtain ⟨last, result?, given, onward, ended⟩ :=
        @Generated.ends _ _ _ _ _ _ _ _ _ limit generated derived _ conforms _ _ _ sized evaluated
      rw [given]
      exact ⟨last, Passes.trans follows onward, ended, nofun⟩
  | error fault =>
      rw [evaluated] at follows
      obtain ⟨last, passes, _, stopped, blamed⟩ := follows
      have given : evaluateStatements fields (some .nil) store body.statements = .error fault := by
        rw [← evaluated]
        cases shape : body.statements with
        | nil =>
            rw [shape] at evaluated
            simp [evaluateStatements] at evaluated
        | cons first rest => exact evaluateStatements_cons _ _ _ _ _ _
      rw [given]
      refine ⟨last, passes, ?_, ?_⟩
      · change Machine.run _ 1 last = _
        rw [Machine.run, stopped]
      · intro other same
        obtain rfl := Except.error.inj same
        exact blamed

end Types

end Code
end Lisp
end FragmentLisp
