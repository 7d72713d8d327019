import FragmentLisp.Proofs.Lisp.Embedding
import FragmentLisp.Proofs.Lisp.KnownKinds
import FragmentLisp.Proofs.Lisp.Outcome
import FragmentLisp.Proofs.Machine.Forward

/-!
Inferred kinds hold in every run of the code. An expression that has been run leaves a value of its kind, and
a fault of a wrong kind comes from an operand of which nothing was known.
-/

namespace FragmentLisp
namespace Lisp

open Machine (State Outcome SparesFields)
open Instruction (Holds Boundary Directed boundary_start boundary_right)
open Occurrence (inSequence Occurs)
open Resolution (Derived)

/-- An expression of the body, at any depth, where its code stands. -/
def Body.Has (fieldKinds : List Kind) (body : Body) (occurrence : Occurrence) : Prop :=
  ∃ child ∈ inSequence fieldKinds [] 0 body.statements, Occurs fieldKinds child occurrence

/-- Every expression of the body is at a place of the code, with the kind that resolution has found for
its node. -/
structure Annotated (nodes : List Node) (fieldKinds : List Kind) (body : Body) : Prop where
  statements : ∀ statement ∈ body.statements,
    ∃ occurrence, body.Has fieldKinds occurrence ∧ occurrence.expr = statement.value
  parts : ∀ occurrence, body.Has fieldKinds occurrence → ∀ part ∈ occurrence.expr.parts,
    ∃ child ∈ occurrence.children fieldKinds, body.Has fieldKinds child ∧ child.expr = part
  inferred : ∀ occurrence, body.Has fieldKinds occurrence →
    ∃ root ∈ nodes, ∃ node, root.Contains node ∧ ∃ scope after,
      Scope.Orderly fieldKinds occurrence.kinds scope ∧
        Resolution.resolve scope node =
          .ok (occurrence.expr, occurrence.kind fieldKinds, after)

/-- A run of a body's code that goes on from a state keeps to the kinds of the body. -/
structure KeepsKinds (fieldKinds : List Kind) (body : Body) (program : Machine.Program)
    (start : State) : Prop where
  /-- From the first byte of an expression to the byte behind it, its value comes onto the stack. -/
  finished : ∀ occurrence, body.Has fieldKinds occurrence →
    ∀ before first, Machine.run program before start = .unfinished first →
      first.offset = occurrence.base →
      ∀ more last, Machine.run program more first = .unfinished last →
        last.offset = occurrence.finish →
        ∃ value, last.stack.entries = value :: first.stack.entries ∧
          Covers (occurrence.kind fieldKinds) value
  localRead : ∀ occurrence, body.Has fieldKinds occurrence →
    ∀ slot, occurrence.expr = .localSlot slot →
      ∀ before first, Machine.run program before start = .unfinished first →
        first.offset = occurrence.base →
        ∃ value, first.locals[slot.toNat]? = some value ∧
          Covers (occurrence.kind fieldKinds) value
  fieldRead : ∀ occurrence, body.Has fieldKinds occurrence →
    ∀ index, occurrence.expr = .field index →
      ∀ before first, Machine.run program before start = .unfinished first →
        first.offset = occurrence.base →
        ∃ value, first.fields[index.toNat]? = some value ∧
          Covers (occurrence.kind fieldKinds) value
  returned : ∀ steps value? final, Machine.run program steps start = .returned value? final →
    CoversResult body.result? value?
  /-- The operand that is to blame has left a value of another kind than is wanted. -/
  blamed : ∀ steps fault stopped, Machine.run program steps start = .faulted fault stopped →
    fault.IsMismatch →
    ∃ parent operand value wanted, body.Has fieldKinds parent ∧
      parent.Owns fieldKinds stopped.offset ∧ parent.expr.demand? = some wanted ∧
      Code.Takes fieldKinds parent operand stopped value ∧ Kind.ofValue value ≠ wanted ∧
      operand.kind fieldKinds = .any
  certain : (∀ occurrence, body.Has fieldKinds occurrence → occurrence.JoinsAlike fieldKinds) →
    ∀ steps fault stopped, Machine.run program steps start = .faulted fault stopped →
      ¬ fault.IsMismatch

theorem Body.Has.child {fieldKinds : List Kind} {body : Body} {parent child : Occurrence}
    (has : body.Has fieldKinds parent) (member : child ∈ parent.children fieldKinds) :
    body.Has fieldKinds child := by
  obtain ⟨outer, outerMember, occurs⟩ := has
  exact ⟨outer, outerMember, .child occurs member⟩

theorem Body.has_statement (fieldKinds : List Kind) {body : Body} {statement : Statement}
    (member : statement ∈ body.statements) :
    ∃ occurrence, body.Has fieldKinds occurrence ∧ occurrence.expr = statement.value := by
  have value : statement.value ∈
      (inSequence fieldKinds [] 0 body.statements).map Occurrence.expr := by
    rw [Occurrence.inSequence_exprs]
    exact List.mem_map.mpr ⟨statement, member, rfl⟩
  obtain ⟨occurrence, inside, same⟩ := List.mem_map.mp value
  exact ⟨occurrence, ⟨occurrence, inside, .self⟩, same⟩

theorem Body.Has.part {fieldKinds : List Kind} {body : Body} {occurrence : Occurrence} {part : Expr}
    (has : body.Has fieldKinds occurrence) (member : part ∈ occurrence.expr.parts) :
    ∃ child ∈ occurrence.children fieldKinds, body.Has fieldKinds child ∧ child.expr = part := by
  rw [← Occurrence.children_exprs fieldKinds] at member
  obtain ⟨child, inside, same⟩ := List.mem_map.mp member
  exact ⟨child, inside, has.child inside, same⟩

section Annotations

variable {fields : List Field} {nodes : List Node} {body : Body}

theorem traced_of_has (derived : Derived fields nodes body) {occurrence : Occurrence}
    (has : body.Has (Resolution.fieldKinds fields) occurrence) :
    Resolution.Traced nodes (Resolution.fieldKinds fields) body.locals.toNat occurrence := by
  obtain ⟨child, member, occurs⟩ := has
  induction occurs with
  | self => exact derived.traced child member
  | child _ inside inductionHypothesis => exact inductionHypothesis.child inside

theorem annotated_of_derived (derived : Derived fields nodes body) :
    Annotated nodes (Resolution.fieldKinds fields) body := by
  refine ⟨fun _ => Body.has_statement _, fun _ has _ => has.part, ?_⟩
  intro occurrence has
  obtain ⟨root, rootMember, node, contains, _, scope, after, orderly, resolved, _⟩ :=
    traced_of_has derived has
  exact ⟨root, rootMember, node, contains, scope, after, orderly, resolved⟩

theorem any_notMem_fieldKinds (fields : List Field) :
    Kind.any ∉ Resolution.fieldKinds fields := by
  intro member
  obtain ⟨field, _, same⟩ := List.mem_map.mp member
  cases held : field.value <;> simp [held, Kind.ofValue] at same

theorem kind_ne_any_of_joinsAlike (derived : Derived fields nodes body)
    (alike : ∀ occurrence, body.Has (Resolution.fieldKinds fields) occurrence →
      occurrence.JoinsAlike (Resolution.fieldKinds fields)) {occurrence : Occurrence}
    (has : body.Has (Resolution.fieldKinds fields) occurrence) :
    occurrence.kind (Resolution.fieldKinds fields) ≠ .any := by
  have settled : ∀ child ∈ inSequence (Resolution.fieldKinds fields) [] 0 body.statements,
      Occurrence.Settled (Resolution.fieldKinds fields) body.locals.toNat child :=
    fun child member => (derived.traced child member).settled
  have inside : ∀ child ∈ inSequence (Resolution.fieldKinds fields) [] 0 body.statements,
      Kind.any ∉ child.kinds → ∀ inner, Occurs (Resolution.fieldKinds fields) child inner →
        inner.kind (Resolution.fieldKinds fields) ≠ .any := by
    intro child member
    apply known_of_joinsAlike (any_notMem_fieldKinds fields) child (settled child member)
    exact fun inner occurs => alike inner ⟨child, member, occurs⟩
  have known := (@known_inSequence (Resolution.fieldKinds fields) [] 0 body.statements
    (fun child member childKnown => inside child member childKnown child .self)
    List.not_mem_nil none nofun).1
  obtain ⟨child, member, occurs⟩ := has
  exact inside child member (known child member) occurrence occurs

end Annotations

namespace Code

/-! Runs of the entry method. -/

theorem directed_ending {exits : Nat → Prop} (body : Body) (base : Nat) :
    Directed SparesFields exits base (ending body) := by
  unfold ending
  split
  · exact Directed.plain nofun rfl
  · exact Directed.cons (Directed.plain nofun rfl) (Directed.plain nofun rfl)
  · exact Directed.plain nofun rfl

section Runs

variable {Fragment : Type} {unit : CompilationUnit Fragment} {nodes : List Node} {body : Body}
variable {definition : TypeDefinition} {constructor entry : Method}
variable {filling running : List Instruction} {limit : Nat} {fields : Array Value} {output : String}

variable (generated : Generated unit body definition constructor entry filling running)
variable (derived : Derived unit.fields nodes body)
variable (small : ∀ method ∈ definition.methods, method.code.size < 2 ^ 32)

include generated derived small

/-- A run of the entry method goes further with every step, and leaves the fields alone. -/
theorem Generated.goes_forward {steps : Nat} {state last : State}
    (boundary : Boundary 0 (running ++ ending body) state.offset)
    (reached : Machine.run (Instance.program definition entry limit) steps state =
      .unfinished last) :
    Boundary 0 (running ++ ending body) last.offset ∧
      state.offset + steps ≤ last.offset ∧ last.locals.size = state.locals.size ∧
      last.fields = state.fields := by
  have whole : (Instance.program definition entry limit).code.size =
      codeSize (running ++ ending body) := by
    change entry.code.size = _
    rw [generated.entry.code, Instruction.size_encodeAll]
  have spares : ∀ instruction, Ordinary body.locals.toNat unit.fields.length
      (Constants.ofBody unit.fields body).size instruction → SparesFields instruction := by
    rintro instruction ordinary index rfl
    exact ordinary
  have directed : Directed SparesFields (fun _ => False) 0 (running ++ ending body) :=
    Directed.append ((generated.running_directed derived small).relax spares)
      (directed_ending body _)
  exact Machine.run_forward generated.entry_held whole directed boundary reached

theorem Generated.comes_to
    (conforms : Conforms (Resolution.fieldKinds unit.fields) fields) {occurrence : Occurrence}
    (has : body.Has (Resolution.fieldKinds unit.fields) occurrence) {before : Nat} {first : State}
    (reached : Machine.run (Instance.program definition entry limit) before
      (.initial entry.signature.locals.toNat fields output) = .unfinished first)
    (here : first.offset = occurrence.base) :
    ∃ store, first = place fields occurrence.base first.stack.entries store ∧
      Conforms occurrence.kinds store.locals ∧ store.locals.size = body.locals.toNat ∧
      Boundary 0 (running ++ ending body) first.offset := by
  obtain ⟨boundary, _, locals, kept⟩ :=
    generated.goes_forward derived small (boundary_start 0 _) reached
  have start : State.initial entry.signature.locals.toNat fields output =
      place fields 0 [] { locals := Array.replicate body.locals.toNat .nil, output } := by
    rw [generated.entry.locals]
    rfl
  rw [start] at reached
  have inside : InBody (Resolution.fieldKinds unit.fields) body.statements first := by
    have follows := @Generated.follows _ _ _ _ _ _ _ _ _ limit generated derived small _ conforms
      { locals := Array.replicate body.locals.toNat .nil, output } Array.size_replicate
    rcases follows.visited reached with now | ⟨result, passed, behind, _, _, later⟩
    · exact now
    · -- Behind the body no expression begins.
      have ended : Boundary 0 (running ++ ending body) (widthSteps body.statements) := by
        apply boundary_right
        rw [generated.running_size, Nat.zero_add]
        exact boundary_start _ _
      have further := (generated.goes_forward derived small ended later).2.1
      obtain ⟨child, member, occurs⟩ := has
      have bounds := occurs.within
      have finish := (Occurrence.mem_inSequence member).2.2.2
      have positive := occurrence.base_lt_finish
      simp only [place] at further
      omega
  obtain ⟨child, member, occurs⟩ := has
  have known := inside child member occurrence occurs here.symm
  have sized : first.locals.size = body.locals.toNat := by
    rw [locals, start]
    exact Array.size_replicate
  refine ⟨{ locals := first.locals, output := first.output }, ?_, known, sized, boundary⟩
  rw [place, ← here, ← OperandStack.eq_ofEntries]
  obtain ⟨offset, stack, slots, held, printed⟩ := first
  rw [show held = fields from kept]

theorem Generated.finishes
    (conforms : Conforms (Resolution.fieldKinds unit.fields) fields) {occurrence : Occurrence}
    (has : body.Has (Resolution.fieldKinds unit.fields) occurrence) {before : Nat} {first : State}
    (reached : Machine.run (Instance.program definition entry limit) before
      (.initial entry.signature.locals.toNat fields output) = .unfinished first)
    (here : first.offset = occurrence.base) {more : Nat} {last : State}
    (onward : Machine.run (Instance.program definition entry limit) more first = .unfinished last)
    (there : last.offset = occurrence.finish) :
    ∃ value, last.stack.entries = value :: first.stack.entries ∧
      Covers (occurrence.kind (Resolution.fieldKinds unit.fields)) value := by
  obtain ⟨store, placed, known, sized, boundary⟩ :=
    generated.comes_to derived small conforms has reached here
  have settled := (traced_of_has derived has).settled
  obtain ⟨child, member, occurs⟩ := has
  have constants : (Instance.program definition entry limit).constants =
      Constants.ofBody unit.fields body := generated.program_constants entry
  have embedded := (embedded_sequence [] generated.runs (Holds.append_iff.mp
    (@Generated.entry_held _ _ _ _ _ _ _ _ limit generated)).1 child member).occurs occurs
  rw [← constants] at embedded
  obtain ⟨own, made, held⟩ := embedded
  have constantsSmall := generated.constantsSmall small
  rw [← constants] at constantsSmall
  have pooled : Pooled (Resolution.fieldKinds unit.fields)
      (Instance.program definition entry limit).constants occurrence := by
    rw [constants]
    intro inner deeper
    exact Constants.pooled_ofBody unit.fields member inner (occurs.trans deeper)
  have reach : occurrence.finish < 2 ^ 32 := by
    have whole := generated.runningSmall small
    have bounds := occurs.within
    have finish := (Occurrence.mem_inSequence member).2.2.2
    omega
  have delivered := delivers conforms constantsSmall occurrence settled pooled reach made held
    first.stack.entries store known sized
  rw [← placed] at delivered
  rcases delivered.visited onward with now | ⟨⟨value, after⟩, passed, behind, evaluated, arrived, later⟩
  · exact absurd now.below (Nat.not_lt.mpr (Nat.le_of_eq there.symm))
  · obtain ⟨finished, _⟩ := generated.goes_forward derived small boundary arrived
    have further := (generated.goes_forward derived small finished later).2.1
    simp only [place] at further
    obtain rfl : behind = 0 := by omega
    obtain rfl := Outcome.unfinished.inj later
    exact ⟨value, rfl, (respectsKinds conforms occurrence settled store known sized value after
      evaluated).1⟩

theorem Generated.comes_out
    (conforms : Conforms (Resolution.fieldKinds unit.fields) fields) {steps : Nat} {outcome : Outcome}
    (ran : Machine.run (Instance.program definition entry limit) steps
      (.initial entry.signature.locals.toNat fields output) = outcome)
    (finished : ∀ state, outcome ≠ .unfinished state) :
    (∃ stopped, outcome = .faulted (.stackOverflow limit) stopped) ∨
      (∃ value? final, outcome = .returned value? final ∧ CoversResult body.result? value?) ∨
      ∃ fault stopped, outcome = .faulted fault stopped ∧
        BlamedInBody (Resolution.fieldKinds unit.fields) body.statements stopped fault := by
  have start : State.initial entry.signature.locals.toNat fields output =
      place fields 0 [] { locals := Array.replicate body.locals.toNat .nil, output } := by
    rw [generated.entry.locals]
    rfl
  rw [start] at ran
  obtain ⟨last, passes, ended, blamed⟩ :=
    @Generated.concludes _ _ _ _ _ _ _ _ _ limit generated derived small _ conforms
      { locals := Array.replicate body.locals.toNat .nil, output } Array.size_replicate
  have respects : ∀ child ∈ inSequence (Resolution.fieldKinds unit.fields) [] 0 body.statements,
      RespectsKinds (Resolution.fieldKinds unit.fields) body.locals.toNat fields child :=
    fun child member => respectsKinds conforms child (derived.traced child member).settled
  have numbered : Numbered body.locals.toNat ([] : List Kind).length body.statements :=
    derived.numbered
  cases evaluated : evaluateStatements fields (some .nil)
      { locals := Array.replicate body.locals.toNat .nil, output } body.statements with
  | ok result =>
      rw [evaluated] at ended
      obtain ⟨final, once, _⟩ := ended
      have covers := (evaluateStatements_respects respects numbered
        (show CoversResult (some .nil) (some .nil) from Or.inr rfl) (conforms_nil _)
        Array.size_replicate evaluated).1
      rw [← derived.result] at covers
      rcases passes.ended once nofun ran finished with overflow | same
      · exact Or.inl overflow
      · exact Or.inr (Or.inl ⟨result.1, final, same, covers⟩)
  | error fault =>
      rw [evaluated] at ended
      rcases passes.ended ended nofun ran finished with overflow | same
      · exact Or.inl overflow
      · exact Or.inr (Or.inr ⟨fault, last, same, blamed fault evaluated⟩)

theorem Generated.keepsKinds (conforms : Conforms (Resolution.fieldKinds unit.fields) fields) :
    KeepsKinds (Resolution.fieldKinds unit.fields) body (Instance.program definition entry limit)
      (.initial entry.signature.locals.toNat fields output) := by
  have mismatched : ∀ steps fault stopped,
      Machine.run (Instance.program definition entry limit) steps
          (.initial entry.signature.locals.toNat fields output) = .faulted fault stopped →
        fault.IsMismatch →
        ∃ parent operand value wanted, body.Has (Resolution.fieldKinds unit.fields) parent ∧
          parent.Owns (Resolution.fieldKinds unit.fields) stopped.offset ∧
          parent.expr.demand? = some wanted ∧
          Takes (Resolution.fieldKinds unit.fields) parent operand stopped value ∧
          Kind.ofValue value ≠ wanted ∧
          operand.kind (Resolution.fieldKinds unit.fields) = .any := by
    intro steps fault stopped ran mismatch
    rcases generated.comes_out derived small conforms ran nofun with ⟨_, same⟩ | ⟨_, _, same, _⟩ |
      ⟨_, _, same, child, member, blamed⟩
    · obtain ⟨rfl, _⟩ := Outcome.faulted.inj same
      exact mismatch.elim
    · simp at same
    · obtain ⟨rfl, rfl⟩ := Outcome.faulted.inj same
      obtain ⟨parent, operand, value, wanted, occurs, rest⟩ := blamed mismatch
      exact ⟨parent, operand, value, wanted, ⟨child, member, occurs⟩, rest⟩
  refine ⟨?_, ?_, ?_, ?_, mismatched, ?_⟩
  · intro occurrence has before first reached here more last onward there
    exact generated.finishes derived small conforms has reached here onward there
  · intro occurrence has slot isSlot before first reached here
    obtain ⟨store, placed, known, _, _⟩ := generated.comes_to derived small conforms has reached here
    have inside := (traced_of_has derived has).fine.localSlot slot isSlot
    obtain ⟨value, found, covers⟩ := known _ _ (List.getElem?_eq_getElem inside)
    refine ⟨value, by rw [placed]; exact found, ?_⟩
    rw [Occurrence.kind, isSlot, Expr.kind, List.getElem?_eq_getElem inside]
    exact covers
  · intro occurrence has index isField before first reached here
    obtain ⟨store, placed, _⟩ := generated.comes_to derived small conforms has reached here
    have inside := (traced_of_has derived has).fine.field index isField
    obtain ⟨value, found, covers⟩ := conforms _ _ (List.getElem?_eq_getElem inside)
    refine ⟨value, by rw [placed]; exact found, ?_⟩
    rw [Occurrence.kind, isField, Expr.kind, List.getElem?_eq_getElem inside]
    exact covers
  · intro steps value? final ran
    have ended : ∀ state, Outcome.returned value? final ≠ .unfinished state := by
      rintro state ⟨⟩
    rcases generated.comes_out derived small conforms ran ended with ⟨_, same⟩ | ⟨_, _, same, covers⟩ |
      ⟨_, _, same, _⟩
    · simp at same
    · obtain ⟨rfl, rfl⟩ := Outcome.returned.inj same
      exact covers
    · simp at same
  · intro alike steps fault stopped ran mismatch
    obtain ⟨parent, operand, value, wanted, has, _, _, takes, _, unknown⟩ :=
      mismatched steps fault stopped ran mismatch
    exact kind_ne_any_of_joinsAlike derived alike (has.child takes.mem) unknown

end Runs

end Code

/-- Inferred kinds are sound. Whatever limit the operand stack has, the constructor of a generated type
leaves fields with which every run of the entry method keeps to the kinds that resolution has found. -/
theorem inferred_kinds_hold {Fragment : Type} {unit : CompilationUnit Fragment} {nodes : List Node}
    {body : Body} {definition : TypeDefinition} (checked : Grammar.check nodes = .ok ())
    (resolved : Resolution.resolveFragment unit.fields nodes = .ok body)
    (typed : Code.typeDefinition unit body = .ok definition)
    (small : ∀ method ∈ definition.methods, method.code.size < 2 ^ 32) :
    Annotated nodes (Resolution.fieldKinds unit.fields) body ∧
      ∃ constructor entry, definition.methods = [constructor, entry] ∧
        ∀ limit steps value? built,
          Machine.run (Instance.program definition constructor limit) steps
              (.initial constructor.signature.locals.toNat
                (Array.replicate definition.fieldCount.toNat .nil) "") = .returned value? built →
            KeepsKinds (Resolution.fieldKinds unit.fields) body
              (Instance.program definition entry limit)
              (.initial entry.signature.locals.toNat built.fields built.output) := by
  have derived := Resolution.derived_of_ok checked resolved
  obtain ⟨constructor, entry, filling, running, generated⟩ := Code.generated_of_ok typed
  refine ⟨annotated_of_derived derived, constructor, entry, generated.methods, ?_⟩
  intro limit steps value? built ran
  obtain ⟨last, final, passes, once, fields, _⟩ :=
    @Code.Generated.fills_fields _ _ _ _ _ _ _ _ limit generated small
  rcases passes.ended once nofun ran nofun with ⟨_, overflow⟩ | same
  · simp at overflow
  · obtain ⟨rfl, rfl⟩ := Outcome.returned.inj same
    rw [fields]
    exact generated.keepsKinds derived small (Code.conforms_fields unit.fields)

theorem sum_keeps_its_kinds :
    ∃ constructor entry built, sumType.methods = [constructor, entry] ∧
      Annotated sumFragment [.number] sumBody ∧
      Machine.run (Instance.program sumType constructor 1024) 3 (.initial 0 #[.nil] "") =
        .returned none built ∧
      KeepsKinds [.number] sumBody (Instance.program sumType entry 1024)
        (.initial 0 built.fields built.output) := by
  have checked : Grammar.check sumFragment = .ok () := by decide
  have small : ∀ method ∈ sumType.methods, method.code.size < 2 ^ 32 := by decide
  obtain ⟨annotated, constructor, entry, methods, keeps⟩ :=
    inferred_kinds_hold checked sum_resolves sum_types small
  have listed : sumType.methods = [sumType.methods[0], sumType.methods[1]] := rfl
  obtain ⟨rfl, rest⟩ := List.cons.inj (methods.symm.trans listed)
  obtain ⟨rfl, _⟩ := List.cons.inj rest
  have ran : Machine.run (Instance.program sumType sumType.methods[0] 1024) 3
      (.initial 0 #[.nil] "") =
        .returned none ⟨13, .empty, #[], #[.integer 41], ""⟩ := by
    rfl
  exact ⟨_, _, _, listed, annotated, ran, keeps 1024 3 none _ ran⟩

end Lisp
end FragmentLisp
