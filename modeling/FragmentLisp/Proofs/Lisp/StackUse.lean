import FragmentLisp.Proofs.Lisp.KindSoundness
import FragmentLisp.Proofs.Lisp.StackAscent
import FragmentLisp.Proofs.StackDepth.Paths

/-!
The stack that methods declare is the one that the form of the body tells. The stack analysis of the bytes
and the recursion over the expressions come to the same number, and every expression in between leaves one
entry and touches none that it has found, on every path through its code.
-/

namespace FragmentLisp
namespace Lisp

open Instruction (Boundary Carries Directed Holds boundary_start boundary_within)
open Resolution (fieldKinds)
open StackDepth (Crosses Lifts Reaches goesOn_iff heightAfter)

namespace Code

/-! Stretches. -/

section Stretches

variable {code : Array UInt8} {base start offset height : Nat} {own : List Instruction}

/-- A path through a balanced run keeps to the levels of the run, raised by what the stack held before. -/
theorem boundary_of_crosses {level : Nat → Nat} (held : Holds code base own) (empty : level base = 0)
    (levels : Instruction.Levels (fun _ _ => False) base own level)
    (crosses : Crosses code base (base + codeSize own) start offset height) :
    Boundary base own offset ∧ height = start + level offset := by
  induction crosses with
  | enter => exact ⟨boundary_start base own, by rw [empty, Nat.add_zero]⟩
  | step crossed inside decoded enough goesOn inductionHypothesis =>
      obtain ⟨boundary, rfl⟩ := inductionHypothesis
      obtain ⟨instruction, member⟩ := boundary.resolve_right (Nat.ne_of_lt inside.2)
      obtain rfl := Except.ok.inj ((held _ member).2.symm.trans decoded)
      obtain ⟨available, onward⟩ := levels _ member
      obtain ⟨reached, same⟩ := (onward _ (goesOn_iff.mp goesOn)).resolve_right id
      refine ⟨reached, ?_⟩
      simp only [heightAfter] at available same ⊢
      omega

theorem carries_crosses (held : Holds code base own) (start : Nat) :
    Carries (Crosses code base (base + codeSize own) start) base own := by
  intro entry member height crossed enough next successor
  have within := Instruction.placed_within member
  have positive := entry.2.size_positive
  exact crossed.step ⟨within.1, by omega⟩ (held entry member).2 enough (goesOn_iff.mpr successor)

theorem carries_reaches (held : Holds code base own) : Carries (Reaches code) base own :=
  fun entry member _ reached enough _ successor =>
    reached.step (held entry member).2 enough (goesOn_iff.mpr successor)

def Continues (instruction : Instruction) : Prop :=
  instruction.fallsThrough = true ∨ ∃ target, instruction.jumpTarget? = some target

theorem continues_of_free {instruction : Instruction} (free : Free instruction) :
    Continues instruction := by
  cases instruction with
  | pushConstant | loadLocal | storeLocal | loadField | storeField | «return» | returnVoid =>
      exact free.elim
  | jump target => exact .inr ⟨target.toNat, rfl⟩
  | _ => exact .inl rfl

theorem continues_of_names {constants : Constants} {expr : Expr} {instruction : Instruction}
    (names : Names constants expr instruction) : Continues instruction := by
  cases names <;> exact .inl rfl

theorem Continues.successor {instruction : Instruction} (continues : Continues instruction)
    (offset : Nat) : ∃ next, next ∈ instruction.successors offset := by
  rcases continues with falls | ⟨target, jump⟩
  · exact ⟨_, Instruction.mem_successors.mpr (.inl ⟨falls, rfl⟩)⟩
  · exact ⟨target, Instruction.mem_successors.mpr (.inr jump)⟩

/-- Execution goes forward within a directed run, and not beyond its end. -/
theorem forward_of_directed {entry : Nat × Instruction}
    (directed : Directed Continues (fun _ => False) base own)
    (member : entry ∈ Instruction.placed base own) :
    ∀ next ∈ entry.2.successors entry.1, entry.1 < next ∧ next ≤ base + codeSize own := by
  intro next successor
  have within := Instruction.placed_within member
  have positive := entry.2.size_positive
  rcases Instruction.mem_successors.mp successor with ⟨_, rfl⟩ | jumped
  · omega
  · obtain ⟨forward, reached⟩ := (directed entry member).2 next jumped
    exact ⟨forward, (boundary_within (reached.resolve_right id)).2⟩

end Stretches

/-- The code of an expression lifts the stack by one entry, and by what the expression needs on the way. -/
theorem lifts_of_ok {constants : Constants} {code : Array UInt8} {occurrence : Occurrence}
    {own : List Instruction} (made : ofExpr constants occurrence.base occurrence.expr = .ok own)
    (held : Holds code occurrence.base own) (small : occurrence.finish < 2 ^ 32) :
    Lifts code occurrence.base occurrence.finish occurrence.expr.need := by
  obtain ⟨kinds, base, expr⟩ := occurrence
  have finish : base + expr.width = base + codeSize own := by rw [codeSize_of_ok made]
  have directed := @directed_of_ok [] constants Continues (fun _ => continues_of_free)
    { kinds, base, expr } (fun _ _ _ => continues_of_names) small own made (fun _ => False)
  simp only [Occurrence.finish, finish] at small ⊢
  obtain ⟨level, empty, last, below, levels⟩ :=
    leaves_one constants expr base own made small (fun _ _ => False) 0 expr.need
      (Nat.le_of_eq (Nat.zero_add _))
  have crossing := fun start => ascends constants expr base own made small _
    (carries_crosses held start) start .enter
  refine ⟨?_, fun start => (crossing start).1, ?_, fun start => ⟨(crossing start).2, ?_⟩⟩
  · intro start offset height crosses inside
    obtain ⟨boundary, rfl⟩ := boundary_of_crosses held empty levels crosses
    obtain ⟨instruction, member⟩ := boundary.resolve_right inside
    have within := boundary_within boundary
    obtain ⟨next, successor⟩ := (directed _ member).1.successor offset
    refine ⟨within.1, Nat.lt_of_le_of_ne within.2 inside, Nat.le_add_right _ _, instruction,
      (held _ member).2, ?_, ⟨next, goesOn_iff.mpr successor⟩, fun next goesOn => ?_⟩
    · rw [Nat.add_sub_cancel_left]
      exact (levels _ member).1
    · exact forward_of_directed directed member next (goesOn_iff.mp goesOn)
  · intro start height crosses
    rw [(boundary_of_crosses held empty levels crosses).2, last]
  · rintro height ⟨offset, crosses⟩
    rw [(boundary_of_crosses held empty levels crosses).2]
    exact Nat.add_le_add_left (below offset) start

/-! Methods. -/

theorem fallsThrough_of_pushes {instruction : Instruction} (pushes : instruction.stackEffect.2 = 1) :
    instruction.fallsThrough = true := by
  cases instruction with
  | jump | «return» | returnVoid => simp [Instruction.stackEffect] at pushes
  | _ => rfl

/-- The constructor needs one entry of the stack if there are fields, whatever their values are. -/
theorem depth_of_fills {constants : Constants} {fields : List Field} {code : List Instruction}
    (fills : Fills constants 0 fields code) :
    maxStackDepth (Instruction.encodeAll code).toArray = .ok (constructorNeed fields) := by
  obtain ⟨needed, measured, below⟩ := (balanced_fills fills).1.analysed fills.confined
  have carries := carries_reaches (Instruction.holds_encodeAll code)
  have attained : constructorNeed fields ≤ needed := by
    cases fills with
    | nil index => exact Nat.zero_le needed
    | cons head tail =>
        have effect := (pushField_effect head).1
        have falls := fallsThrough_of_pushes (congrArg Prod.snd effect)
        have pushed := carries.through falls .start (Nat.le_of_eq (congrArg Prod.fst effect))
        simp only [heightAfter, effect] at pushed
        exact StackDepth.le_of_reaches measured pushed
  rw [measured, Nat.le_antisymm below attained]

theorem result_of_ofBody {constants : Constants} {body : Body} {code : List Instruction}
    (made : ofBody constants body = .ok code) {slot : UInt16} {value : Expr}
    (last : body.statements.getLast? = some (.definition slot value)) : body.result? = none := by
  obtain ⟨pieces, _, joined⟩ := bind_eq_ok.mp made
  rw [last] at joined
  cases known : body.result? with
  | none => rfl
  | some kind =>
      rw [known] at joined
      simp at joined

theorem depth_of_body {constants : Constants} {body : Body} {code : List Instruction}
    (made : ofBody constants body = .ok code) (small : codeSize code < 2 ^ 32)
    (valued : body.statements = [] → body.result?.isSome = true) :
    maxStackDepth (Instruction.encodeAll code).toArray = .ok body.need := by
  obtain ⟨running, rfl, runs⟩ := running_of_ok made
  obtain ⟨finish, balanced⟩ := balanced_entry runs small fun _ _ => result_of_ofBody made
  obtain ⟨needed, measured, below⟩ := balanced.analysed (confined_of_sequence runs small)
  have carries := carries_reaches (Instruction.holds_encodeAll (running ++ ending body))
  obtain ⟨carriesRunning, carriesEnding⟩ := Carries.append_iff.mp carries
  rw [codeSize_append] at small
  obtain ⟨ran, attains⟩ := ascends_sequence runs (by omega)
    (fun statement _ => ascends constants statement.value) carriesRunning .start
  have attained : body.need ≤ needed := by
    by_cases empty : body.statements = []
    · obtain ⟨kind, known⟩ := Option.isSome_iff_exists.mp (valued empty)
      have pushes : ending body = [.pushNil, .return] := by simp [ending, known, empty]
      rw [empty] at ran
      rw [pushes] at carriesEnding ran measured
      have pushed := carriesEnding.through rfl ran (Nat.zero_le _)
      simp only [Body.need, empty, List.isEmpty_nil, if_true]
      exact StackDepth.le_of_reaches measured pushed
    · rw [Body.need, if_neg (by simpa using empty)]
      obtain ⟨offset, reached⟩ :=
        exists_largest (by simpa using empty) (List.forall_mem_map.mpr attains)
      rw [Nat.zero_add] at reached
      exact StackDepth.le_of_reaches measured reached
  rw [measured, Nat.le_antisymm below attained]

end Code

theorem result_of_empty {fields : List Field} {nodes : List Node} {body : Body}
    (resolved : Resolution.resolveFragment fields nodes = .ok body) (empty : body.statements = []) :
    body.result?.isSome = true := by
  unfold Resolution.resolveFragment at resolved
  split at resolved
  · simp at resolved
  · obtain ⟨⟨statements, result?, after⟩, listed, later⟩ := bind_eq_ok.mp resolved
    obtain ⟨_, rfl, steps⟩ := Resolution.steps_of_statements listed
    generalize nodes.map Resolution.statementNode = named at steps
    simp only at later
    split at later
    · obtain rfl := Except.ok.inj later
      obtain rfl : _ = [] := empty
      cases steps
      rfl
    · simp at later

/-- What the form of a body and the fields of its type tell of the operand stack. -/
structure StackByForm {Fragment : Type} (unit : CompilationUnit Fragment) (body : Body) : Prop where
  constructor : ∀ code,
    Code.ofFields (Constants.ofBody unit.fields body) 0 [] unit.fields = .ok code →
      maxStackDepth (Instruction.encodeAll code).toArray = .ok (constructorNeed unit.fields)
  entry : ∀ code, Code.ofBody (Constants.ofBody unit.fields body) body = .ok code →
    codeSize code < 2 ^ 32 → maxStackDepth (Instruction.encodeAll code).toArray = .ok body.need
  statements : ∀ statement ∈ body.statements,
    ∃ occurrence, body.Has (fieldKinds unit.fields) occurrence ∧ occurrence.expr = statement.value
  parts : ∀ occurrence, body.Has (fieldKinds unit.fields) occurrence →
    ∀ part ∈ occurrence.expr.parts, ∃ child ∈ occurrence.children (fieldKinds unit.fields),
      body.Has (fieldKinds unit.fields) child ∧ child.expr = part
  /-- The code of every expression stands at its place and lifts the stack by one entry. -/
  expressions : ∀ code, Code.ofBody (Constants.ofBody unit.fields body) body = .ok code →
    codeSize code < 2 ^ 32 → ∀ occurrence, body.Has (fieldKinds unit.fields) occurrence →
      Code.Embedded (Constants.ofBody unit.fields body) (Instruction.encodeAll code).toArray
          occurrence ∧
        Lifts (Instruction.encodeAll code).toArray occurrence.base occurrence.finish
          occurrence.expr.need
  recorded : ∀ definition, Code.typeDefinition unit body = .ok definition →
    (∀ method ∈ definition.methods, method.code.size < 2 ^ 32) →
      ∃ constructor entry, definition.methods = [constructor, entry] ∧
        maxStackDepth constructor.code = .ok (constructorNeed unit.fields) ∧
        constructor.signature.maxStack.toNat = constructorNeed unit.fields ∧
        maxStackDepth entry.code = .ok body.need ∧
        entry.signature.maxStack.toNat = body.need

/-- The stack that the methods of a type declare is the one that the forms in its body tell, whether the
nodes that the body was resolved from were checked before or not. The analysis succeeds on both methods, as
long as 32 bits can name the bytes of the entry method, and finds what the recursion over the expressions
gives. Each of these leaves one entry more on every path through its code and touches none below. -/
theorem stack_need_is_structural {Fragment : Type} {unit : CompilationUnit Fragment}
    {nodes : List Node} {body : Body}
    (resolved : Resolution.resolveFragment unit.fields nodes = .ok body) : StackByForm unit body := by
  have constructorDepth : ∀ code,
      Code.ofFields (Constants.ofBody unit.fields body) 0 [] unit.fields = .ok code →
        maxStackDepth (Instruction.encodeAll code).toArray = .ok (constructorNeed unit.fields) := by
    intro code filled
    obtain ⟨_, rfl, fills⟩ := Code.fills_of_ok filled
    exact Code.depth_of_fills fills
  have entryDepth : ∀ code, Code.ofBody (Constants.ofBody unit.fields body) body = .ok code →
      codeSize code < 2 ^ 32 →
        maxStackDepth (Instruction.encodeAll code).toArray = .ok body.need :=
    fun code made small => Code.depth_of_body made small (result_of_empty resolved)
  refine ⟨constructorDepth, entryDepth, fun _ => Body.has_statement _, fun _ has _ => has.part, ?_, ?_⟩
  · intro code made small occurrence has
    obtain ⟨running, rfl, runs⟩ := Code.running_of_ok made
    have held := (Holds.append_iff.mp (Instruction.holds_encodeAll (running ++ Code.ending body))).1
    obtain ⟨child, member, occurs⟩ := has
    have embedded := (Code.embedded_sequence [] runs held child member).occurs occurs
    refine ⟨embedded, ?_⟩
    obtain ⟨own, ownMade, ownHeld⟩ := embedded
    refine Code.lifts_of_ok ownMade ownHeld ?_
    have within := (Occurrence.mem_inSequence member).2.2.2
    have inside := occurs.within
    have width := Code.sequence_width runs fun statement _ => Code.has_width statement.value
    rw [codeSize_append] at small
    omega
  · intro definition typed small
    obtain ⟨constructor, entry, filling, running, generated⟩ := Code.generated_of_ok typed
    have constructorMeasured := generated.constructor.code ▸ Code.depth_of_fills generated.fills
    have entrySmall := generated.entrySmall small
    have entryMeasured : maxStackDepth entry.code = .ok body.need := by
      rw [generated.entry.code, Instruction.size_encodeAll] at entrySmall
      exact generated.entry.code ▸ entryDepth _ generated.made entrySmall
    refine ⟨constructor, entry, generated.methods, constructorMeasured,
      generated.constructor.maxStack_toNat constructorMeasured (generated.constructorSmall small),
      entryMeasured, generated.entry.maxStack_toNat entryMeasured entrySmall⟩

/-! A term whose operands wait for each other, next to a field that it does not mention. -/

def termFragment : Fragment :=
  [.list
    [.symbol "+" ⟨1, 1⟩, .number 1 ⟨3, 1⟩,
      .list
        [.symbol "*" ⟨6, 1⟩, .number 2 ⟨8, 1⟩,
          .list [.symbol "-" ⟨11, 1⟩, .number 3 ⟨13, 1⟩, .number 4 ⟨15, 1⟩] ⟨10, 7⟩]
        ⟨5, 13⟩]
    ⟨0, 19⟩]

def termUnit : CompilationUnit Fragment :=
  { typeName := "Fragment$1"
    entryMethod := "run"
    fields := [{ name := "a", value := .integer 1 }]
    body := termFragment
    shape := .expression
    origin := 0 }

def termBody : Body :=
  { statements :=
      [.expression (.arithmetic .add
        [.number 1, .arithmetic .multiply [.number 2, .arithmetic .subtract [.number 3, .number 4]]])]
    locals := 0
    result? := some .number }

def termType : TypeDefinition :=
  { name := "Fragment$1"
    fieldCount := 1
    constants := []
    methods :=
      [{ signature :=
           { name := TypeDefinition.constructorName, arity := 0, locals := 0, maxStack := 1
             returnsValue := false }
         code := (Instruction.encodeAll [.pushInteger 1, .storeField 0, .returnVoid]).toArray },
       { signature := { name := "run", arity := 0, locals := 0, maxStack := 4, returnsValue := true }
         code := (Instruction.encodeAll
           [.pushInteger 1, .pushInteger 2, .pushInteger 3, .pushInteger 4, .arithmetic .subtract,
             .arithmetic .multiply, .arithmetic .add, .return]).toArray }] }

theorem term_stack_need :
    Resolution.resolveFragment termUnit.fields termFragment = .ok termBody ∧
      Code.typeDefinition termUnit termBody = .ok termType ∧ termBody.need = 4 ∧
      ∃ constructor entry, termType.methods = [constructor, entry] ∧
        maxStackDepth constructor.code = .ok 1 ∧ constructor.signature.maxStack.toNat = 1 ∧
        maxStackDepth entry.code = .ok 4 ∧ entry.signature.maxStack.toNat = 4 := by
  have resolved : Resolution.resolveFragment termUnit.fields termFragment = .ok termBody := rfl
  have typed : Code.typeDefinition termUnit termBody = .ok termType := by decide +kernel
  have small : ∀ method ∈ termType.methods, method.code.size < 2 ^ 32 := by decide
  exact ⟨resolved, typed, rfl, (stack_need_is_structural resolved).recorded termType typed small⟩

end Lisp
end FragmentLisp
