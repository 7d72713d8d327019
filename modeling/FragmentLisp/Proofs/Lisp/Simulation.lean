import FragmentLisp.Proofs.Lisp.Stretches

/-!
The code of an expression does what the evaluation of the expression says: form by form, given that the
code of its operands does, and from this for all expressions.
-/

namespace FragmentLisp
namespace Lisp
namespace Code

open Machine (Program State Passes Follows)
open Instruction (Holds)
open Occurrence (inTurn inSequence Settled Occurs)

/-! Values with a filler between two of them. -/

theorem flatten_intersperse_nil {Item : Type} (lists : List (List Item)) :
    (lists.intersperse []).flatten = lists.flatten := by
  induction lists with
  | nil => rfl
  | cons first rest inductionHypothesis =>
      cases rest with
      | nil => rfl
      | cons next others =>
          rw [List.intersperse_cons_cons, List.flatten_cons, List.flatten_cons,
            inductionHypothesis, List.nil_append, ← List.flatten_cons]

theorem flatten_intersperse_single {Item : Type} (separator : Item) (items : List Item) :
    ((items.map fun item => [item]).intersperse [separator]).flatten =
      items.intersperse separator := by
  induction items with
  | nil => rfl
  | cons first rest inductionHypothesis =>
      cases rest with
      | nil => rfl
      | cons next others =>
          simp only [List.map_cons, List.intersperse_cons_cons, List.flatten_cons] at *
          rw [inductionHypothesis]
          rfl

theorem map_intersperse {Item Image : Type} (change : Item → Image) (separator : Item)
    (items : List Item) :
    (items.intersperse separator).map change = (items.map change).intersperse (change separator) := by
  induction items with
  | nil => rfl
  | cons first rest inductionHypothesis =>
      cases rest with
      | nil => rfl
      | cons next others =>
          simp only [List.map_cons, List.intersperse_cons_cons] at *
          rw [inductionHypothesis]

theorem join_spaced (values : List Value) :
    Operation.join (values.intersperse (.string Constants.separator)) = Operation.spaced values := by
  rw [Operation.join, map_intersperse]
  rfl

/-! The forms, given that their operands deliver. -/

section Forms

variable {fieldKinds : List Kind} {program : Program} {fields : Array Value} {slots : Nat}
variable {parent : Occurrence} {entries : List Value} {store : Store}

/-- The code of everything that an occurrence is made of delivers. -/
def PartsDeliver (fieldKinds : List Kind) (program : Program) (fields : Array Value) (slots : Nat)
    (parent : Occurrence) : Prop :=
  ChildrenDeliver program.constants fieldKinds program fields slots (Within fieldKinds parent)
    (Blamed fieldKinds parent) (parent.children fieldKinds)

/-- What an evaluation of an occurrence comes to, told of a run that begins with its code. -/
def Answers (fieldKinds : List Kind) (program : Program) (fields : Array Value)
    (parent : Occurrence) (entries : List Value) (store : Store)
    (outcome : Except Fault (Value × Store)) : Prop :=
  Follows program (Within fieldKinds parent) (Blamed fieldKinds parent)
    (place fields parent.base entries store) outcome
    fun answer => place fields parent.finish (answer.1 :: entries) answer.2

theorem answers_unary (operation : Value → Except Fault Value) {operand : Expr}
    {code : List Instruction} {instruction : Instruction}
    (children : parent.children fieldKinds = [⟨parent.kinds, parent.base, operand⟩])
    (width : parent.expr.width = operand.width + instruction.size)
    (each : PartsDeliver fieldKinds program fields slots parent)
    (made : ofExpr program.constants parent.base operand = .ok code)
    (held : Holds program.code parent.base (code ++ [instruction]))
    (performs : ∀ offset value store,
      Machine.perform program (place fields offset (value :: entries) store) instruction =
        Machine.attempt (place fields offset (value :: entries) store) (operation value)
          fun result => Machine.leave program (place fields offset (value :: entries) store)
            (offset + instruction.size) (.ofEntries entries) result)
    (mismatch : ∀ value fault, operation value = .error fault → fault.IsMismatch →
      ∃ wanted, parent.expr.demand? = some wanted ∧ Kind.ofValue value ≠ wanted ∧
        (operand.kind fieldKinds parent.kinds).admits wanted = true)
    (conforms : Conforms parent.kinds store.locals) (sized : store.locals.size = slots) :
    Answers fieldKinds program fields parent entries store (operand.evaluate fields store >>=
      fun answer => operation answer.1 >>= fun result => .ok (result, answer.2)) := by
  have member : ⟨parent.kinds, parent.base, operand⟩ ∈ parent.children fieldKinds := by
    rw [children]
    exact List.mem_cons_self
  have positive := instruction.size_positive
  obtain ⟨respects, delivers⟩ := each _ member
  obtain ⟨heldCode, heldOwn⟩ := Holds.append_iff.mp held
  rw [codeSize_of_ok made] at heldOwn
  apply Follows.bind (delivers code made heldCode entries store conforms sized)
  rintro ⟨value, after⟩ evaluated
  obtain ⟨covers, _⟩ := respects store conforms sized value after evaluated
  have finish : parent.finish = parent.base + operand.width + instruction.size := by
    rw [Occurrence.finish, width, Nat.add_assoc]
  have below : parent.base + operand.width < parent.finish := by omega
  have owns : parent.Owns fieldKinds (parent.base + operand.width) := by
    apply Occurrence.owns_behind member (Nat.le_refl _) below
    intro other otherMember
    rw [children, List.mem_singleton] at otherMember
    rw [otherMember]
    exact Or.inl (Nat.le_refl _)
  have within : Within fieldKinds parent
      (place fields (parent.base + operand.width) (value :: entries) after) :=
    within_behind member (Nat.le_refl _) owns
  apply Follows.bind (follows_operation heldOwn within _ (performs _ value after))
  · intro result _
    rw [finish]
    exact .done _
  · intro fault failed mismatched
    obtain ⟨wanted, demands, unwanted, admits⟩ := mismatch value fault failed mismatched
    exact ⟨parent, _, value, wanted, .self, owns, demands, .upper member rfl rfl, unwanted,
      any_of_unwanted covers admits unwanted⟩

theorem answers_binary (operation : Value → Value → Except Fault Value) {left right : Expr}
    {leftCode rightCode : List Instruction} {instruction : Instruction}
    (children : parent.children fieldKinds = [⟨parent.kinds, parent.base, left⟩,
      ⟨parent.kinds, parent.base + left.width, right⟩])
    (width : parent.expr.width = left.width + right.width + instruction.size)
    (each : PartsDeliver fieldKinds program fields slots parent)
    (leftMade : ofExpr program.constants parent.base left = .ok leftCode)
    (rightMade : ofExpr program.constants (parent.base + codeSize leftCode) right = .ok rightCode)
    (held : Holds program.code parent.base (leftCode ++ rightCode ++ [instruction]))
    (performs : ∀ offset leftValue rightValue store,
      Machine.perform program (place fields offset (rightValue :: leftValue :: entries) store)
          instruction =
        Machine.attempt (place fields offset (rightValue :: leftValue :: entries) store)
          (operation leftValue rightValue) fun result =>
            Machine.leave program (place fields offset (rightValue :: leftValue :: entries) store)
              (offset + instruction.size) (.ofEntries entries) result)
    (mismatch : ∀ leftValue rightValue fault, operation leftValue rightValue = .error fault →
      ∃ wanted, parent.expr.demand? = some wanted ∧
        (Kind.ofValue rightValue ≠ wanted ∧
            (right.kind fieldKinds parent.kinds).admits wanted = true ∨
          Kind.ofValue leftValue ≠ wanted ∧
            (left.kind fieldKinds parent.kinds).admits wanted = true))
    (conforms : Conforms parent.kinds store.locals) (sized : store.locals.size = slots) :
    Answers fieldKinds program fields parent entries store (left.evaluate fields store >>=
      fun first => right.evaluate fields first.2 >>= fun second =>
        operation first.1 second.1 >>= fun result => .ok (result, second.2)) := by
  have leftMember : ⟨parent.kinds, parent.base, left⟩ ∈ parent.children fieldKinds := by
    rw [children]
    exact List.mem_cons_self
  have rightMember : ⟨parent.kinds, parent.base + left.width, right⟩ ∈
      parent.children fieldKinds := by
    rw [children]
    exact List.mem_cons_of_mem _ List.mem_cons_self
  have positive := instruction.size_positive
  obtain ⟨leftRespects, leftDelivers⟩ := each _ leftMember
  obtain ⟨rightRespects, rightDelivers⟩ := each _ rightMember
  rw [List.append_assoc, Holds.append_iff, Holds.append_iff, codeSize_of_ok leftMade] at held
  rw [codeSize_of_ok leftMade] at rightMade
  rw [codeSize_of_ok rightMade] at held
  obtain ⟨heldLeft, heldRight, heldOwn⟩ := held
  apply Follows.bind (leftDelivers _ leftMade heldLeft entries store conforms sized)
  rintro ⟨leftValue, middle⟩ evaluatedLeft
  obtain ⟨leftCovers, leftKept⟩ :=
    leftRespects store conforms sized leftValue middle evaluatedLeft
  apply Follows.bind (rightDelivers _ rightMade heldRight (leftValue :: entries) middle
    (leftKept.conforms conforms) (leftKept.size.trans sized))
  rintro ⟨rightValue, after⟩ evaluatedRight
  obtain ⟨rightCovers, _⟩ := rightRespects middle (leftKept.conforms conforms)
    (leftKept.size.trans sized) rightValue after evaluatedRight
  have finish : parent.finish =
      parent.base + left.width + right.width + instruction.size := by
    rw [Occurrence.finish, width]
    omega
  have below : parent.base + left.width + right.width < parent.finish := by omega
  have leftBehind : parent.base + left.width ≤ parent.base + left.width + right.width :=
    Nat.le_add_right _ _
  have owns : parent.Owns fieldKinds (parent.base + left.width + right.width) := by
    apply Occurrence.owns_behind rightMember (Nat.le_refl _) below
    intro other otherMember
    rw [children, List.mem_cons, List.mem_singleton] at otherMember
    rcases otherMember with rfl | rfl
    · exact Or.inl leftBehind
    · exact Or.inl (Nat.le_refl _)
  have within : Within fieldKinds parent (place fields (parent.base + left.width + right.width)
      (rightValue :: leftValue :: entries) after) :=
    within_behind rightMember (Nat.le_refl _) owns
  apply Follows.bind (follows_operation heldOwn within _ (performs _ leftValue rightValue after))
  · intro result _
    rw [finish]
    exact .done _
  · intro fault failed mismatched
    obtain ⟨wanted, demands, wrong⟩ := mismatch leftValue rightValue fault failed
    rcases wrong with ⟨unwanted, admits⟩ | ⟨unwanted, admits⟩
    · exact ⟨parent, _, rightValue, wanted, .self, owns, demands, .upper rightMember rfl rfl, unwanted,
        any_of_unwanted rightCovers admits unwanted⟩
    · exact ⟨parent, _, leftValue, wanted, .self, owns, demands, .lower children rfl rfl, unwanted,
        any_of_unwanted leftCovers admits unwanted⟩

theorem answers_shortCircuit (stopAtTrue : Bool) {operands : List Expr}
    {pieces : List (List Instruction)}
    (children : parent.children fieldKinds =
      inTurn parent.kinds (stopGap stopAtTrue) parent.base operands)
    (width : parent.expr.width = widthAll (stopGap stopAtTrue) operands + 9)
    (each : PartsDeliver fieldKinds program fields slots parent)
    (made : Pieces program.constants (stopGap stopAtTrue) parent.base operands pieces)
    (held : Holds program.code parent.base (shortCircuit stopAtTrue parent.base pieces))
    (small : parent.finish < 2 ^ 32)
    (conforms : Conforms parent.kinds store.locals) (sized : store.locals.size = slots) :
    Answers fieldKinds program fields parent entries store
      (evaluateUntil fields stopAtTrue store operands) := by
  have finish : parent.finish =
      parent.base + widthAll (stopGap stopAtTrue) operands + 9 := by
    rw [Occurrence.finish, width, Nat.add_assoc]
  have apart := Occurrence.inTurn_apart parent.kinds (stopGap stopAtTrue) parent.base operands
  unfold Answers
  rw [finish]
  apply follows_shortCircuit stopAtTrue made held (finish ▸ small)
  · rw [← children]
    exact each
  · intro child member state above below
    have bounds := Occurrence.mem_inTurn member
    rw [← children] at apart member
    exact within_gap apart member above below (by omega)
  · intro state above below known
    refine within_end ?_ (by omega) (by omega) known
    intro child member
    rw [children] at member
    have bounds := Occurrence.mem_inTurn member
    omega
  · exact conforms
  · exact sized

theorem answers_arithmetic {kinds : List Kind} {base : Nat} {op : ArithmeticOp} {first : Expr}
    {rest : List Expr} {head : List Instruction} {pieces : List (List Instruction)}
    (each : PartsDeliver fieldKinds program fields slots
      ⟨kinds, base, .arithmetic op (first :: rest)⟩)
    (firstMade : ofExpr program.constants base first = .ok head)
    (restMade : Pieces program.constants 1 (base + codeSize head) rest pieces)
    (held : Holds program.code base (head ++ pieces.flatMap fun piece => piece ++ [.arithmetic op]))
    (admits : ∀ child ∈ Occurrence.children fieldKinds ⟨kinds, base, .arithmetic op (first :: rest)⟩,
      (child.kind fieldKinds).admits .number = true)
    (conforms : Conforms kinds store.locals) (sized : store.locals.size = slots) :
    Answers fieldKinds program fields ⟨kinds, base, .arithmetic op (first :: rest)⟩ entries store
      ((Expr.arithmetic op (first :: rest)).evaluate fields store) := by
  obtain ⟨heldHead, heldRest⟩ := Holds.append_iff.mp held
  rw [codeSize_of_ok firstMade] at restMade heldRest
  obtain ⟨respects, delivers⟩ := each _ List.mem_cons_self
  have apart := Occurrence.inTurn_apart kinds 1 (base + first.width) rest
  have finish : Occurrence.finish ⟨kinds, base, .arithmetic op (first :: rest)⟩ =
      base + first.width + widthAll 1 rest := by
    rw [Occurrence.finish, Expr.width, Nat.add_assoc]
  rw [Expr.evaluate, evaluateFold]
  apply Follows.bind (delivers head firstMade heldHead entries store conforms sized)
  rintro ⟨value, after⟩ evaluated
  obtain ⟨covers, kept⟩ := respects store conforms sized value after evaluated
  have later : ∀ child ∈ inTurn kinds 1 (base + first.width) rest,
      child ∈ Occurrence.children fieldKinds ⟨kinds, base, .arithmetic op (first :: rest)⟩ :=
    fun child member => List.mem_cons_of_mem _ member
  have bounds : ∀ child ∈ inTurn kinds 1 (base + first.width) rest,
      base + first.width < child.finish ∧ child.finish + 1 ≤ base + first.width + widthAll 1 rest := by
    intro child member
    obtain ⟨_, above, _, below⟩ := Occurrence.mem_inTurn member
    have positive := child.base_lt_finish
    omega
  rw [finish]
  have owns : ∀ child ∈ inTurn kinds 1 (base + first.width) rest,
      Occurrence.Owns fieldKinds ⟨kinds, base, .arithmetic op (first :: rest)⟩ child.finish := by
    intro child member
    have range := bounds child member
    apply Occurrence.owns_behind (later child member) (Nat.le_refl _) (by omega)
    intro other otherMember
    rcases List.mem_cons.mp otherMember with rfl | inRest
    · exact Or.inl (Nat.le_of_lt range.1)
    · exact Occurrence.free_behind apart member inRest (Nat.le_refl _) (Nat.lt_succ_self _)
  apply follows_fold (fun child => first.kind fieldKinds kinds = .any ∧
    ∃ others, inTurn kinds 1 (base + first.width) rest = child :: others) restMade heldRest
    (fun child member => each child (later child member)) _ _
    (fun child member => admits child (later child member)) entries _ (kept.conforms conforms)
    (kept.size.trans sized)
  · intro child member state here
    apply within_behind (later child member) (Nat.le_of_eq here.symm)
    rw [here]
    exact owns child member
  · intro child member state fault value result entries here stack unknown mismatched
    have own := owns child member
    rw [← here] at own
    rcases unknown mismatched with ⟨unwanted, known⟩ | ⟨unwanted, known, others, shape⟩
    · exact ⟨_, child, value, .number, .self, own, rfl, .upper (later child member) here.symm stack,
        unwanted, known⟩
    · exact ⟨_, ⟨kinds, base, first⟩, result, .number, .self, own, rfl,
        .lower (congrArg (List.cons _) shape) here.symm stack, unwanted, known⟩
  · intro child others shape unwanted
    exact ⟨any_of_unwanted covers (admits _ List.mem_cons_self) unwanted, others, shape⟩

theorem answers_conditional {kinds : List Kind} {base : Nat}
    {condition consequent alternative : Expr} {test chosen other : List Instruction}
    (each : PartsDeliver fieldKinds program fields slots
      ⟨kinds, base, .conditional condition consequent alternative⟩)
    (testMade : ofExpr program.constants base condition = .ok test)
    (chosenMade : ofExpr program.constants (base + codeSize test + 5) consequent = .ok chosen)
    (otherMade : ofExpr program.constants (base + codeSize test + 5 + codeSize chosen + 5)
      alternative = .ok other)
    (held : Holds program.code base (test ++
      [.jumpIfFalse (UInt32.ofNat (base + codeSize test + 5 + codeSize chosen + 5))] ++ chosen ++
      [.jump (UInt32.ofNat (base + codeSize test + 5 + codeSize chosen + 5 + codeSize other))] ++
      other))
    (small : Occurrence.finish ⟨kinds, base, .conditional condition consequent alternative⟩ < 2 ^ 32)
    (conforms : Conforms kinds store.locals) (sized : store.locals.size = slots) :
    Answers fieldKinds program fields ⟨kinds, base, .conditional condition consequent alternative⟩
      entries store ((Expr.conditional condition consequent alternative).evaluate fields store) := by
  have finish : Occurrence.finish ⟨kinds, base, .conditional condition consequent alternative⟩ =
      base + condition.width + 5 + consequent.width + 5 + alternative.width := by
    simp only [Occurrence.finish, Expr.width]
    omega
  have apart := Occurrence.inTurn_apart kinds 5 base [condition, consequent, alternative]
  have testMember : ⟨kinds, base, condition⟩ ∈
      inTurn kinds 5 base [condition, consequent, alternative] := List.mem_cons_self
  have chosenMember : ⟨kinds, base + condition.width + 5, consequent⟩ ∈
      inTurn kinds 5 base [condition, consequent, alternative] :=
    List.mem_cons_of_mem _ List.mem_cons_self
  have otherMember : ⟨kinds, base + condition.width + 5 + consequent.width + 5, alternative⟩ ∈
      inTurn kinds 5 base [condition, consequent, alternative] :=
    List.mem_cons_of_mem _ (List.mem_cons_of_mem _ List.mem_cons_self)
  rw [codeSize_of_ok testMade] at chosenMade otherMade held
  rw [codeSize_of_ok chosenMade] at otherMade held
  rw [codeSize_of_ok otherMade] at held
  simp only [Holds.append_iff, codeSize_append, codeSize_of_ok testMade,
    codeSize_of_ok chosenMade, ← Nat.add_assoc] at held
  obtain ⟨⟨⟨⟨heldTest, heldBranch⟩, heldChosen⟩, heldJump⟩, heldOther⟩ := held
  obtain ⟨testRespects, testDelivers⟩ := each _ testMember
  obtain ⟨_, chosenDelivers⟩ := each _ chosenMember
  obtain ⟨_, otherDelivers⟩ := each _ otherMember
  have own : ∀ child ∈ inTurn kinds 5 base [condition, consequent, alternative],
      ∀ state : State, state.offset = child.finish →
        state.offset < base + condition.width + 5 + consequent.width + 5 + alternative.width →
          Within fieldKinds ⟨kinds, base, .conditional condition consequent alternative⟩ state := by
    intro child member state here below
    exact within_gap apart member (Nat.le_of_eq here.symm) (by omega) (by omega)
  have alternativeWord :=
    word_toNat (base + condition.width + 5 + consequent.width + 5) (by omega)
  have finishWord := word_toNat _ (finish ▸ small)
  rw [Expr.evaluate]
  apply Follows.bind (testDelivers test testMade heldTest entries store conforms sized)
  rintro ⟨value, middle⟩ evaluated
  obtain ⟨_, kept⟩ := testRespects store conforms sized value middle evaluated
  have branched := own _ testMember
    (place fields (base + condition.width) (value :: entries) middle) rfl
    (by simp only [place]; omega)
  apply Passes.follows (passes_branch alternativeWord heldBranch branched)
  by_cases truthy : value.isTruthy = true
  · simp only [truthy, if_true]
    apply Follows.onward (chosenDelivers chosen chosenMade heldChosen entries middle
      (kept.conforms conforms) (kept.size.trans sized))
    rintro ⟨result, after⟩ _
    have jumping := own _ chosenMember
      (place fields (base + condition.width + 5 + consequent.width) (result :: entries) after) rfl
      (by simp only [place]; omega)
    rw [finish]
    exact passes_jump finishWord heldJump jumping
  · simp only [truthy]
    rw [finish]
    exact otherDelivers other otherMade heldOther entries middle (kept.conforms conforms)
      (kept.size.trans sized)

theorem answers_localBinding {kinds : List Kind} {base : Nat} {bindings : List (UInt16 × Expr)}
    {body : List Expr} {code : List Instruction}
    (each : PartsDeliver fieldKinds program fields slots ⟨kinds, base, .localBinding bindings body⟩)
    (made : Sequence program.constants base (bindingSteps bindings body) code)
    (held : Holds program.code base (code ++ if body.isEmpty then [.pushNil] else []))
    (numbered : Numbered slots kinds.length (bindingSteps bindings body))
    (conforms : Conforms kinds store.locals) (sized : store.locals.size = slots) :
    Answers fieldKinds program fields ⟨kinds, base, .localBinding bindings body⟩ entries store
      ((Expr.localBinding bindings body).evaluate fields store) := by
  have width := sequence_width made fun statement _ => has_width statement.value
  have steps := widthSteps_bindingSteps bindings body
  have finish : Occurrence.finish ⟨kinds, base, .localBinding bindings body⟩ =
      base + widthSteps (bindingSteps bindings body) + if body.isEmpty then 1 else 0 := by
    simp only [Occurrence.finish, Expr.width, steps]
    cases body with
    | nil =>
        simp only [widthAll, List.isEmpty_nil, if_true]
        omega
    | cons first rest =>
        simp only [List.isEmpty_cons, Bool.false_eq_true, if_false]
        omega
  obtain ⟨heldSteps, heldNil⟩ := Holds.append_iff.mp held
  rw [width] at heldNil
  have apart := Occurrence.inSequence_apart fieldKinds kinds base (bindingSteps bindings body)
  have own : ∀ child ∈ inSequence fieldKinds kinds base (bindingSteps bindings body),
      ∀ state : State, state.offset = child.finish →
        state.offset < base + widthSteps (bindingSteps bindings body) →
          Within fieldKinds ⟨kinds, base, .localBinding bindings body⟩ state := by
    intro child member state here below
    exact within_gap apart member (Nat.le_of_eq here.symm) (by omega) (by omega)
  rw [evaluate_localBinding]
  apply Follows.map
  apply Follows.onward (follows_statements made heldSteps numbered each own (fun _ => rfl) entries
    conforms sized)
  rintro ⟨value?, after⟩ evaluated
  obtain ⟨covers, kept⟩ := evaluateStatements_respects (fun child member => (each child member).1)
    numbered (show CoversResult none none from trivial) conforms sized evaluated
  have given := covers.isSome
  rw [resultKind?_isSome, Option.isSome_none, endsWithValue_bindingSteps] at given
  rw [finish]
  cases body with
  | nil =>
      obtain rfl : value? = none := by simpa using given
      apply passes_value heldNil _ rfl
      refine within_end ?_ (Nat.le_add_right _ _) (by rw [finish]; exact Nat.lt_succ_self _)
        (kept.conforms conforms)
      exact fun child member => (Occurrence.mem_inSequence member).2.2.2
  | cons first rest =>
      obtain ⟨value, rfl⟩ := Option.isSome_iff_exists.mp given
      exact .done _

theorem answers_concat {kinds : List Kind} {base : Nat} {parts : List Expr}
    {pieces : List (List Instruction)}
    (each : PartsDeliver fieldKinds program fields slots ⟨kinds, base, .concat parts⟩)
    (made : Pieces program.constants 0 base parts pieces) (few : parts.length < 65536)
    (held : Holds program.code base
      (pieces.flatten ++ [.concat (UInt16.ofNat parts.length)]))
    (conforms : Conforms kinds store.locals) (sized : store.locals.size = slots) :
    Answers fieldKinds program fields ⟨kinds, base, .concat parts⟩ entries store
      ((Expr.concat parts).evaluate fields store) := by
  have width := pieces_width made fun part _ => has_width part
  have finish : Occurrence.finish ⟨kinds, base, .concat parts⟩ = base + widthAll 0 parts + 3 := by
    simp only [Occurrence.finish, Expr.width, Nat.add_assoc]
  obtain ⟨heldParts, heldOwn⟩ := Holds.append_iff.mp held
  rw [← flatten_intersperse_nil] at heldParts
  rw [codeSize_flatten, width] at heldOwn
  rw [Expr.evaluate]
  apply Follows.bind (follows_all [] made rfl heldParts each (fun _ _ _ _ _ => .done _) entries
    conforms sized)
  rintro ⟨values, after⟩ evaluated
  have kept := evaluateAll_respects (fun child member => (each child member).1) conforms sized
    evaluated
  have spread : ((values.map fun value => [value]).intersperse []).flatten = values := by
    rw [flatten_intersperse_nil, ← List.flatMap_def, List.flatMap_singleton']
  have counted : (UInt16.ofNat parts.length).toNat = values.length := by
    rw [evaluateAll_length fields evaluated]
    exact UInt16.toNat_ofNat_of_lt' few
  rw [spread, finish]
  apply passes_value heldOwn _ (perform_concat values counted)
  refine within_end ?_ (Nat.le_add_right _ _)
    (by rw [finish]; exact Nat.lt_add_of_pos_right (by decide)) (kept.conforms conforms)
  exact fun child member => (Occurrence.mem_inTurn member).2.2.2

theorem answers_print {kinds : List Kind} {base : Nat} {newline : Bool} {arguments : List Expr}
    {pieces : List (List Instruction)}
    (each : PartsDeliver fieldKinds program fields slots ⟨kinds, base, .print newline arguments⟩)
    (made : Pieces program.constants 5 base arguments pieces)
    (few : 2 * arguments.length - 1 < 65536)
    (known : program.constants[(Constants.number program.constants Constants.separator).toNat]? =
      some Constants.separator)
    (held : Holds program.code base
      ((pieces.intersperse
          [.pushConstant (Constants.number program.constants Constants.separator)]).flatten ++
        [.concat (UInt16.ofNat (2 * arguments.length - 1)), .print newline, .pushNil]))
    (conforms : Conforms kinds store.locals) (sized : store.locals.size = slots) :
    Answers fieldKinds program fields ⟨kinds, base, .print newline arguments⟩ entries store
      ((Expr.print newline arguments).evaluate fields store) := by
  have width := pieces_width made fun part _ => has_width part
  have finish : Occurrence.finish ⟨kinds, base, .print newline arguments⟩ =
      base + (widthAll 5 arguments - 5) + 5 := by
    simp only [Occurrence.finish, Expr.width, Nat.add_assoc]
  have apart := Occurrence.inTurn_apart kinds 5 base arguments
  obtain ⟨heldArguments, heldOwn⟩ := Holds.append_iff.mp held
  rw [codeSize_intersperse] at heldOwn
  change Holds program.code (base + (piecesSize 5 pieces - 5)) _ at heldOwn
  rw [width] at heldOwn
  have fills : ∀ child ∈ inTurn kinds 5 base arguments, ∀ entries store,
      Holds program.code child.finish
          [.pushConstant (Constants.number program.constants Constants.separator)] →
        Passes program (Within fieldKinds ⟨kinds, base, .print newline arguments⟩)
          (place fields child.finish entries store)
          (place fields (child.finish + 5) (.string Constants.separator :: entries) store) := by
    intro child member entries store heldBetween
    have bounds := Occurrence.mem_inTurn member
    apply passes_constant heldBetween _ known
    have below : child.finish < base + (widthAll 5 arguments - 5) + 5 := by omega
    exact within_gap apart member (Nat.le_refl _) (Nat.lt_add_of_pos_right (by decide))
      (Nat.lt_of_lt_of_eq below finish.symm)
  rw [Expr.evaluate]
  apply Follows.bind (follows_all [.string Constants.separator] made rfl heldArguments each fills
    entries conforms sized)
  rintro ⟨values, after⟩ evaluated
  have kept := evaluateAll_respects (fun child member => (each child member).1) conforms sized
    evaluated
  have counted : (UInt16.ofNat (2 * arguments.length - 1)).toNat =
      (values.intersperse (.string Constants.separator)).length := by
    rw [List.length_intersperse, evaluateAll_length fields evaluated]
    exact UInt16.toNat_ofNat_of_lt' few
  have own : ∀ state : State, base + (widthAll 5 arguments - 5) ≤ state.offset →
      state.offset < base + (widthAll 5 arguments - 5) + 5 → Conforms kinds state.locals →
        Within fieldKinds ⟨kinds, base, .print newline arguments⟩ state := by
    intro state above below conforms
    refine within_end ?_ (Nat.le_trans (Nat.le_add_right _ _) above) (by omega) conforms
    intro child (member : child ∈ inTurn kinds 5 base arguments)
    have bounds := Occurrence.mem_inTurn member
    omega
  have conformsAfter := kept.conforms conforms
  have heldPrint := (Holds.cons_iff.mp heldOwn).2
  have heldNil := (Holds.cons_iff.mp heldPrint).2
  rw [flatten_intersperse_single, finish]
  generalize base + (widthAll 5 arguments - 5) = behind at *
  have first := own (place fields behind
    ((values.intersperse (.string Constants.separator)).reverse ++ entries) after) (Nat.le_refl _)
    (Nat.lt_add_of_pos_right (by decide)) conformsAfter
  have second := own (place fields (behind + 3) (.string (Operation.spaced values) :: entries) after)
    (Nat.le_add_right _ 3) (Nat.add_lt_add_left (by decide : 3 < 5) _) conformsAfter
  have third := own (place fields (behind + 4) entries
    (after.print (Operation.printed newline values))) (Nat.le_add_right _ 4)
    (Nat.add_lt_add_left (by decide : 4 < 5) _) conformsAfter
  have joined := passes_value heldOwn first (perform_concat _ counted)
  rw [join_spaced] at joined
  exact joined.trans ((passes_print heldPrint second).trans (passes_value heldNil third rfl))

end Forms

/-- The code of an expression that resolution has promised delivers where the program holds it. -/
theorem delivers {fieldKinds : List Kind} {program : Program} {fields : Array Value} {slots : Nat}
    (fieldsConform : Conforms fieldKinds fields) (constantsSmall : program.constants.size < 2 ^ 32)
    (occurrence : Occurrence) (settled : Settled fieldKinds slots occurrence)
    (pooled : Pooled fieldKinds program.constants occurrence) (small : occurrence.finish < 2 ^ 32)
    {code : List Instruction}
    (whole : ofExpr program.constants occurrence.base occurrence.expr = .ok code)
    (held : Holds program.code occurrence.base code) :
    Delivers program fields slots (Within fieldKinds occurrence) (Blamed fieldKinds occurrence)
      occurrence := by
  induction occurrence using Occurrence.childInduction fieldKinds generalizing code with
  | step occurrence childHypothesis =>
      have each : ChildrenDeliver program.constants fieldKinds program fields slots
          (Within fieldKinds occurrence) (Blamed fieldKinds occurrence)
          (occurrence.children fieldKinds) := by
        intro child member
        refine ⟨respectsKinds fieldsConform child (settled.child member), ?_⟩
        intro code made held entries store conforms sized
        have within := Occurrence.child_within member
        have own := childHypothesis child member (settled.child member) (pooled.child member)
          (by omega) made held entries store conforms sized
        exact own.widen (fun _ => Within.lift member) (fun _ _ => Blamed.lift member)
      have fine := settled occurrence .self
      have literal := pooled occurrence .self
      intro entries store conforms sized
      have start : ∀ before, occurrence.children fieldKinds = [] →
          Within fieldKinds occurrence (place fields occurrence.base before store) := by
        intro before childless
        apply within_own ⟨Nat.le_refl _, occurrence.base_lt_finish, ?_⟩ (fun _ => conforms)
        rw [childless]
        exact fun child member => absurd member List.not_mem_nil
      obtain ⟨kinds, base, expr⟩ := occurrence
      cases made_of_ok whole with
      | number value => exact passes_value held (start entries rfl) rfl
      | boolean value => exact passes_value held (start entries rfl) rfl
      | string value =>
          exact passes_constant held (start entries rfl)
            (constant_at_number (literal value rfl) constantsSmall)
      | nil => exact passes_value held (start entries rfl) rfl
      | localSlot slot =>
          have known := List.getElem?_eq_getElem (fine.localSlot slot rfl)
          obtain ⟨value, found, _⟩ := conforms _ _ known
          simp only [Expr.evaluate, found]
          apply passes_value held (start entries rfl)
          simp only [Machine.perform, place, found]
      | field index =>
          have known := List.getElem?_eq_getElem (fine.field index rfl)
          obtain ⟨value, found, _⟩ := fieldsConform _ _ known
          simp only [Expr.evaluate, found]
          apply passes_value held (start entries rfl)
          simp only [Machine.perform, place, found]
      | arithmetic firstMade restMade =>
          exact answers_arithmetic each firstMade restMade held (fine.operands .number rfl) conforms
            sized
      | negate made =>
          apply answers_unary Operation.negate rfl rfl each made held (fun _ _ _ => perform_negate _)
            _ conforms sized
          intro value fault failed mismatched
          exact ⟨.number, rfl, Operation.negate_mismatch failed mismatched,
            fine.operands .number rfl _ List.mem_cons_self⟩
      | not made =>
          apply answers_unary (fun value => .ok (.boolean !value.isTruthy)) rfl rfl each made held
            (fun _ _ _ => rfl) _ conforms sized
          intro value fault failed
          simp at failed
      | count made =>
          apply answers_unary Operation.count rfl rfl each made held (fun _ _ _ => perform_count _) _
            conforms sized
          intro value fault failed _
          exact ⟨.string, rfl, Operation.count_mismatch failed,
            fine.operands .string rfl _ List.mem_cons_self⟩
      | equal leftMade rightMade =>
          apply answers_binary (fun left right => .ok (.boolean (decide (left = right)))) rfl rfl each
            leftMade rightMade held (fun _ _ _ _ => rfl) _ conforms sized
          intro left right fault failed
          simp at failed
      | order leftMade rightMade =>
          apply answers_binary (Operation.compare _) rfl rfl each leftMade rightMade held
            (fun _ _ _ _ => perform_order _ _ _) _ conforms sized
          intro left right fault failed
          refine ⟨.number, rfl, (Operation.compare_mismatch failed).imp ?_ ?_⟩
          · exact fun unwanted => ⟨unwanted, fine.operands .number rfl _
              (List.mem_cons_of_mem _ List.mem_cons_self)⟩
          · exact fun unwanted => ⟨unwanted, fine.operands .number rfl _ List.mem_cons_self⟩
      | conjunction made =>
          exact answers_shortCircuit false rfl rfl each made held small conforms sized
      | disjunction made =>
          exact answers_shortCircuit true rfl rfl each made held small conforms sized
      | conditional testMade chosenMade otherMade =>
          exact answers_conditional each testMade chosenMade otherMade held small conforms sized
      | localBinding made =>
          exact answers_localBinding each made held (fine.numbered _ _ rfl) conforms sized
      | concat made few => exact answers_concat each made few held conforms sized
      | print made few =>
          exact answers_print each made few
            (constant_at_number (literal Constants.separator rfl) constantsSmall) held conforms sized

end Code
end Lisp
end FragmentLisp
