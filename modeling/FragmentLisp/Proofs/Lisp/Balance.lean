import FragmentLisp.Proofs.Instruction.Balance
import FragmentLisp.Proofs.Lisp.StackNeed
import FragmentLisp.Proofs.Lisp.Termination

/-!
Generated code is balanced. The code of every expression leaves one value more on the operand stack than it
has found, wherever it stands and whichever of its branches are taken, and holds no more on the way than the
expression needs. So the stack analysis accepts both methods of a type, as long as the jumps can name the
bytes that they go to.
-/

namespace FragmentLisp
namespace Lisp
namespace Code

open Instruction (Balanced)
open Machine (Confined)
open Resolution (Derived)
open StackDepth (heightAfter)

/-- Code of the expression that ends at an offset of 32 bits leaves one value, where there is room for what
the expression needs. -/
def LeavesOne (constants : Constants) (expr : Expr) : Prop :=
  ∀ base code, ofExpr constants base expr = .ok code → base + codeSize code < 2 ^ 32 →
    ∀ exits height peak, height + expr.need ≤ peak →
      Balanced exits base height (height + 1) peak code

section Lists

variable {constants : Constants} {exits : Nat → Nat → Prop} {peak : Nat}

theorem balanced_pieces {gap base height : Nat} {exprs : List Expr}
    {pieces : List (List Instruction)} {suffix : List Instruction}
    (made : Pieces constants gap base exprs pieces) (sized : codeSize suffix = gap)
    (small : base + piecesSize gap pieces < 2 ^ 32)
    (each : ∀ expr ∈ exprs, LeavesOne constants expr) (start : height ≤ peak)
    (room : ∀ expr ∈ exprs, height + expr.need ≤ peak)
    (consumed : height + 1 ≤ peak →
      ∀ offset, Balanced exits offset (height + 1) height peak suffix) :
    Balanced exits base height height peak (pieces.flatMap fun piece => piece ++ suffix) := by
  induction made with
  | nil base => exact .nil exits base start
  | @cons base expr rest code pieces head tail inductionHypothesis =>
      rw [piecesSize_cons] at small
      rw [List.flatMap_cons]
      obtain ⟨ownRoom, othersRoom⟩ := List.forall_mem_cons.mp room
      have positive := expr.need_positive
      apply Balanced.append
      · apply (each _ List.mem_cons_self _ _ head (by omega) exits height peak ownRoom).append
        exact consumed (by omega) _
      · rw [codeSize_append, sized, ← Nat.add_assoc]
        refine inductionHypothesis (by omega) ?_ othersRoom
        exact fun other member => each other (List.mem_cons_of_mem _ member)

theorem balanced_flatten {base height : Nat} {exprs : List Expr} {pieces : List (List Instruction)}
    (made : Pieces constants 0 base exprs pieces) (small : base + piecesSize 0 pieces < 2 ^ 32)
    (each : ∀ expr ∈ exprs, LeavesOne constants expr) (start : height ≤ peak)
    (room : ∀ need ∈ stacked (needs exprs), height + need ≤ peak) :
    Balanced exits base height (height + exprs.length) peak pieces.flatten := by
  induction made generalizing height with
  | nil base => exact .nil exits base start
  | @cons base expr rest code pieces head tail inductionHypothesis =>
      rw [piecesSize_cons] at small
      rw [needs, stacked_cons, List.forall_mem_cons, List.forall_mem_map] at room
      obtain ⟨ownRoom, othersRoom⟩ := room
      have positive := expr.need_positive
      rw [List.flatten_cons, List.length_cons, Nat.add_comm rest.length, ← Nat.add_assoc]
      apply (each _ List.mem_cons_self _ _ head (by omega) exits height peak ownRoom).append
      refine inductionHypothesis (by omega) ?_ (by omega) ?_
      · exact fun other member => each other (List.mem_cons_of_mem _ member)
      · exact fun need member => Nat.add_assoc height 1 need ▸ othersRoom need member

theorem balanced_intersperse {gap base height : Nat} {exprs : List Expr}
    {pieces : List (List Instruction)} {between : List Instruction}
    (made : Pieces constants gap base exprs pieces) (sized : codeSize between = gap)
    (small : base + piecesSize gap pieces < 2 ^ 32)
    (each : ∀ expr ∈ exprs, LeavesOne constants expr) (start : height ≤ peak)
    (room : ∀ need ∈ stacked ((needs exprs).intersperse 1), height + need ≤ peak)
    (pushed : ∀ offset height, height + 1 ≤ peak →
      Balanced exits offset height (height + 1) peak between) :
    Balanced exits base height (height + (2 * exprs.length - 1)) peak
      (pieces.intersperse between).flatten := by
  induction made generalizing height with
  | nil base => exact .nil exits base start
  | @cons base expr rest code pieces head tail inductionHypothesis =>
      rw [piecesSize_cons] at small
      have own := each _ List.mem_cons_self _ _ head (by omega) exits height peak
      have others := @inductionHypothesis (height + 2) (by omega) fun other member =>
        each other (List.mem_cons_of_mem _ member)
      cases tail with
      | nil => simpa using own (room _ (by simp [needs, stacked]))
      | @cons _ next more _ _ nextHead nextTail =>
          rw [stacked_separated, List.forall_mem_cons, List.forall_mem_cons, List.forall_mem_map]
            at room
          obtain ⟨ownRoom, betweenRoom, othersRoom⟩ := room
          rw [List.intersperse_cons_cons, List.flatten_cons, List.flatten_cons]
          apply (own ownRoom).append
          apply (pushed _ (height + 1) betweenRoom).append
          rw [sized]
          have counted : height + 2 + (2 * (next :: more).length - 1) =
              height + (2 * (expr :: next :: more).length - 1) := by
            simp only [List.length_cons]
            omega
          rw [← counted]
          exact others betweenRoom fun need member =>
            Nat.add_assoc height 2 need ▸ othersRoom need member

/-- Statements leave a value if the last one of them has one. -/
theorem balanced_sequence {base height : Nat} {statements : List Statement} {code : List Instruction}
    (made : Sequence constants base statements code) (small : base + codeSize code < 2 ^ 32)
    (each : ∀ statement ∈ statements, LeavesOne constants statement.value) (start : height ≤ peak)
    (room : ∀ statement ∈ statements, height + statement.value.need ≤ peak) :
    Balanced exits base height (height + (endsWithValue false statements).toNat) peak code := by
  induction made with
  | nil base => exact .nil exits base start
  | @definition base slot value rest code more head tail inductionHypothesis =>
      simp only [codeSize_append, codeSize_cons, Instruction.size] at small
      obtain ⟨ownRoom, othersRoom⟩ := List.forall_mem_cons.mp room
      have above : height + 1 ≤ peak := Nat.le_trans (Nat.add_le_add_left value.need_positive _) ownRoom
      apply (each _ List.mem_cons_self _ _ head (by omega) exits height peak ownRoom).append
      apply @Balanced.cons _ _ _ height
      · exact Balanced.plain rfl (Nat.le_add_left 1 height) rfl above start
      have others := inductionHypothesis (by omega) (fun other member =>
        each other (List.mem_cons_of_mem _ member)) othersRoom
      cases rest with
      | nil => exact others
      | cons next later =>
          rw [endsWithValue_cons false false] at others
          exact others
  | last head =>
      exact each _ List.mem_cons_self _ _ head small exits height peak (room _ List.mem_cons_self)
  | @expression base value next rest code more head tail inductionHypothesis =>
      simp only [codeSize_append, codeSize_cons, Instruction.size] at small
      obtain ⟨ownRoom, othersRoom⟩ := List.forall_mem_cons.mp room
      have above : height + 1 ≤ peak := Nat.le_trans (Nat.add_le_add_left value.need_positive _) ownRoom
      apply (each _ List.mem_cons_self _ _ head (by omega) exits height peak ownRoom).append
      apply @Balanced.cons _ _ _ height
      · exact Balanced.plain rfl (Nat.le_add_left 1 height) rfl above start
      have others := inductionHypothesis (by omega) (fun other member =>
        each other (List.mem_cons_of_mem _ member)) othersRoom
      rw [endsWithValue_cons false false] at others
      exact others

theorem balanced_stopTest (stopAtTrue : Bool) (offset : Nat) {height : Nat} (above : height + 1 ≤ peak) :
    Balanced exits offset (height + 1) (height + 1) peak (stopTest stopAtTrue) := by
  cases stopAtTrue
  · exact Balanced.nil exits offset above
  · exact Balanced.plain rfl (Nat.le_add_left 1 height) rfl above above

/-- One way goes through all operands and skips the last instruction, all others come to it. -/
theorem balanced_shortCircuit {base height : Nat} {operands : List Expr}
    {pieces : List (List Instruction)} (stopAtTrue : Bool)
    (made : Pieces constants (stopGap stopAtTrue) base operands pieces)
    (small : base + codeSize (shortCircuit stopAtTrue base pieces) < 2 ^ 32)
    (each : ∀ expr ∈ operands, LeavesOne constants expr) (above : height + 1 ≤ peak)
    (room : ∀ expr ∈ operands, height + expr.need ≤ peak) :
    Balanced exits base height (height + 1) peak (shortCircuit stopAtTrue base pieces) := by
  have start : height ≤ peak := Nat.le_of_succ_le above
  rw [shortCircuit_size] at small
  rw [shortCircuit_eq]
  have place : stopOffset stopAtTrue base pieces =
      base + piecesSize (stopGap stopAtTrue) pieces + 7 := rfl
  generalize stopOffset stopAtTrue base pieces = stopped at place
  have stoppedWord := word_toNat stopped (by omega)
  have finishWord := word_toNat (stopped + 2) (by omega)
  have operandsSize := stopPieces_size stopAtTrue (UInt32.ofNat stopped) pieces
  have split : ∀ code : List Instruction, code ++ [.pushBoolean !stopAtTrue,
      .jump (UInt32.ofNat (stopped + 2)), .pushBoolean stopAtTrue] =
        (code ++ [.pushBoolean !stopAtTrue, .jump (UInt32.ofNat (stopped + 2))]) ++
          [.pushBoolean stopAtTrue] := by
    simp
  rw [split]
  apply @Balanced.close _ _ _ _ _ _ (stopped + 2)
  · simp only [codeSize_append, codeSize_cons, codeSize_nil, operandsSize, Instruction.size]
    omega
  · apply @Balanced.append _ _ _ height
    · apply @Balanced.close _ _ _ _ _ _ stopped
      · simp only [codeSize_append, codeSize_cons, codeSize_nil, operandsSize, Instruction.size]
        omega
      · apply @Balanced.append _ _ _ height
        · refine balanced_pieces made ?_ (by omega) each start room fun _ offset => ?_
          · rw [codeSize_append, ← stopTest_size]
            rfl
          · apply (balanced_stopTest stopAtTrue offset above).append
            refine Balanced.single (Nat.le_add_left 1 height) (fun _ => rfl) (fun target jump => ?_)
              above start
            obtain rfl : stopped = target := stoppedWord ▸ Option.some.inj jump
            exact Or.inr ⟨rfl, rfl⟩
        · apply @Balanced.cons _ _ _ (height + 1)
          · exact Balanced.plain rfl (Nat.zero_le height) rfl start above
          · exact Balanced.jump (finishWord.symm ▸ Or.inl (Or.inr ⟨rfl, rfl⟩)) above start
    · exact Balanced.plain rfl (Nat.zero_le height) rfl start above

theorem balanced_conditional {base height alternative finish : Nat}
    {test chosen other : List Instruction}
    (alternativeStart : alternative = base + codeSize test + 5 + codeSize chosen + 5)
    (finishes : finish = alternative + codeSize other) (small : finish < 2 ^ 32)
    (above : height + 1 ≤ peak)
    (testBalanced : ∀ exits, Balanced exits base height (height + 1) peak test)
    (chosenBalanced :
      ∀ exits, Balanced exits (base + codeSize test + 5) height (height + 1) peak chosen)
    (otherBalanced : ∀ exits, Balanced exits alternative height (height + 1) peak other) :
    Balanced exits base height (height + 1) peak
      (test ++ [.jumpIfFalse (UInt32.ofNat alternative)] ++ chosen ++
        [.jump (UInt32.ofNat finish)] ++ other) := by
  have start : height ≤ peak := Nat.le_of_succ_le above
  have alternativeWord := word_toNat alternative (by omega)
  have finishWord := word_toNat finish small
  have chosenStart : base + codeSize (test ++ [.jumpIfFalse (UInt32.ofNat alternative)]) =
      base + codeSize test + 5 := by
    simp [Instruction.size, Nat.add_assoc]
  have before : base + codeSize (test ++ [.jumpIfFalse (UInt32.ofNat alternative)] ++ chosen ++
      [.jump (UInt32.ofNat finish)]) = alternative := by
    simp only [codeSize_append, codeSize_cons, codeSize_nil, Instruction.size]
    omega
  apply @Balanced.close _ _ _ _ _ _ finish
  · rw [codeSize_append, ← Nat.add_assoc, before, finishes]
  · apply @Balanced.append _ _ _ height
    · apply @Balanced.close _ _ _ _ _ _ alternative before.symm
      apply @Balanced.append _ _ _ (height + 1)
      · apply @Balanced.append _ _ _ height
        · apply (testBalanced _).append
          refine Balanced.single (Nat.le_add_left 1 height) (fun _ => rfl) (fun target jump => ?_)
            above start
          obtain rfl : alternative = target := alternativeWord ▸ Option.some.inj jump
          exact Or.inr ⟨rfl, rfl⟩
        · rw [chosenStart]
          exact chosenBalanced _
      · exact Balanced.jump (finishWord.symm ▸ Or.inl (Or.inr ⟨rfl, rfl⟩)) above start
    · rw [before]
      exact otherBalanced _

theorem balanced_concat {base height count : Nat} (few : count < 65536) (full : height + count ≤ peak)
    (above : height + 1 ≤ peak) :
    Balanced exits base (height + count) (height + 1) peak [.concat (UInt16.ofNat count)] := by
  have word : (UInt16.ofNat count).toNat = count := UInt16.toNat_ofNat_of_lt' few
  refine Balanced.plain rfl ?_ ?_ full above
  · simp only [Instruction.stackEffect, word]
    omega
  · simp only [heightAfter, Instruction.stackEffect, word]
    omega

end Lists

theorem leaves_one (constants : Constants) (expr : Expr) : LeavesOne constants expr := by
  induction expr using Expr.partsInduction with
  | step expr partsHypothesis =>
      intro base code succeeded small exits height peak room
      have above : height + 1 ≤ peak := Nat.le_trans (Nat.add_le_add_left expr.need_positive _) room
      have start : height ≤ peak := Nat.le_of_succ_le above
      cases made_of_ok succeeded with
      | arithmetic firstMade restMade =>
          rw [codeSize_append, codeSize_flatMap] at small
          rw [Expr.need] at room
          obtain ⟨firstRoom, restRoom⟩ := List.forall_mem_cons.mp (add_largest_le room)
          rw [List.forall_mem_map, needs_eq, List.forall_mem_map] at restRoom
          apply (partsHypothesis _ List.mem_cons_self _ _ firstMade (by omega) exits height peak
            firstRoom).append
          refine balanced_pieces restMade rfl (by rwa [← Nat.add_assoc] at small) ?_ above ?_ ?_
          · exact fun other member => partsHypothesis other (List.mem_cons_of_mem _ member)
          · exact fun other member => Nat.add_assoc height 1 _ ▸ restRoom other member
          · exact fun full offset => Balanced.plain rfl (Nat.le_add_left 2 height) rfl full above
      | negate made | not made | count made =>
          rw [codeSize_append] at small
          rw [Expr.need] at room
          apply (partsHypothesis _ List.mem_cons_self _ _ made (by omega) exits height peak room).append
          exact Balanced.plain rfl (Nat.le_add_left 1 height) rfl above above
      | equal leftMade rightMade | order leftMade rightMade =>
          simp only [codeSize_append] at small
          rw [Expr.need] at room
          obtain ⟨leftRoom, rightRoom⟩ := List.forall_mem_cons.mp (add_largest_le room)
          rw [List.forall_mem_singleton, ← Nat.add_assoc] at rightRoom
          have full : height + 2 ≤ peak :=
            Nat.le_trans (Nat.add_le_add_left (Expr.need_positive _) _) rightRoom
          refine Balanced.append ?_ (Balanced.plain rfl (Nat.le_add_left 2 height) rfl full above)
          apply (partsHypothesis _ List.mem_cons_self _ _ leftMade (by omega) exits height peak
            leftRoom).append
          exact partsHypothesis _ (List.mem_cons_of_mem _ List.mem_cons_self) _ _ rightMade
            (by omega) exits (height + 1) peak rightRoom
      | conjunction made | disjunction made =>
          rw [Expr.need, needs_eq] at room
          have operandsRoom := (List.forall_mem_cons.mp (add_largest_le room)).2
          rw [List.forall_mem_map] at operandsRoom
          exact balanced_shortCircuit _ made small partsHypothesis above operandsRoom
      | conditional testMade chosenMade otherMade =>
          simp only [codeSize_append, codeSize_cons, codeSize_nil, Instruction.size] at small
          rw [Expr.need] at room
          obtain ⟨testRoom, branchesRoom⟩ := List.forall_mem_cons.mp (add_largest_le room)
          obtain ⟨chosenRoom, otherRoom⟩ := List.forall_mem_cons.mp branchesRoom
          rw [List.forall_mem_singleton] at otherRoom
          refine balanced_conditional rfl rfl (by omega) above ?_ ?_ ?_
          · exact fun exits => partsHypothesis _ (by simp [Expr.parts]) _ _ testMade (by omega)
              exits height peak testRoom
          · exact fun exits => partsHypothesis _ (by simp [Expr.parts]) _ _ chosenMade (by omega)
              exits height peak chosenRoom
          · exact fun exits => partsHypothesis _ (by simp [Expr.parts]) _ _ otherMade (by omega)
              exits height peak otherRoom
      | @localBinding bindings body inner made =>
          rw [codeSize_append] at small
          rw [Expr.need_localBinding] at room
          have stepsRoom := (List.forall_mem_append.mp (add_largest_le room)).1
          rw [List.forall_mem_map] at stepsRoom
          have steps := @balanced_sequence _ exits peak base height _ _ made (by omega)
            (fun statement member => partsHypothesis _ (mem_bindingSteps member)) start stepsRoom
          rw [endsWithValue_bindingSteps] at steps
          apply steps.append
          cases body with
          | nil => exact Balanced.plain rfl (Nat.zero_le height) rfl start above
          | cons first rest => exact Balanced.nil exits _ above
      | @concat parts pieces made few =>
          rw [codeSize_append, codeSize_flatten] at small
          rw [Expr.need] at room
          have partsRoom := (List.forall_mem_cons.mp (add_largest_le room)).2
          have pushed := @balanced_flatten _ exits peak _ height _ _ made (by omega) partsHypothesis start
            partsRoom
          exact pushed.append (balanced_concat few pushed.finish_le above)
      | @print newline arguments pieces made few =>
          rw [codeSize_append, codeSize_intersperse] at small
          simp only [codeSize_cons, codeSize_nil, Instruction.size, Nat.add_zero] at small
          rw [Expr.need] at room
          have argumentsRoom := (List.forall_mem_cons.mp (add_largest_le room)).2
          have between := @balanced_intersperse _ exits peak _ _ height _ _
            [.pushConstant (constants.number Constants.separator)] made rfl (by omega) partsHypothesis
            start argumentsRoom fun _ height full =>
              Balanced.plain rfl (Nat.zero_le height) rfl (Nat.le_of_succ_le full) full
          apply between.append
          apply (balanced_concat few between.finish_le above).cons
          apply @Balanced.cons _ _ _ height
          · exact Balanced.plain rfl (Nat.le_add_left 1 height) rfl above start
          · exact Balanced.plain rfl (Nat.zero_le height) rfl start above
      | _ => exact Balanced.plain rfl (Nat.zero_le height) rfl start above

/-! Methods. -/

theorem method_of_balanced {name : String} {locals : UInt16} {returnsValue : Bool}
    {instructions : List Instruction} {finish peak : Nat}
    (balanced : Balanced (fun _ _ => False) 0 0 finish peak instructions)
    (confined : Confined instructions) (small : codeSize instructions < 2 ^ 32) :
    ∃ made, method name locals returnsValue instructions = .ok made := by
  obtain ⟨needed, measured, _⟩ := balanced.analysed confined
  have below := maxStackDepth_le_size measured
  rw [Instruction.size_encodeAll] at below
  have encoded : (Assembly.empty.extend instructions).encode =
      (Instruction.encodeAll instructions).toArray := by
    simp [Assembly.encode, Assembly.extend, Assembly.empty]
  unfold method
  simp only [encoded, measured]
  rw [if_pos (by omega)]
  exact ⟨_, rfl⟩

theorem pushField_effect {constants : Constants} {field : Field} {push : Instruction}
    (succeeded : pushField constants field = .ok push) :
    push.stackEffect = (0, 1) ∧ push.size ≤ 9 := by
  unfold pushField at succeeded
  split at succeeded
  · obtain rfl := Except.ok.inj succeeded
    exact ⟨rfl, Nat.le_refl _⟩
  · obtain rfl := Except.ok.inj succeeded
    exact ⟨rfl, by simp [Instruction.size]⟩
  · obtain rfl := Except.ok.inj succeeded
    exact ⟨rfl, by simp [Instruction.size]⟩
  · obtain rfl := Except.ok.inj succeeded
    exact ⟨rfl, by simp [Instruction.size]⟩
  · simp at succeeded

theorem balanced_fills {constants : Constants} {exits : Nat → Nat → Prop} {index base : Nat}
    {fields : List Field} {code : List Instruction} (fills : Fills constants index fields code) :
    Balanced exits base 0 0 (constructorNeed fields) code ∧
      codeSize code ≤ 12 * fields.length + 1 := by
  induction fills generalizing base with
  | nil index =>
      exact ⟨Balanced.plain rfl (Nat.zero_le 0) rfl (Nat.zero_le 0) (Nat.zero_le 0), Nat.le_refl _⟩
  | @cons index field rest push code head tail inductionHypothesis =>
      obtain ⟨effect, size⟩ := pushField_effect head
      constructor
      · apply @Balanced.cons _ _ _ 1
        · refine Balanced.plain (pushField_ok head).1 ?_ ?_ (Nat.zero_le 1) (Nat.le_refl 1)
          · rw [effect]
          · simp [heightAfter, effect]
        · apply @Balanced.cons _ _ _ 0
          · exact Balanced.plain rfl (Nat.le_refl 1) rfl (Nat.le_refl 1) (Nat.zero_le 1)
          · exact inductionHypothesis.1.raise (constructorNeed_le rest)
      · have others := (@inductionHypothesis base).2
        have store : (Instruction.storeField (UInt16.ofNat index)).size = 3 := rfl
        simp only [codeSize_cons, store, List.length_cons]
        omega

theorem Fills.confined {constants : Constants} {fields : List Field} {code : List Instruction}
    (fills : Fills constants 0 fields code) : Confined code :=
  Machine.confined_of_directed (Instruction.Directed.nil (fun _ => True) (fun _ => False) 0)
    fills.closing

theorem constructor_of_fills {constants : Constants} {fields : List Field} {code : List Instruction}
    (fills : Fills constants 0 fields code) (few : fields.length ≤ 65535) (name : String) :
    ∃ made, method name 0 false code = .ok made := by
  obtain ⟨balanced, size⟩ := @balanced_fills _ (fun _ _ => False) _ 0 _ _ fills
  exact method_of_balanced balanced fills.confined (by omega)

/-- A constructor needs room for no more than one value. -/
theorem stack_of_fills {constants : Constants} {fields : List Field} {code : List Instruction}
    {needed : Nat} (fills : Fills constants 0 fields code)
    (measured : maxStackDepth (Instruction.encodeAll code).toArray = .ok needed) : needed ≤ 1 := by
  obtain ⟨other, again, below⟩ := (balanced_fills fills).1.analysed fills.confined
  obtain rfl := Except.ok.inj (measured.symm.trans again)
  exact Nat.le_trans below (constructorNeed_le fields)

section Entry

variable {constants : Constants} {body : Body} {running : List Instruction}
variable (runs : Sequence constants 0 body.statements running)
variable (small : codeSize (running ++ ending body) < 2 ^ 32)

include runs small

/-- The code of an entry method is never left. -/
theorem confined_of_sequence : Confined (running ++ ending body) := by
  have width := sequence_width runs fun statement _ => has_width statement.value
  rw [codeSize_append] at small
  have forward := @forward_of_sequence _ _ _ runs (by omega) (fun _ => True)
    (fun _ _ => trivial) (fun _ _ _ => trivial) [] (fun _ _ _ _ _ _ => trivial)
  exact Machine.confined_of_directed forward (closing_ending body)

theorem balanced_entry
    (closed : ∀ slot value, body.statements.getLast? = some (.definition slot value) →
      body.result? = none) :
    ∃ finish, Balanced (fun _ _ => False) 0 0 finish body.need (running ++ ending body) := by
  rw [codeSize_append] at small
  have positive := body.need_positive
  have steps := @balanced_sequence _ (fun _ _ => False) body.need 0 0 _ _ runs (by omega)
    (fun statement _ => leaves_one constants statement.value) (Nat.zero_le _)
    fun statement member => Nat.zero_add _ ▸ Body.le_need member
  unfold ending
  cases known : body.result? with
  | none =>
      exact ⟨_, steps.append (Balanced.plain rfl (Nat.zero_le _) rfl steps.finish_le steps.finish_le)⟩
  | some kind =>
      refine ⟨0, steps.append ?_⟩
      unfold endsWithValue
      cases last : body.statements.getLast? with
      | none =>
          apply @Balanced.cons _ _ _ 1
          · exact Balanced.plain rfl (Nat.zero_le 0) rfl (Nat.zero_le _) positive
          · exact Balanced.plain rfl (Nat.le_refl 1) rfl positive (Nat.zero_le _)
      | some statement =>
          cases statement with
          | expression value =>
              exact Balanced.plain rfl (Nat.le_refl 1) rfl positive (Nat.zero_le _)
          | definition slot value =>
              rw [closed slot value last] at known
              simp at known

/-- The entry method of a resolved body can be made, if its code is small enough for jumps. -/
theorem entry_of_sequence {fields : List Field} {nodes : List Node}
    (derived : Derived fields nodes body) (name : String) :
    ∃ made, method name body.locals body.result?.isSome (running ++ ending body) = .ok made := by
  have declared := declared_of_derived derived
  unfold endsWithValue at declared
  obtain ⟨finish, balanced⟩ := balanced_entry runs small fun slot value last => by
    rwa [last, Option.isSome_eq_false_iff, Option.isNone_iff_eq_none] at declared
  exact method_of_balanced balanced (confined_of_sequence runs small) small

end Entry

end Code
end Lisp
end FragmentLisp
