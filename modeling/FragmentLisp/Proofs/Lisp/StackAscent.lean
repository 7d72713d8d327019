import FragmentLisp.Proofs.Lisp.Balance

/-!
Execution does come to the heights that expressions need. Whatever relation of offsets and heights the code
of an expression carries, it is carried from the first byte to the end of the code, one value higher, and to
a place where the stack holds all that the expression needs. The instruction that nothing comes to, in a
form that may stop early but has no operands, is not on the way.
-/

namespace FragmentLisp
namespace Lisp
namespace Code

open Instruction (Carries)
open StackDepth (heightAfter)

/-- Execution comes from the start of the code of the expression to its end, with one value more, and on the
way to what the expression needs. -/
def Ascends (constants : Constants) (expr : Expr) : Prop :=
  ∀ base code, ofExpr constants base expr = .ok code → base + codeSize code < 2 ^ 32 →
    ∀ reached, Carries reached base code → ∀ height, reached base height →
      reached (base + codeSize code) (height + 1) ∧
        ∃ offset, reached offset (height + expr.need)

section Lists

variable {constants : Constants} {reached : Nat → Nat → Prop}

theorem ascends_pieces {gap base height : Nat} {exprs : List Expr}
    {pieces : List (List Instruction)} {suffix : List Instruction}
    (made : Pieces constants gap base exprs pieces) (sized : codeSize suffix = gap)
    (small : base + piecesSize gap pieces < 2 ^ 32) (each : ∀ expr ∈ exprs, Ascends constants expr)
    (consumed : ∀ offset, Carries reached offset suffix → reached offset (height + 1) →
      reached (offset + gap) height)
    (carries : Carries reached base (pieces.flatMap fun piece => piece ++ suffix))
    (start : reached base height) :
    reached (base + piecesSize gap pieces) height ∧
      ∀ expr ∈ exprs, ∃ offset, reached offset (height + expr.need) := by
  induction made with
  | nil base => exact ⟨start, fun expr member => absurd member List.not_mem_nil⟩
  | @cons base expr rest code pieces head tail inductionHypothesis =>
      rw [piecesSize_cons] at small ⊢
      rw [List.flatMap_cons, Carries.append_iff, Carries.append_iff, codeSize_append, sized,
        ← Nat.add_assoc] at carries
      obtain ⟨⟨carriesOwn, carriesSuffix⟩, carriesOthers⟩ := carries
      obtain ⟨left, attained⟩ :=
        each _ List.mem_cons_self _ _ head (by omega) reached carriesOwn height start
      obtain ⟨arrived, others⟩ := inductionHypothesis (by omega)
        (fun other member => each other (List.mem_cons_of_mem _ member)) carriesOthers
        (consumed _ carriesSuffix left)
      rw [← Nat.add_assoc, ← Nat.add_assoc]
      exact ⟨arrived, List.forall_mem_cons.mpr ⟨attained, others⟩⟩

theorem ascends_flatten {base height : Nat} {exprs : List Expr} {pieces : List (List Instruction)}
    (made : Pieces constants 0 base exprs pieces) (small : base + piecesSize 0 pieces < 2 ^ 32)
    (each : ∀ expr ∈ exprs, Ascends constants expr) (carries : Carries reached base pieces.flatten)
    (start : reached base height) :
    reached (base + piecesSize 0 pieces) (height + exprs.length) ∧
      ∀ need ∈ stacked (needs exprs), ∃ offset, reached offset (height + need) := by
  induction made generalizing height with
  | nil base => exact ⟨start, fun need member => absurd member List.not_mem_nil⟩
  | @cons base expr rest code pieces head tail inductionHypothesis =>
      rw [piecesSize_cons] at small ⊢
      rw [List.flatten_cons, Carries.append_iff] at carries
      obtain ⟨left, attained⟩ :=
        each _ List.mem_cons_self _ _ head (by omega) reached carries.1 height start
      obtain ⟨arrived, others⟩ := inductionHypothesis (by omega)
        (fun other member => each other (List.mem_cons_of_mem _ member)) carries.2 left
      rw [needs, stacked_cons, List.forall_mem_cons, List.forall_mem_map, List.length_cons,
        Nat.add_comm rest.length]
      simp only [← Nat.add_assoc]
      exact ⟨arrived, attained, others⟩

theorem ascends_intersperse {gap base height : Nat} {exprs : List Expr}
    {pieces : List (List Instruction)} {between : List Instruction}
    (made : Pieces constants gap base exprs pieces) (sized : codeSize between = gap)
    (small : base + piecesSize gap pieces < 2 ^ 32) (each : ∀ expr ∈ exprs, Ascends constants expr)
    (pushed : ∀ offset height, Carries reached offset between → reached offset height →
      reached (offset + gap) (height + 1))
    (carries : Carries reached base (pieces.intersperse between).flatten)
    (start : reached base height) :
    reached (base + codeSize (pieces.intersperse between).flatten)
        (height + (2 * exprs.length - 1)) ∧
      ∀ need ∈ stacked ((needs exprs).intersperse 1), ∃ offset, reached offset (height + need) := by
  induction made generalizing height with
  | nil base => exact ⟨start, fun need member => absurd member List.not_mem_nil⟩
  | @cons base expr rest code pieces head tail inductionHypothesis =>
      rw [piecesSize_cons] at small
      have own := each _ List.mem_cons_self _ _ head (by omega) reached
      cases tail with
      | nil => simpa [needs, stacked] using own (by simpa using carries) height start
      | @cons _ next more _ _ nextHead nextTail =>
          rw [List.intersperse_cons_cons, List.flatten_cons, List.flatten_cons, Carries.append_iff,
            Carries.append_iff, sized] at carries
          obtain ⟨carriesOwn, carriesBetween, carriesOthers⟩ := carries
          obtain ⟨left, attained⟩ := own carriesOwn height start
          have separated := pushed _ _ carriesBetween left
          obtain ⟨arrived, others⟩ := inductionHypothesis (by omega)
            (fun other member => each other (List.mem_cons_of_mem _ member)) carriesOthers separated
          rw [stacked_separated, List.forall_mem_cons, List.forall_mem_cons, List.forall_mem_map]
          refine ⟨?_, attained, ⟨_, separated⟩, fun need member => ?_⟩
          · have counted : height + 1 + 1 + (2 * (next :: more).length - 1) =
                height + (2 * (expr :: next :: more).length - 1) := by
              simp only [List.length_cons]
              omega
            rw [List.intersperse_cons_cons, List.flatten_cons, List.flatten_cons, codeSize_append,
              codeSize_append, sized, ← Nat.add_assoc, ← Nat.add_assoc, ← counted]
            exact arrived
          · exact Nat.add_assoc height 2 need ▸ others need member

theorem ascends_sequence {base height : Nat} {statements : List Statement} {code : List Instruction}
    (made : Sequence constants base statements code) (small : base + codeSize code < 2 ^ 32)
    (each : ∀ statement ∈ statements, Ascends constants statement.value)
    (carries : Carries reached base code) (start : reached base height) :
    reached (base + codeSize code) (height + (endsWithValue false statements).toNat) ∧
      ∀ statement ∈ statements, ∃ offset, reached offset (height + statement.value.need) := by
  induction made with
  | nil base => exact ⟨start, fun statement member => absurd member List.not_mem_nil⟩
  | @definition base slot value rest code more head tail inductionHypothesis =>
      simp only [codeSize_append, codeSize_cons, Instruction.size, ← Nat.add_assoc] at small ⊢
      rw [Carries.append_iff] at carries
      obtain ⟨left, attained⟩ :=
        each _ List.mem_cons_self _ _ head (by omega) reached carries.1 height start
      have stored := carries.2.through rfl left (Nat.le_add_left 1 height)
      obtain ⟨arrived, others⟩ := inductionHypothesis (by omega)
        (fun other member => each other (List.mem_cons_of_mem _ member)) carries.2.behind stored
      refine ⟨?_, List.forall_mem_cons.mpr ⟨attained, others⟩⟩
      cases rest with
      | nil => exact arrived
      | cons next later =>
          rw [endsWithValue_cons false false] at arrived
          exact arrived
  | last head =>
      obtain ⟨left, attained⟩ :=
        each _ List.mem_cons_self _ _ head small reached carries height start
      exact ⟨left, List.forall_mem_singleton.mpr attained⟩
  | @expression base value next rest code more head tail inductionHypothesis =>
      simp only [codeSize_append, codeSize_cons, Instruction.size, ← Nat.add_assoc] at small ⊢
      rw [Carries.append_iff] at carries
      obtain ⟨left, attained⟩ :=
        each _ List.mem_cons_self _ _ head (by omega) reached carries.1 height start
      have dropped := carries.2.through rfl left (Nat.le_add_left 1 height)
      obtain ⟨arrived, others⟩ := inductionHypothesis (by omega)
        (fun other member => each other (List.mem_cons_of_mem _ member)) carries.2.behind dropped
      rw [endsWithValue_cons false false] at arrived
      exact ⟨arrived, List.forall_mem_cons.mpr ⟨attained, others⟩⟩

/-- One way goes through all operands and jumps over the last instruction. -/
theorem ascends_shortCircuit {base height : Nat} {operands : List Expr}
    {pieces : List (List Instruction)} (stopAtTrue : Bool)
    (made : Pieces constants (stopGap stopAtTrue) base operands pieces)
    (small : base + codeSize (shortCircuit stopAtTrue base pieces) < 2 ^ 32)
    (each : ∀ expr ∈ operands, Ascends constants expr)
    (carries : Carries reached base (shortCircuit stopAtTrue base pieces))
    (start : reached base height) :
    reached (base + codeSize (shortCircuit stopAtTrue base pieces)) (height + 1) ∧
      ∀ expr ∈ operands, ∃ offset, reached offset (height + expr.need) := by
  rw [shortCircuit_size] at small ⊢
  rw [shortCircuit_eq, Carries.append_iff, stopPieces_size] at carries
  have finishWord := word_toNat (stopOffset stopAtTrue base pieces + 2) (by
    unfold stopOffset
    omega)
  have sized : codeSize (stopTest stopAtTrue ++
      [.jumpIfFalse (UInt32.ofNat (stopOffset stopAtTrue base pieces))]) = stopGap stopAtTrue := by
    rw [codeSize_append, ← stopTest_size]
    rfl
  have consumed : ∀ offset, Carries reached offset (stopTest stopAtTrue ++
      [.jumpIfFalse (UInt32.ofNat (stopOffset stopAtTrue base pieces))]) →
      reached offset (height + 1) → reached (offset + stopGap stopAtTrue) height := by
    intro offset carriesTest left
    cases stopAtTrue with
    | false => exact carriesTest.through rfl left (Nat.le_add_left 1 height)
    | true =>
        have inverted := carriesTest.through rfl left (Nat.le_add_left 1 height)
        exact carriesTest.behind.through rfl inverted (Nat.le_add_left 1 height)
  obtain ⟨passed, attained⟩ := ascends_pieces made sized (by omega) each consumed carries.1 start
  have answered := carries.2.through rfl passed (Nat.zero_le height)
  have jumped := carries.2.behind.jumped rfl answered (Nat.zero_le _)
  rw [finishWord] at jumped
  exact ⟨jumped, attained⟩

/-- Both branches are come to, and both end where the form ends. -/
theorem ascends_conditional {base height alternativeStart finish : Nat}
    {condition consequent alternative : Expr} {test chosen other : List Instruction}
    (testMade : ofExpr constants base condition = .ok test)
    (chosenMade : ofExpr constants (base + codeSize test + 5) consequent = .ok chosen)
    (otherMade : ofExpr constants alternativeStart alternative = .ok other)
    (alternativePlace : alternativeStart = base + codeSize test + 5 + codeSize chosen + 5)
    (finishes : finish = alternativeStart + codeSize other) (small : finish < 2 ^ 32)
    (each : ∀ part ∈ [condition, consequent, alternative], Ascends constants part)
    (carries : Carries reached base
      (test ++ [.jumpIfFalse (UInt32.ofNat alternativeStart)] ++ chosen ++
        [.jump (UInt32.ofNat finish)] ++ other))
    (start : reached base height) :
    reached finish (height + 1) ∧ (∃ offset, reached offset (height + condition.need)) ∧
      (∃ offset, reached offset (height + consequent.need)) ∧
      ∃ offset, reached offset (height + alternative.need) := by
  rw [List.forall_mem_cons, List.forall_mem_cons, List.forall_mem_singleton] at each
  obtain ⟨testEach, chosenEach, otherEach⟩ := each
  simp only [Carries.append_iff, codeSize_append, codeSize_cons, codeSize_nil, Instruction.size,
    Nat.add_zero, ← Nat.add_assoc, ← alternativePlace] at carries
  obtain ⟨⟨⟨⟨carriesTest, branching⟩, carriesChosen⟩, leaving⟩, carriesOther⟩ := carries
  obtain ⟨tested, testAttained⟩ :=
    testEach _ _ testMade (by omega) reached carriesTest height start
  have passed := branching.through rfl tested (Nat.le_add_left 1 height)
  have branched := branching.jumped rfl tested (Nat.le_add_left 1 height)
  rw [word_toNat alternativeStart (by omega)] at branched
  obtain ⟨chose, chosenAttained⟩ :=
    chosenEach _ _ chosenMade (by omega) reached carriesChosen height passed
  obtain ⟨_, otherAttained⟩ :=
    otherEach _ _ otherMade (by omega) reached carriesOther height branched
  have left := leaving.jumped rfl chose (Nat.zero_le _)
  rw [word_toNat finish small] at left
  exact ⟨left, testAttained, chosenAttained, otherAttained⟩

theorem joined_of_concat {base height count : Nat} {rest : List Instruction}
    (carries : Carries reached base (.concat (UInt16.ofNat count) :: rest)) (few : count < 65536)
    (pushed : reached base (height + count)) : reached (base + 3) (height + 1) := by
  have word : (UInt16.ofNat count).toNat = count := UInt16.toNat_ofNat_of_lt' few
  have joined := carries.through rfl pushed (by
    simp only [Instruction.stackEffect, word]
    omega)
  rwa [heightAfter, Instruction.stackEffect, word, Nat.add_sub_cancel] at joined

end Lists

theorem exists_largest {reached : Nat → Nat → Prop} {height : Nat} {numbers : List Nat}
    (nonempty : numbers ≠ [])
    (each : ∀ number ∈ numbers, ∃ offset, reached offset (height + number)) :
    ∃ offset, reached offset (height + largest numbers) :=
  each _ (largest_mem nonempty)

theorem ascends (constants : Constants) (expr : Expr) : Ascends constants expr := by
  induction expr using Expr.partsInduction with
  | step expr partsHypothesis =>
      intro base code succeeded small reached carries height start
      cases made_of_ok succeeded with
      | arithmetic firstMade restMade =>
          rw [codeSize_append, codeSize_flatMap] at small ⊢
          rw [Carries.append_iff] at carries
          obtain ⟨left, firstAttained⟩ := partsHypothesis _ List.mem_cons_self _ _ firstMade (by omega)
            reached carries.1 height start
          obtain ⟨arrived, restAttained⟩ := ascends_pieces restMade rfl
            (by rwa [← Nat.add_assoc] at small)
            (fun other member => partsHypothesis other (List.mem_cons_of_mem _ member))
            (fun offset combining both => combining.through rfl both (Nat.le_add_left 2 height))
            carries.2 left
          refine ⟨Nat.add_assoc base _ _ ▸ arrived, exists_largest (List.cons_ne_nil _ _) ?_⟩
          rw [List.forall_mem_cons, List.forall_mem_map, needs_eq, List.forall_mem_map]
          refine ⟨firstAttained, fun other member => ?_⟩
          exact Nat.add_assoc height 1 _ ▸ restAttained other member
      | negate made | not made | count made =>
          rw [codeSize_append] at small ⊢
          rw [Carries.append_iff] at carries
          obtain ⟨left, attained⟩ := partsHypothesis _ List.mem_cons_self _ _ made (by omega)
            reached carries.1 height start
          rw [Expr.need, ← Nat.add_assoc]
          exact ⟨carries.2.through rfl left (Nat.le_add_left 1 height), attained⟩
      | equal leftMade rightMade | order leftMade rightMade =>
          simp only [codeSize_append] at small
          rw [Carries.append_iff, Carries.append_iff] at carries
          obtain ⟨⟨carriesLeft, carriesRight⟩, comparing⟩ := carries
          obtain ⟨left, leftAttained⟩ := partsHypothesis _ List.mem_cons_self _ _ leftMade (by omega)
            reached carriesLeft height start
          obtain ⟨both, rightAttained⟩ := partsHypothesis _ (List.mem_cons_of_mem _ List.mem_cons_self)
            _ _ rightMade (by omega) reached carriesRight (height + 1) left
          rw [codeSize_append, ← Nat.add_assoc] at comparing
          have compared := comparing.through rfl both (Nat.le_add_left 2 height)
          rw [codeSize_append, codeSize_append, ← Nat.add_assoc, ← Nat.add_assoc]
          refine ⟨compared, exists_largest (List.cons_ne_nil _ _) ?_⟩
          rw [List.forall_mem_cons, List.forall_mem_singleton, ← Nat.add_assoc]
          exact ⟨leftAttained, rightAttained⟩
      | conjunction made | disjunction made =>
          obtain ⟨arrived, attained⟩ :=
            ascends_shortCircuit _ made small partsHypothesis carries start
          refine ⟨arrived, exists_largest (List.cons_ne_nil _ _) ?_⟩
          rw [List.forall_mem_cons, needs_eq, List.forall_mem_map]
          exact ⟨⟨_, arrived⟩, attained⟩
      | conditional testMade chosenMade otherMade =>
          simp only [codeSize_append, codeSize_cons, codeSize_nil, Instruction.size, Nat.add_zero,
            ← Nat.add_assoc] at small ⊢
          obtain ⟨arrived, attained⟩ := ascends_conditional testMade chosenMade otherMade rfl rfl small
            partsHypothesis carries start
          refine ⟨arrived, exists_largest (List.cons_ne_nil _ _) ?_⟩
          rw [List.forall_mem_cons, List.forall_mem_cons, List.forall_mem_singleton]
          exact attained
      | @localBinding bindings body inner made =>
          rw [codeSize_append] at small ⊢
          rw [Carries.append_iff] at carries
          obtain ⟨ran, attained⟩ := ascends_sequence made (by omega)
            (fun statement member => partsHypothesis _ (mem_bindingSteps member)) carries.1 start
          rw [endsWithValue_bindingSteps] at ran
          rw [Expr.need_localBinding, ← Nat.add_assoc]
          cases body with
          | nil =>
              have pushed := carries.2.through rfl ran (Nat.zero_le height)
              refine ⟨pushed, exists_largest (by simp) ?_⟩
              rw [List.forall_mem_append, List.forall_mem_map]
              exact ⟨attained, List.forall_mem_singleton.mpr ⟨_, pushed⟩⟩
          | cons first rest =>
              refine ⟨ran, exists_largest (by simp [bindingSteps]) ?_⟩
              rw [List.forall_mem_append, List.forall_mem_map]
              exact ⟨attained, fun need member => absurd member List.not_mem_nil⟩
      | @concat parts pieces made few =>
          rw [codeSize_append, codeSize_flatten] at small ⊢
          rw [Carries.append_iff, codeSize_flatten] at carries
          obtain ⟨pushed, attained⟩ :=
            ascends_flatten made (by omega) partsHypothesis carries.1 start
          have joined := joined_of_concat carries.2 few pushed
          refine ⟨Nat.add_assoc base _ _ ▸ joined, exists_largest (List.cons_ne_nil _ _) ?_⟩
          exact List.forall_mem_cons.mpr ⟨⟨_, joined⟩, attained⟩
      | @print newline arguments pieces made few =>
          rw [codeSize_append] at small ⊢
          have whole := codeSize_intersperse
            [.pushConstant (constants.number Constants.separator)] pieces
          rw [Carries.append_iff] at carries
          have small : base + piecesSize 5 pieces < 2 ^ 32 := by
            simp only [codeSize_cons, codeSize_nil, Instruction.size, Nat.add_zero] at small whole
            omega
          obtain ⟨pushed, attained⟩ := ascends_intersperse made rfl small partsHypothesis
            (fun offset height (pushing : Carries reached offset [.pushConstant _]) found =>
              pushing.through rfl found (Nat.zero_le height)) carries.1 start
          have joined := joined_of_concat carries.2 few pushed
          have printed := carries.2.behind.through rfl joined (Nat.le_add_left 1 height)
          have answered := carries.2.behind.behind.through rfl printed (Nat.zero_le height)
          refine ⟨Nat.add_assoc base _ _ ▸ answered, exists_largest (List.cons_ne_nil _ _) ?_⟩
          exact List.forall_mem_cons.mpr ⟨⟨_, joined⟩, attained⟩
      | _ =>
          have pushed := carries.through rfl start (Nat.zero_le height)
          exact ⟨pushed, _, pushed⟩

end Code
end Lisp
end FragmentLisp
