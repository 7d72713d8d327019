import FragmentLisp.Lisp.Source
import FragmentLisp.Proofs.History
import FragmentLisp.Proofs.Reader.Soundness

/-!
How deep a source nests. The reader counts the open levels and gives up at the first one that is too deep,
while wrapping measures the finished nodes. Both keep to one measure, so what has been read under a limit
is never refused under the same limit for its depth.
-/

namespace FragmentLisp
namespace Reader

/-- A smaller limit refuses what is deeper, and changes nothing else. -/
theorem read_smaller_iff {source : String} {limit larger : Nat} {nodes : List Node}
    (smaller : limit ≤ larger) :
    read source limit = .ok nodes ↔
      read source larger = .ok nodes ∧ ∀ node ∈ nodes, node.depth ≤ limit := by
  rw [read_eq_ok_iff, read_eq_ok_iff]
  constructor
  · rintro ⟨text, ending, split, spells, last, shallow⟩
    exact ⟨⟨text, ending, split, spells, last,
      fun node member => Nat.le_trans (shallow node member) smaller⟩, shallow⟩
  · rintro ⟨⟨text, ending, split, spells, last, -⟩, shallow⟩
    exact ⟨text, ending, split, spells, last, shallow⟩

end Reader

namespace CompilationUnit

variable {options : Options} {depth limit : Nat}

theorem checkShape_ne_tooDeep (shape : Shape) :
    checkShape options shape ≠ .error (.tooDeep depth limit) := by
  unfold checkShape
  split
  · simp
  · simp
  · split <;> simp
  · simp
  · simp

theorem deep_of_checkOptions {measured : Nat}
    (refused : checkOptions options measured = .error (.tooDeep depth limit)) :
    options.nestingLimit < measured := by
  unfold checkOptions at refused
  split at refused
  · assumption
  · split at refused
    · simp at refused
    · split at refused <;> simp at refused

theorem checkBindings_ne_tooDeep (bindings : Bindings) :
    checkBindings bindings ≠ .error (.tooDeep depth limit) := by
  unfold checkBindings
  split <;> simp

/-- Wrapping refuses a fragment for its depth only if it nests deeper than the host allows. -/
theorem deep_of_wrap {Fragment : Type} {frontEnd : FrontEnd Fragment} {bindings : Bindings}
    {number : UInt64} {fragment : Fragment}
    (refused : wrap frontEnd options bindings number fragment = .error (.tooDeep depth limit)) :
    options.nestingLimit < (frontEnd.inspect fragment).depth := by
  simp only [wrap, bind, Except.bind] at refused
  split at refused
  · rename_i shaped
    rw [Except.error.inj refused] at shaped
    exact absurd shaped (checkShape_ne_tooDeep _)
  · split at refused
    · rename_i checked
      rw [Except.error.inj refused] at checked
      exact deep_of_checkOptions checked
    · split at refused
      · rename_i bound
        rw [Except.error.inj refused] at bound
        exact absurd bound (checkBindings_ne_tooDeep bindings)
      · cases refused

end CompilationUnit

namespace Lisp

theorem Fragment.depth_le_iff {fragment : Fragment} {bound : Nat} :
    fragment.depth ≤ bound ↔ ∀ node ∈ fragment, node.depth ≤ bound := by
  have folded : ∀ (nodes : List Node) (deepest : Nat),
      nodes.foldl (fun deepest node => max deepest node.depth) deepest ≤ bound ↔
        deepest ≤ bound ∧ ∀ node ∈ nodes, node.depth ≤ bound := by
    intro nodes
    induction nodes with
    | nil => simp
    | cons node rest inductionHypothesis =>
        intro deepest
        rw [List.foldl_cons, inductionHypothesis, Nat.max_le, List.forall_mem_cons, and_assoc]
  exact (folded fragment 0).trans (and_iff_right (Nat.zero_le bound))

theorem wrap_of_read [ObjectFormat] {options : Options} {source : String} {nodes : List Node}
    (accepted : Reader.read source options.nestingLimit = .ok nodes) (bindings : Bindings)
    (number : UInt64) (depth limit : Nat) :
    CompilationUnit.wrap frontEnd options bindings number nodes ≠ .error (.tooDeep depth limit) := by
  intro refused
  have shallow := ((Reader.read_smaller_iff (Nat.le_refl options.nestingLimit)).mp accepted).2
  have deep : options.nestingLimit < Fragment.depth nodes := CompilationUnit.deep_of_wrap refused
  rw [← Fragment.depth_le_iff] at shallow
  omega

end Lisp

/-- The message of a refusal for depth begins like no other. -/
theorem WrapError.deep_of_message {error : WrapError} {depth limit : Nat}
    (same : error.message = (tooDeep depth limit).message) :
    ∃ depth limit, error = .tooDeep depth limit := by
  have front : error.message.toList.take 10 = "fragment n".toList := by
    rw [same]
    simp [message, String.join]
  cases error with
  | tooDeep depth limit => exact ⟨depth, limit, rfl⟩
  | _ => simp [message, String.join, TypeDefinition.constructorName] at front

namespace Host

theorem wrapped_of_invalid [ObjectFormat] {Fragment : Type} {host : Host}
    {frontEnd : FrontEnd Fragment} {options : Options} {bindings : Bindings} {steps : Nat} {fragment : Fragment} {error : EvalError}
    (answered : (host.evaluate frontEnd options bindings steps fragment).1 = some (.error error))
    (invalid : error.kind = .invalidFragment) :
    ∃ refusal, CompilationUnit.wrap frontEnd options bindings host.nextNumber fragment =
      .error refusal ∧ error = .ofWrapping refusal := by
  unfold evaluate at answered
  split at answered
  · rename_i refusal wrapped
    exact ⟨refusal, wrapped, (Except.error.inj (Option.some.inj answered)).symm⟩
  · split at answered
    · rename_i compilation _
      obtain rfl := Except.error.inj (Option.some.inj answered)
      cases compilation <;> simp [EvalError.ofCompilation] at invalid
    · split at answered
      · obtain rfl := Except.error.inj (Option.some.inj answered)
        simp [EvalError.ofLoading] at invalid
      · rcases execute_error answered with other | other <;> rw [other] at invalid <;> cases invalid

/-- Evaluating a source never answers that the fragment nests too deep. -/
theorem evaluateSource_ne_tooDeep [ObjectFormat] (host : Host) (options : Options)
    (bindings : Bindings) (steps : Nat) (source : String) (depth limit : Nat) :
    (host.evaluateSource options bindings steps source).1 ≠
      some (.error (.ofWrapping (.tooDeep depth limit))) := by
  intro answered
  unfold evaluateSource at answered
  split at answered
  · have same := Except.error.inj (Option.some.inj answered)
    simp [EvalError.ofReading, EvalError.ofWrapping] at same
  · rename_i nodes accepted
    obtain ⟨refusal, refused, same⟩ := wrapped_of_invalid answered rfl
    obtain ⟨deep, most, rfl⟩ := WrapError.deep_of_message (congrArg EvalError.message same.symm)
    exact Lisp.wrap_of_read accepted bindings host.nextNumber deep most refused

end Host

/-- Reading under a smaller limit is reading under a larger one and measuring the nodes, and the measure
is the height of the tree. So neither wrapping nor the answer of a host ever refuses for its depth what
has been read under the limit of the host. -/
theorem nesting_limits_agree [ObjectFormat] (source : String) {limit larger : Nat} (smaller : limit ≤ larger) :
    (∀ nodes, Reader.read source limit = .ok nodes ↔
      Reader.read source larger = .ok nodes ∧ ∀ node ∈ nodes, node.depth ≤ limit) ∧
    (∀ node : Node, node.depth = node.nesting) ∧
    (∀ (options : Options) (bindings : Bindings) (number : UInt64) (nodes : List Node)
      (depth most : Nat), Reader.read source options.nestingLimit = .ok nodes →
        CompilationUnit.wrap Lisp.frontEnd options bindings number nodes ≠
          .error (.tooDeep depth most)) ∧
    ∀ (host : Host) (options : Options) (bindings : Bindings) (steps depth most : Nat),
      (host.evaluateSource options bindings steps source).1 ≠
        some (.error (.ofWrapping (.tooDeep depth most))) :=
  ⟨fun _ => Reader.read_smaller_iff smaller, Node.depth_eq_nesting,
    fun _ bindings number _ depth most accepted =>
      Lisp.wrap_of_read accepted bindings number depth most,
    fun host options bindings steps depth most =>
      host.evaluateSource_ne_tooDeep options bindings steps source depth most⟩

def twoLevels : List Node :=
  [.list [.symbol "-" ⟨1, 1⟩, .vector [.number 1 ⟨4, 1⟩, .number 2 ⟨6, 1⟩] ⟨3, 5⟩] ⟨0, 9⟩,
    .number 3 ⟨10, 1⟩]

theorem twoLevels_limits :
    Reader.read "(- [1 2]) 3" 2 = .ok twoLevels ∧ Reader.read "(- [1 2]) 3" 1 ≠ .ok twoLevels ∧
      CompilationUnit.wrap Lisp.frontEnd { nestingLimit := 2 } .empty 1 twoLevels ≠
        .error (.tooDeep 2 2) := by
  have accepted : Reader.read "(- [1 2]) 3" 3 = .ok twoLevels := rfl
  have two := nesting_limits_agree "(- [1 2]) 3" (show 2 ≤ 3 by decide)
  have one := nesting_limits_agree "(- [1 2]) 3" (show 1 ≤ 3 by decide)
  have shallow : ∀ node ∈ twoLevels, node.depth ≤ 2 := by
    simp [twoLevels, two.2.1, Node.nesting, Node.nestingAll]
  have read := (two.1 twoLevels).mpr ⟨accepted, shallow⟩
  refine ⟨read, fun refused => ?_, two.2.2.1 { nestingLimit := 2 } .empty 1 twoLevels 2 2 read⟩
  have flat := ((one.1 twoLevels).mp refused).2
  simp [twoLevels, two.2.1, Node.nesting, Node.nestingAll] at flat

end FragmentLisp
