import FragmentLisp.EvalError
import FragmentLisp.Proofs.Lisp.Compilation
import FragmentLisp.Proofs.Lisp.WellScoped

/-!
Local slots that run out. A local is refused when there is no slot for it, and the slots are counted once
more when the whole body is resolved. The first check lets one local more pass than the second one: a body
that needs all the slots there are, and has nothing else wrong with it, is refused by the compiler in its
own name. Every other body that needs too many slots is refused with a diagnostic.
-/

namespace FragmentLisp
namespace Lisp

/-- A body needs one slot more than a method can declare, and nothing is wrong with its names and kinds. -/
def FillsSlots (fields : List Field) (nodes : List Node) : Prop :=
  Resolution.bodyPeak nodes = Scope.slotCount ∧
    ∀ site ∈ Resolution.bodySites fields nodes, site.Holds

section
variable {fields : List Field} {nodes : List Node}

theorem locals_of_resolved {body : Body} (checked : Grammar.check nodes = .ok ())
    (resolved : Resolution.resolveFragment fields nodes = .ok body) :
    body.locals.toNat = Resolution.bodyPeak nodes := by
  have ended := @Resolution.resolveFragment_ended fields nodes checked
  rw [resolved] at ended
  cases ended with
  | resolved few peak hold locals => exact locals

/-- Fields are numbered before anything is resolved. -/
theorem tooManyFields_of_many (many : Scope.slotCount < fields.length) :
    Resolution.resolveFragment fields nodes = .error (.internal .tooManyFields) := by
  have unnumbered : Scope.ofFields? fields = none := if_neg (Nat.not_le_of_lt many)
  rw [Resolution.resolveFragment, unnumbered]

/-- The second check of the slots fails for these bodies and for no other ones. -/
theorem tooManyLocals_iff (checked : Grammar.check nodes = .ok ()) :
    Resolution.resolveFragment fields nodes = .error (.internal .tooManyLocals) ↔
      fields.length ≤ Scope.slotCount ∧ FillsSlots fields nodes := by
  have ended := @Resolution.resolveFragment_ended fields nodes checked
  constructor
  · intro failed
    have few : ¬Scope.slotCount < fields.length := by
      intro many
      rw [tooManyFields_of_many many] at failed
      cases failed
    rw [failed] at ended
    cases ended with
    | tooManyLocals full hold => exact ⟨Nat.le_of_not_lt few, full, hold⟩
  · rintro ⟨few, full, hold⟩
    generalize Resolution.resolveFragment fields nodes = outcome at ended
    cases ended with
    | resolved _ below _ _ => exact absurd full (Nat.ne_of_lt below)
    | violated first =>
        rw [firstViolation?_eq_none_iff.mpr hold] at first
        cases first
    | exhausted beyond => exact absurd full (Nat.ne_of_gt beyond)
    | tooManyFields many => exact absurd few (Nat.not_le_of_lt many)
    | tooManyLocals _ _ => rfl

/-- A body that needs too many slots is refused, with a diagnostic unless it just fills the slots. -/
theorem refused_of_peak (checked : Grammar.check nodes = .ok ())
    (few : fields.length ≤ Scope.slotCount) (large : 65535 < Resolution.bodyPeak nodes)
    (other : ¬FillsSlots fields nodes) :
    ∃ found, Resolution.resolveFragment fields nodes = .error (.diagnostic found) := by
  have ended := @Resolution.resolveFragment_ended fields nodes checked
  generalize Resolution.resolveFragment fields nodes = outcome at ended
  cases ended with
  | resolved _ below _ _ => exact absurd below (Nat.not_lt_of_le large)
  | violated first => exact ⟨_, rfl⟩
  | exhausted beyond => exact ⟨_, rfl⟩
  | tooManyFields many => exact absurd few (Nat.not_le_of_lt many)
  | tooManyLocals full hold => exact absurd ⟨full, hold⟩ other

end

def BlamesFragment (error : CompilationError) : Prop :=
  (EvalError.ofCompilation error).kind = .semanticError ∧
    (EvalError.ofCompilation error).kind.isRecoverable = true ∧
    (EvalError.ofCompilation error).position?.isSome = true

/-- What is declared fits the word for it. A body that needs more slots than a method can declare is the
fragment's own fault, and reported as such, unless the body just fills the slots. Fields that cannot be
numbered are refused before any slot is given out. -/
theorem slots_run_out [ObjectFormat] {fields : List Field} {nodes : List Node}
    (checked : Grammar.check nodes = .ok ()) :
    (∀ body, Resolution.resolveFragment fields nodes = .ok body →
      body.locals.toNat = Resolution.bodyPeak nodes) ∧
    (Resolution.resolveFragment fields nodes = .error (.internal .tooManyLocals) ↔
      fields.length ≤ Scope.slotCount ∧ FillsSlots fields nodes) ∧
    (Scope.slotCount < fields.length →
      Resolution.resolveFragment fields nodes = .error (.internal .tooManyFields)) ∧
    (fields.length ≤ Scope.slotCount → 65535 < Resolution.bodyPeak nodes →
      ((∃ found, Resolution.resolveFragment fields nodes = .error (.diagnostic found)) ↔
        ¬FillsSlots fields nodes) ∧
      ∀ unit : CompilationUnit Fragment, unit.fields = fields → unit.body.statements = nodes →
        ∃ error, unit.compile frontEnd = .error error ∧
          (BlamesFragment error ↔ ¬FillsSlots fields nodes)) := by
  refine ⟨fun body => locals_of_resolved checked, tooManyLocals_iff checked, tooManyFields_of_many,
    fun few large => ?_⟩
  have filled (fills : FillsSlots fields nodes) :
      Resolution.resolveFragment fields nodes = .error (.internal .tooManyLocals) :=
    (tooManyLocals_iff checked).mpr ⟨few, fills⟩
  constructor
  · refine ⟨?_, refused_of_peak checked few large⟩
    rintro ⟨found, failed⟩ fills
    rw [filled fills] at failed
    cases failed
  · rintro unit rfl rfl
    by_cases fills : FillsSlots unit.fields unit.body.statements
    · refine ⟨_, (Stops.resolution checked (filled fills)).failsIn.compile, ?_⟩
      refine iff_of_false ?_ (not_not_intro fills)
      rintro ⟨kind, -, -⟩
      cases kind
    · obtain ⟨found, failed⟩ := refused_of_peak checked few large fills
      have stopped := (Stops.resolution checked failed).failsIn.compile
      exact ⟨_, stopped, iff_of_true ⟨rfl, rfl, rfl⟩ fills⟩

/-! A name that is bound over and over: each binding takes a slot of its own. -/

def repeatedBindings : Nat → List Node
  | 0 => []
  | count + 1 => .symbol "a" ⟨0, 0⟩ :: .number 1 ⟨0, 0⟩ :: repeatedBindings count

def repeatedLet (count : Nat) : Fragment :=
  [.list [.symbol "let" ⟨0, 0⟩, .vector (repeatedBindings count) ⟨0, 0⟩, .symbol "a" ⟨0, 0⟩] ⟨0, 0⟩]

section
variable (count : Nat)

theorem length_repeatedBindings : (repeatedBindings count).length = 2 * count := by
  induction count with
  | zero => rfl
  | succ count inductionHypothesis =>
      rw [repeatedBindings, List.length_cons, List.length_cons, inductionHypothesis]
      omega

theorem checkBindings_repeatedBindings :
    Grammar.checkBindings (repeatedBindings count) = .ok () := by
  induction count with
  | zero => exact Grammar.checkBindings.eq_2 [] (by simp)
  | succ count inductionHypothesis =>
      simp [repeatedBindings, Grammar.checkBindings, Grammar.checkName, Grammar.checkExpression,
        reservedNames, inductionHypothesis]

theorem bindingsPeak_repeatedBindings (live : Nat) :
    bindingsPeak live (repeatedBindings count) = live + count := by
  induction count generalizing live with
  | zero => exact bindingsPeak.eq_2 live [] (by simp)
  | succ count inductionHypothesis =>
      rw [repeatedBindings, bindingsPeak, inductionHypothesis, livePeak]
      · omega
      all_goals simp

theorem sitesOfBindings_repeatedBindings (names : Names) :
    names.sitesOfBindings (repeatedBindings count) = [] := by
  induction count generalizing names with
  | zero => exact Names.sitesOfBindings.eq_2 names [] (by simp)
  | succ count inductionHypothesis =>
      rw [repeatedBindings, Names.sitesOfBindings, inductionHypothesis, Names.sites]
      all_goals simp

theorem isSome_lookup_bind_repeatedBindings {names : Names}
    (known : (names.lookup "a").isSome = true) :
    ((names.bind (repeatedBindings count)).lookup "a").isSome = true := by
  induction count generalizing names with
  | zero =>
      rw [repeatedBindings, Names.bind]
      · exact known
      · simp
  | succ count inductionHypothesis =>
      rw [repeatedBindings, Names.bind]
      exact inductionHypothesis rfl

theorem check_repeatedLet : Grammar.check (repeatedLet count) = .ok () := by
  have even : (2 * count) % 2 = 0 := by omega
  simp [repeatedLet, Grammar.check, Grammar.checkStatement, Grammar.checkExpression,
    Grammar.checkForm, Grammar.checkExpressions, Operator.ofName, length_repeatedBindings, even,
    checkBindings_repeatedBindings]

theorem statementNode_repeatedLet :
    (repeatedLet count).map Resolution.statementNode =
      (repeatedLet count).map fun node => (none, node) := by
  simp [repeatedLet, Resolution.statementNode, Resolution.isDefinition, Node.operatorName?,
    Node.symbolName?]

theorem bodyPeak_repeatedLet : Resolution.bodyPeak (repeatedLet count) = count := by
  have pairs : 2 * count / 2 = count := by omega
  rw [Resolution.bodyPeak, statementNode_repeatedLet]
  simp [repeatedLet, statementsPeak, liveBehind, livePeak, expressionsPeak, Operator.ofName,
    bindingsPeak_repeatedBindings, length_repeatedBindings, pairs]

theorem bodySites_repeatedLet (fields : List Field) :
    Resolution.bodySites fields (repeatedLet count) =
      [.reference ((Names.ofFields fields).bind (repeatedBindings count)) "a" ⟨0, 0⟩] := by
  rw [Resolution.bodySites, statementNode_repeatedLet]
  simp [repeatedLet, Names.sitesOfStatements, Names.sites, Names.sitesOfOperands, Operator.ofName,
    sitesOfBindings_repeatedBindings]

theorem nestingAll_repeatedBindings : Node.nestingAll (repeatedBindings count) = 0 := by
  induction count with
  | zero => rw [repeatedBindings, Node.nestingAll]
  | succ count inductionHypothesis =>
      simp [repeatedBindings, Node.nestingAll, Node.nesting, inductionHypothesis]

theorem overview_repeatedLet :
    Fragment.overview (repeatedLet count) = { shape := .expression, origin := 0, depth := 2 } := by
  have depth : Fragment.depth (repeatedLet count) = 2 := by
    simp [Fragment.depth, repeatedLet, Node.depth_eq_nesting, Node.nesting, Node.nestingAll,
      nestingAll_repeatedBindings]
  have shape : Fragment.shape (repeatedLet count) = .expression := by
    simp [Fragment.shape, Fragment.statements, Fragment.isDeclaration, repeatedLet,
      Node.operatorName?, Node.symbolName?]
  rw [Fragment.overview, depth, shape]
  rfl

def repeatedUnit : CompilationUnit Fragment :=
  { typeName := CompilationUnit.numberedName "Fragment" 0
    entryMethod := "run"
    fields := []
    body := repeatedLet count
    shape := .expression
    origin := 0 }

theorem wrap_repeatedLet [ObjectFormat] :
    CompilationUnit.wrap frontEnd {} .empty 0 (repeatedLet count) = .ok (repeatedUnit count) := by
  have overview : frontEnd.inspect (repeatedLet count) =
      { shape := .expression, origin := 0, depth := 2 } := overview_repeatedLet count
  simp only [CompilationUnit.wrap, overview]
  rfl

end

theorem fillsSlots_repeatedLet (fields : List Field) : FillsSlots fields (repeatedLet 65536) := by
  refine ⟨bodyPeak_repeatedLet 65536, ?_⟩
  rw [bodySites_repeatedLet, List.forall_mem_singleton, repeatedBindings, Names.bind]
  exact .inr (isSome_lookup_bind_repeatedBindings 65535 rfl)

theorem let_beyond_the_slots :
    Grammar.check (repeatedLet 65537) = .ok () ∧
      ∃ found, Resolution.resolveFragment [] (repeatedLet 65537) = .error (.diagnostic found) := by
  have checked := check_repeatedLet 65537
  have peak := bodyPeak_repeatedLet 65537
  have large : 65535 < Resolution.bodyPeak (repeatedLet 65537) := by
    rw [peak]
    decide
  have beyond : ¬FillsSlots [] (repeatedLet 65537) := by
    rintro ⟨full, -⟩
    rw [peak] at full
    cases full
  exact ⟨checked, ((slots_run_out checked).2.2.2 (Nat.zero_le _) large).1.mpr beyond⟩

theorem let_that_fills_the_slots :
    Grammar.check (repeatedLet 65536) = .ok () ∧
      65535 < Resolution.bodyPeak (repeatedLet 65536) ∧
      Resolution.resolveFragment [] (repeatedLet 65536) = .error (.internal .tooManyLocals) ∧
      CompilationUnit.wrap frontEnd {} .empty 0 (repeatedLet 65536) = .ok (repeatedUnit 65536) ∧
      (repeatedUnit 65536).compile frontEnd = .error (.internal "too many local variables") := by
  have checked := check_repeatedLet 65536
  have large : 65535 < Resolution.bodyPeak (repeatedLet 65536) := by
    rw [bodyPeak_repeatedLet]
    decide
  have failed : Resolution.resolveFragment [] (repeatedLet 65536) =
      .error (.internal .tooManyLocals) :=
    (tooManyLocals_iff checked).mpr ⟨Nat.zero_le _, fillsSlots_repeatedLet []⟩
  exact ⟨checked, large, failed, wrap_repeatedLet 65536,
    (@Stops.resolution _ (repeatedUnit 65536) _ checked failed).failsIn.compile⟩

end Lisp
end FragmentLisp
