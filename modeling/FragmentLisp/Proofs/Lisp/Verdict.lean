import FragmentLisp.Proofs.Lisp.Scoping
import Mathlib.Data.List.Basic

/-!
Outcomes that are right about the places of a node and about the slots. A success means that all places hold
and that the slots suffice; a diagnostic is that of the first place that does not hold, unless the slots
ran out. Operands, bodies and bindings in turn come out right if each of their nodes does.
-/

namespace FragmentLisp
namespace Lisp

theorem firstViolation?_eq_none_iff {sites : List Site} :
    firstViolation? sites = none ↔ ∀ site ∈ sites, site.Holds := by
  simp [firstViolation?]

theorem firstViolation?_append {first second : List Site} :
    firstViolation? (first ++ second) = (firstViolation? first).or (firstViolation? second) :=
  List.find?_append

/-- An outcome that is right about places and slots: a result, of which something is known, or the
diagnostic that is called for. -/
inductive Verdict {Result : Type} (sites : List Site) (peak : Nat) (good : Result → Prop) :
    Except CompileError Result → Prop
  | accepted {result : Result} (hold : ∀ site ∈ sites, site.Holds)
      (room : peak ≤ Scope.slotCount) (known : good result) : Verdict sites peak good (.ok result)
  | violated {site : Site} (first : firstViolation? sites = some site) :
      Verdict sites peak good (.error (.diagnostic site.diagnostic))
  | exhausted {span : Span} (beyond : Scope.slotCount < peak) :
      Verdict sites peak good (complain .tooManyLocals span)

namespace Verdict

variable {First Second : Type} {sites more : List Site} {peak higher : Nat}
  {good : First → Prop} {better : Second → Prop}

/-- Steps in turn have the places of both, and the second one matters only if the first succeeds. -/
theorem bind {first : Except CompileError First} {rest : First → Except CompileError Second}
    (verdict : Verdict sites peak good first)
    (next : ∀ result, good result → Verdict more higher better (rest result)) :
    Verdict (sites ++ more) (max peak higher) better (first >>= rest) := by
  cases verdict with
  | violated first =>
      apply violated
      rw [firstViolation?_append, first]
      rfl
  | exhausted beyond => exact exhausted (Nat.lt_of_lt_of_le beyond (Nat.le_max_left _ _))
  | @accepted result hold room known =>
      change Verdict _ _ _ (rest result)
      have verdict := next result known
      generalize rest result = outcome at verdict
      cases verdict with
      | accepted holdMore roomMore good =>
          exact accepted (List.forall_mem_append.mpr ⟨hold, holdMore⟩)
            (Nat.max_le.mpr ⟨room, roomMore⟩) good
      | violated first =>
          apply violated
          rw [firstViolation?_append, firstViolation?_eq_none_iff.mpr hold, first]
          rfl
      | exhausted beyond => exact exhausted (Nat.lt_of_lt_of_le beyond (Nat.le_max_right _ _))

theorem imp {outcome : Except CompileError First} {other : First → Prop}
    (verdict : Verdict sites peak good outcome) (next : ∀ result, good result → other result) :
    Verdict sites peak other outcome := by
  cases verdict with
  | accepted hold room known => exact accepted hold room (next _ known)
  | violated first => exact violated first
  | exhausted beyond => exact exhausted beyond

/-- A step that has no places and takes no slots changes only what is known of the result. -/
theorem map {first : Except CompileError First} {rest : First → Except CompileError Second}
    (verdict : Verdict sites peak good first)
    (next : ∀ result, good result → ∃ later, rest result = .ok later ∧ better later) :
    Verdict sites peak better (first >>= rest) := by
  cases verdict with
  | violated first => exact violated first
  | exhausted beyond => exact exhausted beyond
  | @accepted result hold room known =>
      obtain ⟨later, succeeded, good⟩ := next result known
      change Verdict _ _ _ (rest result)
      rw [succeeded]
      exact accepted hold room good

end Verdict

namespace Resolution

open Scope (Extends)

/-- A scope with these names in view and so many slots live. -/
structure Views (scope : Scope) (names : Names) (live : Nat) : Prop where
  framed : scope.frames ≠ []
  named : (scope.inView ++ scope.fields).map (fun entry => (entry.1, entry.2.kind)) = names
  next : scope.nextSlot = live
  below : live ≤ scope.peak
  room : live ≤ Scope.slotCount

section Scopes

variable {scope after : Scope} {names : Names} {live : Nat}

theorem Views.lookup (views : Views scope names live) (name : String) :
    names.lookup name = (scope.lookup? name).map Variable.kind := by
  rw [Scope.lookup?_eq, ← lookup_map, views.named]

theorem Views.raise {peak : Nat} (views : Views scope names live) (higher : scope.peak ≤ peak) :
    Views (scope.raise peak) names live :=
  ⟨views.framed, views.named, views.next, Nat.le_trans views.below higher, views.room⟩

theorem Views.push (views : Views scope names live) : Views scope.push names live :=
  ⟨List.cons_ne_nil _ _, views.named, views.next, views.below, views.room⟩

theorem declare?_eq_none_iff {name : String} {kind : Kind} :
    scope.declare? name kind = none ↔ Scope.slotCount ≤ scope.nextSlot := by
  unfold Scope.declare?
  by_cases free : scope.nextSlot < Scope.slotCount
  · simp [free]
  · simp only [free, if_false, true_iff]
    exact Nat.le_of_not_lt free

theorem Views.declare {name : String} {kind : Kind} {slot : UInt16}
    (views : Views scope names live) (declared : scope.declare? name kind = some (slot, after)) :
    Views after ((name, kind) :: names) (live + 1) ∧ Extends scope after ∧
      after.peak = max scope.peak (live + 1) := by
  have free : scope.nextSlot < Scope.slotCount := by
    apply Nat.lt_of_not_le
    intro full
    rw [declare?_eq_none_iff.mpr full] at declared
    simp at declared
  obtain ⟨_, innermost, outer, frames, rfl⟩ := Scope.declare?_eq views.framed declared
  obtain rfl := views.next
  refine ⟨⟨List.cons_ne_nil _ _, ?_, rfl, Nat.le_max_right _ _, free⟩,
    ⟨⟨innermost, outer, _, frames, rfl⟩, rfl, Nat.le_max_left _ _⟩, rfl⟩
  rw [← views.named, Scope.inView, Scope.inView, frames]
  rfl

end Scopes

/-- A node of which resolution says what it should, in every scope. Nothing is left of the scopes in the
node but the number of slots that were live at once. -/
def Judged (node : Node) : Prop :=
  ∀ scope names live, Views scope names live →
    Verdict (names.sites node) (livePeak live node)
      (fun found => found.2.1 = names.kindOf node ∧
        found.2.2 = scope.raise (max scope.peak (livePeak live node)))
      (resolve scope node)

section Parts

variable {scope : Scope} {names : Names} {live : Nat}

theorem raise_self (below : live ≤ scope.peak) : scope = scope.raise (max scope.peak live) := by
  rw [Nat.max_eq_left below]
  rfl

theorem raise_raise (peak first second : Nat) :
    (scope.raise (max peak first)).raise (max (scope.raise (max peak first)).peak second) =
      scope.raise (max peak (max first second)) := by
  rw [← Nat.max_assoc]
  rfl

theorem resolveName_verdict (views : Views scope names live) (name : String) (span : Span) :
    Verdict [.reference names name span] live (fun found => found.2 = names.kindOfName name)
      (resolveName scope name span) := by
  have literal (reserved : name ∈ reservedNames) :
      ∀ site ∈ [Site.reference names name span], site.Holds := by
    intro site member
    rw [List.mem_singleton.mp member]
    exact Or.inl reserved
  unfold resolveName
  split
  · exact .accepted (literal (by simp [reservedNames])) views.room rfl
  · exact .accepted (literal (by simp [reservedNames])) views.room rfl
  · exact .accepted (literal (by simp [reservedNames])) views.room rfl
  · rename_i notTrue notFalse notNil
    have known := views.lookup name
    have kind : names.kindOfName name = (names.lookup name).getD .any :=
      Names.kindOfName.eq_4 names name notTrue notFalse notNil
    have bound {found : Variable} (looked : scope.lookup? name = some found) :
        (∀ site ∈ [Site.reference names name span], site.Holds) ∧
          found.kind = names.kindOfName name := by
      rw [looked] at known
      rw [kind, known]
      refine ⟨?_, rfl⟩
      intro site member
      rw [List.mem_singleton.mp member]
      apply Or.inr
      rw [known]
      rfl
    split
    · rename_i looked
      exact .accepted (bound looked).1 views.room (bound looked).2
    · rename_i looked
      exact .accepted (bound looked).1 views.room (bound looked).2
    · rename_i looked
      rw [looked] at known
      have other : name ∉ reservedNames := by
        simp only [reservedNames, List.mem_cons, List.not_mem_nil, or_false, not_or]
        exact ⟨notTrue, notFalse, notNil⟩
      have unbound : ¬ (Site.reference names name span).Holds := by
        simp [Site.Holds, other, known]
      have first : firstViolation? [.reference names name span] =
          some (.reference names name span) := by
        simp [firstViolation?, unbound]
      exact .violated first

theorem accept_verdict {sites : List Site} {peak : Nat} {node : Node}
    {outcome : Except CompileError (Expr × Kind × Scope)} (good : Scope → Prop)
    (verdict : Verdict sites peak (fun found => found.2.1 = names.kindOf node ∧ good found.2.2)
      outcome)
    (operator : String) (wanted? : Option Kind) :
    Verdict
      (sites ++ (wanted?.map fun wanted => Site.operand names operator wanted node).toList) peak
      (fun found => good found.2) (outcome >>= accept operator wanted? node.span) := by
  cases wanted? with
  | none =>
      rw [Option.map_none, Option.toList_none, List.append_nil]
      exact verdict.map fun found known => ⟨_, rfl, known.2⟩
  | some wanted =>
      rw [Option.map_some, Option.toList_some, ← Nat.max_self peak]
      cases verdict with
      | violated first =>
          apply Verdict.violated
          rw [firstViolation?_append, first]
          rfl
      | exhausted beyond => exact .exhausted (by rwa [Nat.max_self])
      | @accepted found hold room known =>
          obtain ⟨expr, kind, after⟩ := found
          obtain ⟨rfl, good⟩ := known
          have fits : (names.kindOf node).admits wanted = true ↔
              (Site.operand names operator wanted node).Holds := by
            simp [Kind.admits, Site.Holds]
          change Verdict _ _ _ (accept operator (some wanted) node.span (expr, _, after))
          simp only [accept]
          by_cases admits : (names.kindOf node).admits wanted = true
          · rw [if_pos admits]
            refine .accepted ?_ (by rwa [Nat.max_self]) good
            rw [List.forall_mem_append, List.forall_mem_singleton]
            exact ⟨hold, fits.mp admits⟩
          · rw [if_neg admits]
            have misfit : ¬ (Site.operand names operator wanted node).Holds :=
              fun holds => admits (fits.mpr holds)
            have first : firstViolation? (sites ++ [.operand names operator wanted node]) =
                some (.operand names operator wanted node) := by
              rw [firstViolation?_append, firstViolation?_eq_none_iff.mpr hold]
              simp [firstViolation?, misfit]
            exact .violated first

theorem operands_verdict {nodes : List Node} (each : ∀ node ∈ nodes, Judged node)
    (views : Views scope names live) (operator : String) (wanted? : Option Kind) (made : List Expr) :
    Verdict (names.sitesOfOperands operator wanted? nodes) (expressionsPeak live nodes)
      (fun found => found.2 = scope.raise (max scope.peak (expressionsPeak live nodes)))
      (resolveOperands operator wanted? scope made nodes) := by
  induction nodes generalizing scope made with
  | nil =>
      rw [resolveOperands, Names.sitesOfOperands, expressionsPeak]
      exact .accepted (by simp) views.room (raise_self views.below)
  | cons node rest inductionHypothesis =>
      rw [resolveOperands, Names.sitesOfOperands, expressionsPeak]
      have own := each node List.mem_cons_self scope names live views
      refine (accept_verdict (· = scope.raise (max scope.peak (livePeak live node))) own operator wanted?).bind ?_
      rintro ⟨operand, after⟩ rfl
      rw [← raise_raise]
      exact inductionHypothesis (fun other member => each other (List.mem_cons_of_mem _ member))
        (views.raise (Nat.le_max_left _ _)) (operand :: made)

theorem body_verdict {nodes : List Node} (each : ∀ node ∈ nodes, Judged node)
    (views : Views scope names live) (operator : String) (made : List Expr) (kind : Kind) :
    Verdict (names.sitesOfOperands operator none nodes) (expressionsPeak live nodes)
      (fun found => found.2.1 = names.lastKind kind nodes ∧
        found.2.2 = scope.raise (max scope.peak (expressionsPeak live nodes)))
      (resolveBody scope made kind nodes) := by
  induction nodes generalizing scope made kind with
  | nil =>
      rw [resolveBody, Names.sitesOfOperands, expressionsPeak, Names.lastKind]
      exact .accepted (by simp) views.room ⟨rfl, raise_self views.below⟩
  | cons node rest inductionHypothesis =>
      rw [resolveBody, Names.sitesOfOperands, expressionsPeak, Names.lastKind, Option.map_none,
        Option.toList_none, List.append_nil]
      refine (each node List.mem_cons_self scope names live views).bind ?_
      rintro ⟨expr, found, after⟩ ⟨rfl, rfl⟩
      rw [← raise_raise]
      exact inductionHypothesis (fun other member => each other (List.mem_cons_of_mem _ member))
        (views.raise (Nat.le_max_left _ _)) (expr :: made) _

theorem live_le_bindingsPeak (live : Nat) (items : List Node) : live ≤ bindingsPeak live items := by
  match items with
  | [] => exact Nat.le_of_eq (bindingsPeak.eq_2 live [] (by simp)).symm
  | [single] => exact Nat.le_of_eq (bindingsPeak.eq_2 live [single] (by simp)).symm
  | name :: value :: rest =>
      have least := live_le_bindingsPeak (live + 1) rest
      rw [bindingsPeak]
      omega

theorem bindings_verdict {items : List Node} (checked : Grammar.checkBindings items = .ok ())
    (even : items.length % 2 = 0) (each : ∀ entry ∈ bindingNodes items, Judged entry.2)
    (views : Views scope names live) (span : Span) (made : List (UInt16 × Expr)) :
    Verdict (names.sitesOfBindings items) (bindingsPeak live items)
      (fun found => Views found.2 (names.bind items) (live + items.length / 2) ∧
        Extends scope found.2 ∧ found.2.peak = max scope.peak (bindingsPeak live items))
      (resolveBindings span scope made items) := by
  induction items using bindingNodes.induct generalizing scope names live made with
  | case1 name nameSpan value rest inductionHypothesis =>
      have later : Grammar.checkBindings rest = .ok () := by
        rw [Grammar.checkBindings] at checked
        split at checked
        · simp at checked
        · split at checked
          · simp at checked
          · exact checked
      have pairs : (Node.symbol name nameSpan :: value :: rest).length / 2 = rest.length / 2 + 1 := by
        rw [List.length_cons, List.length_cons]
        omega
      have evenRest : rest.length % 2 = 0 := by
        rw [List.length_cons, List.length_cons] at even
        omega
      rw [resolveBindings, Names.sitesOfBindings, bindingsPeak, Names.bind, pairs]
      refine (each _ List.mem_cons_self scope names live views).bind ?_
      rintro ⟨expr, kind, after⟩ ⟨rfl, rfl⟩
      have viewsAfter := views.raise (Nat.le_max_left scope.peak (livePeak live value))
      have least := live_le_bindingsPeak (live + 1) rest
      simp only
      cases declared : (scope.raise (max scope.peak (livePeak live value))).declare? name
          (names.kindOf value) with
      | none =>
          have full := declare?_eq_none_iff.mp declared
          rw [viewsAfter.next] at full
          exact .exhausted (by omega)
      | some found =>
          obtain ⟨slot, next⟩ := found
          obtain ⟨viewsNext, extended, peak⟩ := viewsAfter.declare declared
          refine (inductionHypothesis later evenRest
            (fun entry member => each entry (List.mem_cons_of_mem _ member)) viewsNext _).imp ?_
          rintro ⟨bindings, inner⟩ ⟨viewsInner, extendsInner, peakInner⟩
          refine ⟨?_, ?_, ?_⟩
          · rwa [← Nat.add_assoc, Nat.add_right_comm]
          · exact (Extends.raise views.framed (Nat.le_max_left _ _)).trans
              (extended.trans extendsInner)
          · have raised : (scope.raise (max scope.peak (livePeak live value))).peak =
                max scope.peak (livePeak live value) := rfl
            rw [peakInner, peak, raised]
            omega
  | case2 items irregular =>
      cases items with
      | nil =>
          rw [resolveBindings, Names.sitesOfBindings, bindingsPeak, Names.bind]
          · exact .accepted (by simp) views.room
              ⟨views, Extends.refl views.framed, (Nat.max_eq_left views.below).symm⟩
          all_goals simp
      | cons first rest =>
          cases rest with
          | nil => simp at even
          | cons second others =>
              cases first with
              | symbol name nameSpan => exact absurd rfl (irregular name nameSpan second others)
              | _ => simp [Grammar.checkBindings, Grammar.checkName, complain] at checked

/-! Forms of an operator. -/

theorem resolveOperands_one (operator : String) (wanted? : Option Kind) (scope : Scope)
    (node : Node) :
    resolveOperands operator wanted? scope [] [node] =
      (resolve scope node >>= accept operator wanted? node.span) >>=
        fun (operand, after) => .ok ([operand], after) := by
  simp [resolveOperands]

theorem resolveOperands_two (operator : String) (wanted? : Option Kind) (scope : Scope)
    (left right : Node) :
    resolveOperands operator wanted? scope [] [left, right] =
      (resolve scope left >>= accept operator wanted? left.span) >>= fun (first, middle) =>
        (resolve middle right >>= accept operator wanted? right.span) >>=
          fun (second, after) => .ok ([first, second], after) := by
  simp [resolveOperands]

theorem accept_none (operator : String) (span : Span) :
    accept operator none span = fun found => .ok (found.1, found.2.2) :=
  rfl

/-- A form whose operands are evaluated in turn is resolved by resolving these, with the kind that its
operator wants of them. -/
theorem resolve_form {name : String} {nameSpan span : Span} {arguments : List Node}
    (notLet : Operator.ofName name ≠ .localBinding) (notIf : Operator.ofName name ≠ .conditional)
    (checked : Grammar.checkForm name nameSpan span arguments.length = .ok ()) :
    ∃ build : List Expr → Expr,
      resolve scope (.list (.symbol name nameSpan :: arguments) span) =
        resolveOperands name (Operator.ofName name).wanted? scope [] arguments >>=
          fun (operands, after) => .ok (build operands, (Operator.ofName name).kind, after) := by
  unfold Grammar.checkForm at checked
  unfold resolve
  cases operator : Operator.ofName name with
  | arithmetic op =>
      cases op with
      | subtract =>
          rcases arguments with _ | ⟨node, _ | ⟨second, rest⟩⟩
          · exact ⟨.arithmetic .subtract, rfl⟩
          · refine ⟨fun operands => .negate (operands.headD .nil), ?_⟩
            rw [resolveOperands_one, bind_assoc]
            rfl
          · exact ⟨.arithmetic .subtract, rfl⟩
      | _ => exact ⟨.arithmetic _, rfl⟩
  | equal =>
      have two : arguments.length = 2 := by simpa [operator, complain] using checked
      obtain ⟨left, right, rfl⟩ := List.length_eq_two.mp two
      refine ⟨fun operands => .equal (operands.headD .nil) ((operands.drop 1).headD .nil), ?_⟩
      simp only [Operator.wanted?, resolveOperands_two, accept_none, bind_assoc]
      rfl
  | order op =>
      have two : arguments.length = 2 := by simpa [operator, complain] using checked
      obtain ⟨left, right, rfl⟩ := List.length_eq_two.mp two
      refine ⟨fun operands => .order op (operands.headD .nil) ((operands.drop 1).headD .nil), ?_⟩
      simp only [Operator.wanted?, resolveOperands_two, bind_assoc]
      rfl
  | not =>
      have one : arguments.length = 1 := by simpa [operator, complain] using checked
      obtain ⟨node, rfl⟩ := List.length_eq_one_iff.mp one
      refine ⟨fun operands => .not (operands.headD .nil), ?_⟩
      simp only [Operator.wanted?, resolveOperands_one, accept_none, bind_assoc]
      rfl
  | count =>
      have one : arguments.length = 1 := by simpa [operator, complain] using checked
      obtain ⟨node, rfl⟩ := List.length_eq_one_iff.mp one
      refine ⟨fun operands => .count (operands.headD .nil), ?_⟩
      rw [resolveOperands_one, bind_assoc]
      rfl
  | conditional => exact absurd operator notIf
  | conjunction => exact ⟨.conjunction, rfl⟩
  | disjunction => exact ⟨.disjunction, rfl⟩
  | concat => exact ⟨.concat, rfl⟩
  | print newline => exact ⟨.print newline, rfl⟩
  | localBinding => exact absurd operator notLet
  | definition => simp [operator, complain] at checked
  | block => simp [operator, complain] at checked
  | function => simp [operator, complain] at checked
  | unknown => simp [operator, complain] at checked

end Parts

end Resolution
end Lisp
end FragmentLisp
