import FragmentLisp.Proofs.Lisp.Outcome
import FragmentLisp.Proofs.Lisp.Verdict

/-!
Resolution accepts exactly the fragments that are well scoped and of fitting kinds. Of a node that the
grammar accepts it says what the places of the node call for, and so it does of statements in turn and of
whole bodies.
-/

namespace FragmentLisp
namespace Lisp

namespace Resolution

open Scope (Extends)

/-! The three descriptions of a form, for all operators but the local binding. -/

section Forms

variable {names : Names} {live : Nat} {name : String} {nameSpan span : Span} {arguments : List Node}

theorem sites_form (notLet : Operator.ofName name ≠ .localBinding) :
    names.sites (.list (.symbol name nameSpan :: arguments) span) =
      names.sitesOfOperands name (Operator.ofName name).wanted? arguments := by
  rw [Names.sites]
  intro bindings vectorSpan body operator
  exact absurd operator notLet

theorem livePeak_form (notLet : Operator.ofName name ≠ .localBinding) :
    livePeak live (.list (.symbol name nameSpan :: arguments) span) =
      expressionsPeak live arguments := by
  rw [livePeak]
  intro bindings vectorSpan body operator
  exact absurd operator notLet

theorem kindOf_form (notLet : Operator.ofName name ≠ .localBinding)
    (notIf : Operator.ofName name ≠ .conditional) :
    names.kindOf (.list (.symbol name nameSpan :: arguments) span) =
      (Operator.ofName name).kind := by
  rw [Names.kindOf]
  · intro bindings vectorSpan body operator
    exact absurd operator notLet
  · intro condition consequent alternative operator
    exact absurd operator notIf

theorem live_le_expressionsPeak (live : Nat) (nodes : List Node) :
    live ≤ expressionsPeak live nodes := by
  induction nodes with
  | nil => exact Nat.le_refl _
  | cons node rest inductionHypothesis =>
      rw [expressionsPeak]
      exact Nat.le_trans inductionHypothesis (Nat.le_max_right _ _)

theorem live_le_livePeak (live : Nat) (node : Node) : live ≤ livePeak live node := by
  unfold livePeak
  split
  · split
    · exact Nat.le_trans (live_le_bindingsPeak live _) (Nat.le_max_left _ _)
    · exact live_le_expressionsPeak live _
  · exact Nat.le_refl _

theorem let_shape (operator : Operator.ofName name = .localBinding)
    (checked : Checked (.list (.symbol name nameSpan :: arguments) span)) :
    ∃ bindingItems vectorSpan bodyItems,
      arguments = .vector bindingItems vectorSpan :: bodyItems ∧
      bindingItems.length % 2 = 0 ∧ Grammar.checkBindings bindingItems = .ok () := by
  cases arguments with
  | nil =>
      have form := (checked_form checked).1
      simp [Grammar.checkForm, operator, complain] at form
  | cons first bodyItems =>
      unfold Checked Grammar.checkExpression at checked
      simp only [operator] at checked
      split at checked
      · simp at checked
      · cases first with
        | vector bindingItems vectorSpan =>
            simp only at checked
            split at checked
            · rename_i even
              split at checked
              · simp at checked
              · rename_i bound
                exact ⟨bindingItems, vectorSpan, bodyItems, rfl, even, bound⟩
            · simp [complain] at checked
        | _ => simp [complain] at checked

end Forms

/-! Every node that the grammar accepts. -/

section Nodes

variable {name : String} {nameSpan span : Span} {arguments : List Node}

theorem form_judged (notLet : Operator.ofName name ≠ .localBinding)
    (notIf : Operator.ofName name ≠ .conditional)
    (checked : Grammar.checkForm name nameSpan span arguments.length = .ok ())
    (each : ∀ argument ∈ arguments, Judged argument) :
    Judged (.list (.symbol name nameSpan :: arguments) span) := by
  intro scope names live views
  obtain ⟨build, resolved⟩ := @resolve_form scope name nameSpan span arguments notLet notIf checked
  rw [resolved, sites_form notLet, livePeak_form notLet, kindOf_form notLet notIf]
  apply (operands_verdict each views name (Operator.ofName name).wanted? []).map
  rintro ⟨operands, after⟩ reached
  exact ⟨_, rfl, rfl, reached⟩

theorem resolve_conditional (operator : Operator.ofName name = .conditional) (scope : Scope)
    (condition consequent alternative : Node) :
    resolve scope (.list [.symbol name nameSpan, condition, consequent, alternative] span) =
      resolve scope condition >>= fun (test, _, first) =>
        resolve first consequent >>= fun (chosen, chosenKind, second) =>
          resolve second alternative >>= fun (other, otherKind, third) =>
            .ok (.conditional test chosen other, chosenKind.join otherKind, third) := by
  simp only [resolve, operator]
  rfl

theorem conditional_judged {condition consequent alternative : Node}
    (operator : Operator.ofName name = .conditional)
    (each : ∀ argument ∈ [condition, consequent, alternative], Judged argument) :
    Judged (.list [.symbol name nameSpan, condition, consequent, alternative] span) := by
  intro scope names live views
  have notLet : Operator.ofName name ≠ .localBinding := by
    rw [operator]
    exact nofun
  have wanted : (Operator.ofName name).wanted? = none := by
    rw [operator]
    rfl
  have least := live_le_livePeak live alternative
  have peak : livePeak live (.list [.symbol name nameSpan, condition, consequent, alternative] span) =
      max (livePeak live condition) (max (livePeak live consequent) (livePeak live alternative)) := by
    rw [livePeak_form notLet]
    simp only [expressionsPeak]
    omega
  have sites : names.sites (.list [.symbol name nameSpan, condition, consequent, alternative] span) =
      names.sites condition ++ (names.sites consequent ++ names.sites alternative) := by
    rw [sites_form notLet, wanted]
    simp [Names.sitesOfOperands]
  have kind : names.kindOf (.list [.symbol name nameSpan, condition, consequent, alternative] span) =
      (names.kindOf consequent).join (names.kindOf alternative) := by
    rw [Names.kindOf]
    exact operator
  rw [resolve_conditional operator, peak, sites, kind]
  refine (each condition (by simp) scope names live views).bind ?_
  rintro ⟨test, _, first⟩ ⟨_, rfl⟩
  have viewsFirst := views.raise (Nat.le_max_left scope.peak (livePeak live condition))
  refine (each consequent (by simp) _ names live viewsFirst).bind ?_
  rintro ⟨chosen, _, second⟩ ⟨rfl, rfl⟩
  rw [raise_raise]
  have viewsSecond := views.raise (Nat.le_max_left scope.peak
    (max (livePeak live condition) (livePeak live consequent)))
  apply (each alternative (by simp) _ names live viewsSecond).map
  rintro ⟨other, _, third⟩ ⟨rfl, rfl⟩
  refine ⟨_, rfl, rfl, ?_⟩
  rw [raise_raise, Nat.max_assoc]

theorem resolve_let (operator : Operator.ofName name = .localBinding) (scope : Scope)
    (bindingItems bodyItems : List Node) (vectorSpan : Span) :
    resolve scope (.list (.symbol name nameSpan :: .vector bindingItems vectorSpan :: bodyItems) span) =
      resolveBindings span scope.push [] bindingItems >>= fun (bindings, inner) =>
        resolveBody inner [] .nil bodyItems >>= fun (body, kind, last) =>
          .ok (.localBinding bindings body, kind, last.pop) := by
  simp only [resolve, operator]
  rfl

theorem let_judged {bindingItems bodyItems : List Node} {vectorSpan : Span}
    (operator : Operator.ofName name = .localBinding) (even : bindingItems.length % 2 = 0)
    (checked : Grammar.checkBindings bindingItems = .ok ())
    (each : ∀ entry ∈ bindingNodes bindingItems, Judged entry.2)
    (eachBody : ∀ node ∈ bodyItems, Judged node) :
    Judged (.list (.symbol name nameSpan :: .vector bindingItems vectorSpan :: bodyItems) span) := by
  intro scope names live views
  have sites : names.sites
        (.list (.symbol name nameSpan :: .vector bindingItems vectorSpan :: bodyItems) span) =
      names.sitesOfBindings bindingItems ++
        (names.bind bindingItems).sitesOfOperands name none bodyItems := by
    rw [Names.sites]
    exact operator
  have peak : livePeak live
        (.list (.symbol name nameSpan :: .vector bindingItems vectorSpan :: bodyItems) span) =
      max (bindingsPeak live bindingItems)
        (expressionsPeak (live + bindingItems.length / 2) bodyItems) := by
    rw [livePeak]
    exact operator
  have kind : names.kindOf
        (.list (.symbol name nameSpan :: .vector bindingItems vectorSpan :: bodyItems) span) =
      (names.bind bindingItems).lastKind .nil bodyItems := by
    rw [Names.kindOf]
    exact operator
  rw [resolve_let operator, sites, peak, kind]
  refine (bindings_verdict checked even each views.push span []).bind ?_
  rintro ⟨bindings, inner⟩ ⟨viewsInner, extended, reached⟩
  apply (body_verdict eachBody viewsInner name [] .nil).map
  rintro ⟨body, _, last⟩ ⟨rfl, rfl⟩
  refine ⟨_, rfl, rfl, ?_⟩
  -- Closing the frame gives the slots back, so only the peak is left of it.
  have closed := (extended.trans (Extends.raise viewsInner.framed
    (Nat.le_max_left inner.peak (expressionsPeak (live + bindingItems.length / 2) bodyItems)))).pop
    views.framed
  rw [closed, reached, ← Nat.max_assoc]
  rfl

end Nodes

theorem resolve_symbol (scope : Scope) (name : String) (span : Span) :
    resolve scope (.symbol name span) =
      resolveName scope name span >>= fun (expr, kind) => .ok (expr, kind, scope) := by
  rw [resolve]
  cases resolveName scope name span <;> rfl

/-- Resolution says of every node that the grammar accepts what it should. -/
theorem judged (node : Node) (checked : Checked node) : Judged node := by
  induction node using Node.sizeInduction with
  | step node smaller =>
      intro scope names live views
      cases node with
      | number value span =>
          rw [resolve, Names.sites, livePeak, Names.kindOf]
          · exact .accepted (by simp) views.room ⟨rfl, raise_self views.below⟩
          all_goals simp
      | string value span =>
          rw [resolve, Names.sites, livePeak, Names.kindOf]
          · exact .accepted (by simp) views.room ⟨rfl, raise_self views.below⟩
          all_goals simp
      | symbol name span =>
          rw [resolve_symbol, Names.sites, livePeak, Names.kindOf]
          · apply (resolveName_verdict views name span).map
            intro found known
            exact ⟨_, rfl, known, raise_self views.below⟩
          all_goals simp
      | vector items span => simp [Checked, Grammar.checkExpression, complain] at checked
      | list items span =>
          cases items with
          | nil =>
              rw [resolve, Names.sites, livePeak, Names.kindOf]
              · exact .accepted (by simp) views.room ⟨rfl, raise_self views.below⟩
              all_goals simp
          | cons head arguments =>
              cases head with
              | symbol name nameSpan =>
                  have inside {argument : Node} (member : argument ∈ arguments) :
                      argument.size < (Node.list (.symbol name nameSpan :: arguments) span).size :=
                    Node.size_of_item (List.mem_cons_of_mem _ member)
                  by_cases isLet : Operator.ofName name = .localBinding
                  · obtain ⟨bindingItems, vectorSpan, bodyItems, rfl, even, bound⟩ :=
                      let_shape isLet checked
                    have values := checked_let isLet checked
                    refine let_judged isLet even bound ?_ ?_ scope names live views
                    · intro entry member
                      refine smaller entry.2 ?_ (values entry (List.mem_append_left _ member))
                      exact Nat.lt_trans (Node.size_of_vector_item (mem_bindingNodes member))
                        (inside List.mem_cons_self)
                    · intro node member
                      refine smaller node (inside (List.mem_cons_of_mem _ member)) ?_
                      exact values (none, node) (List.mem_append_right _
                        (List.mem_map_of_mem member))
                  · obtain ⟨form, parts⟩ := checked_form checked
                    have each : ∀ argument ∈ arguments, Judged argument := by
                      intro argument member
                      exact smaller argument (inside member) (parts isLet argument member)
                    by_cases isIf : Operator.ofName name = .conditional
                    · have three : arguments.length = 3 := by
                        simpa [Grammar.checkForm, isIf, complain] using form
                      obtain ⟨condition, consequent, alternative, rfl⟩ :=
                        List.length_eq_three.mp three
                      exact conditional_judged isIf each scope names live views
                    · exact form_judged isLet isIf form each scope names live views
              | _ => simp [Checked, Grammar.checkExpression, complain] at checked

/-! Statements and whole bodies. -/

section Statements

variable {scope : Scope} {names : Names} {live : Nat}

theorem resolve_definition (scope : Scope) (headSpan nameSpan span : Span) (name : String)
    (value : Node) :
    resolveStatement scope (.list [.symbol "def" headSpan, .symbol name nameSpan, value] span) =
      resolve scope value >>= fun (value, kind, scope) =>
        match scope.declare? name kind with
        | some (slot, scope) => .ok (.definition slot value, none, scope)
        | none => complain .tooManyLocals span :=
  rfl

theorem statement_verdict {node : Node} (checked : Grammar.checkStatement node = .ok ())
    (views : Views scope names live) :
    Verdict (names.sites (statementNode node).2)
      (max (livePeak live (statementNode node).2) (liveBehind live (statementNode node)))
      (fun found =>
        Views found.2.2 (names.behind (statementNode node)) (liveBehind live (statementNode node)) ∧
          found.2.2.peak = max scope.peak
            (max (livePeak live (statementNode node).2) (liveBehind live (statementNode node))))
      (resolveStatement scope node) := by
  rcases statement_shape checked with ⟨headSpan, name, nameSpan, value, span, rfl, own⟩ |
    ⟨expression, own⟩
  · have definition :
        isDefinition (.list [.symbol "def" headSpan, .symbol name nameSpan, value] span) = true := by
      simp [isDefinition, Node.operatorName?, Node.symbolName?]
    rw [resolve_definition, statementNode_definition definition, liveBehind, Names.behind,
      ← List.append_nil (names.sites value)]
    refine (judged value own scope names live views).bind ?_
    rintro ⟨expr, kind, after⟩ ⟨rfl, rfl⟩
    have viewsAfter := views.raise (Nat.le_max_left scope.peak (livePeak live value))
    simp only
    cases declared : (scope.raise (max scope.peak (livePeak live value))).declare? name
        (names.kindOf value) with
    | none =>
        have full := declare?_eq_none_iff.mp declared
        rw [viewsAfter.next] at full
        exact .exhausted (Nat.lt_succ_of_le full)
    | some found =>
        obtain ⟨slot, next⟩ := found
        obtain ⟨viewsNext, _, peak⟩ := viewsAfter.declare declared
        refine .accepted (by simp) viewsNext.room ⟨viewsNext, ?_⟩
        rw [peak, ← Nat.max_assoc]
        rfl
  · have least := live_le_livePeak live node
    have raised := Nat.le_max_left scope.peak (livePeak live node)
    unfold resolveStatement
    rw [statementNode_expression expression, if_neg expression, liveBehind, Names.behind,
      Nat.max_eq_left least]
    apply (judged node own scope names live views).map
    rintro ⟨expr, kind, after⟩ ⟨_, rfl⟩
    exact ⟨_, rfl, views.raise raised, rfl⟩

theorem live_le_statementsPeak (live : Nat) (entries : List NamedNode) :
    live ≤ statementsPeak live entries := by
  induction entries generalizing live with
  | nil => exact Nat.le_refl _
  | cons entry rest inductionHypothesis =>
      have own := live_le_livePeak live entry.2
      rw [statementsPeak]
      exact Nat.le_trans own (Nat.le_max_left _ _)

theorem statements_verdict {nodes : List Node} (checked : Grammar.check nodes = .ok ())
    (views : Views scope names live) (made : List Statement) (last? : Option Kind) :
    Verdict (names.sitesOfStatements (nodes.map statementNode))
      (statementsPeak live (nodes.map statementNode))
      (fun found => found.2.2.peak =
        max scope.peak (statementsPeak live (nodes.map statementNode)))
      (resolveStatements scope made last? nodes) := by
  induction nodes generalizing scope names live made last? with
  | nil =>
      rw [resolveStatements, List.map_nil, Names.sitesOfStatements, statementsPeak]
      exact .accepted (by simp) views.room (Nat.max_eq_left views.below).symm
  | cons node rest inductionHypothesis =>
      rw [Grammar.check] at checked
      split at checked
      · simp at checked
      · rename_i own
        have least := live_le_statementsPeak (liveBehind live (statementNode node))
          (rest.map statementNode)
        have joined : statementsPeak live ((node :: rest).map statementNode) =
            max (max (livePeak live (statementNode node).2) (liveBehind live (statementNode node)))
              (statementsPeak (liveBehind live (statementNode node)) (rest.map statementNode)) := by
          rw [List.map_cons, statementsPeak]
          omega
        rw [resolveStatements, joined, List.map_cons, Names.sitesOfStatements]
        refine (statement_verdict own views).bind ?_
        rintro ⟨statement, result?, after⟩ ⟨viewsAfter, reached⟩
        refine (inductionHypothesis checked viewsAfter _ _).imp ?_
        intro found peak
        rw [peak, reached]
        exact Nat.max_assoc _ _ _

end Statements

theorem views_ofFields {fields : List Field} {scope : Scope}
    (found : Scope.ofFields? fields = some scope) : Views scope (Names.ofFields fields) 0 := by
  have framed := (orderly_ofFields found).framed
  unfold Scope.ofFields? at found
  split at found
  · obtain rfl := Option.some.inj found
    refine ⟨framed, ?_, rfl, Nat.le_refl _, Nat.zero_le _⟩
    have numbered : fields.zipIdx.map Prod.fst = fields := List.zipIdx_map_fst 0 fields
    simp only [Scope.inView, List.flatMap_cons, List.flatMap_nil, List.nil_append,
      Scope.fieldVariables, List.map_reverse, List.map_map, Names.ofFields]
    conv_rhs => rw [← numbered]
    rw [List.map_map]
    rfl
  · simp at found

def bodySites (fields : List Field) (nodes : List Node) : List Site :=
  (Names.ofFields fields).sitesOfStatements (nodes.map statementNode)

def bodyPeak (nodes : List Node) : Nat :=
  statementsPeak 0 (nodes.map statementNode)

inductive Ended (fields : List Field) (nodes : List Node) : Except CompileError Body → Prop
  | resolved {body : Body} (few : fields.length ≤ Scope.slotCount) (peak : bodyPeak nodes < Scope.slotCount)
      (hold : ∀ site ∈ bodySites fields nodes, site.Holds)
      (locals : body.locals.toNat = bodyPeak nodes) : Ended fields nodes (.ok body)
  | violated {site : Site} (first : firstViolation? (bodySites fields nodes) = some site) :
      Ended fields nodes (.error (.diagnostic site.diagnostic))
  | exhausted {span : Span} (beyond : Scope.slotCount < bodyPeak nodes) :
      Ended fields nodes (complain .tooManyLocals span)
  | tooManyFields (many : Scope.slotCount < fields.length) :
      Ended fields nodes (.error (.internal .tooManyFields))
  | tooManyLocals (full : bodyPeak nodes = Scope.slotCount)
      (hold : ∀ site ∈ bodySites fields nodes, site.Holds) :
      Ended fields nodes (.error (.internal .tooManyLocals))

theorem resolveFragment_ended {fields : List Field} {nodes : List Node}
    (checked : Grammar.check nodes = .ok ()) :
    Ended fields nodes (resolveFragment fields nodes) := by
  unfold resolveFragment
  cases found : Scope.ofFields? fields with
  | none =>
      apply Ended.tooManyFields
      unfold Scope.ofFields? at found
      split at found
      · simp at found
      · rename_i many
        exact Nat.lt_of_not_le many
  | some scope =>
      have few : fields.length ≤ Scope.slotCount := by
        unfold Scope.ofFields? at found
        split at found
        · assumption
        · simp at found
      have views := views_ofFields found
      have unused : scope.peak = 0 := by
        rw [Scope.ofFields?, if_pos few] at found
        rw [← Option.some.inj found]
      have verdict := statements_verdict checked views [] (some .nil)
      simp only
      generalize resolveStatements scope [] (some .nil) nodes = outcome at verdict
      cases verdict with
      | violated first => exact .violated first
      | exhausted beyond => exact .exhausted beyond
      | @accepted result hold room reached =>
          obtain ⟨statements, result?, after⟩ := result
          have peak : after.peak = bodyPeak nodes := by
            have same := reached
            rw [unused, Nat.zero_max] at same
            exact same
          change Ended fields nodes (if after.peak < Scope.slotCount then _ else _)
          by_cases below : after.peak < Scope.slotCount
          · rw [if_pos below]
            have locals : (UInt16.ofNat after.peak).toNat = bodyPeak nodes :=
              (UInt16.toNat_ofNat_of_lt' below).trans peak
            exact .resolved few (peak ▸ below) hold locals
          · rw [if_neg below]
            rw [peak] at below
            exact .tooManyLocals (Nat.le_antisymm room (Nat.le_of_not_lt below)) hold

end Resolution

/-- Resolution accepts a body exactly if every variable is bound and every operand has a kind that will do,
and otherwise it reports the first place, from left to right and from the inside out, where this fails. A
fragment that refers to a name that nothing binds is refused as semantically wrong, however many slots it
would need. -/
theorem resolution_is_exact [ObjectFormat] {fields : List Field} {nodes : List Node}
    (checked : Grammar.check nodes = .ok ()) (few : fields.length ≤ 65535) :
    (Resolution.bodyPeak nodes < 65536 →
      ((∃ body, Resolution.resolveFragment fields nodes = .ok body) ↔
        ∀ site ∈ Resolution.bodySites fields nodes, site.Holds) ∧
      ∀ site, firstViolation? (Resolution.bodySites fields nodes) = some site →
        Resolution.resolveFragment fields nodes = .error (.diagnostic site.diagnostic)) ∧
    ∀ {options : Options} {bindings : Bindings} {number : UInt64} {fragment : Fragment}
      {unit : CompilationUnit Fragment} {names : Names} {name : String} {span : Span},
      CompilationUnit.wrap frontEnd options bindings number fragment = .ok unit →
      CompilationUnit.fieldsOf bindings = fields → fragment.statements = nodes →
      .reference names name span ∈ Resolution.bodySites fields nodes →
      name ∉ reservedNames → names.lookup name = none →
      ∃ message position, unit.compile frontEnd = .error (.semantic message position) := by
  have ended := @Resolution.resolveFragment_ended fields nodes checked
  constructor
  · intro room
    generalize Resolution.resolveFragment fields nodes = outcome at ended
    cases ended with
    | resolved _ _ hold =>
        have none_fails := firstViolation?_eq_none_iff.mpr hold
        refine ⟨⟨fun _ => hold, fun _ => ⟨_, rfl⟩⟩, ?_⟩
        intro site first
        rw [none_fails] at first
        simp at first
    | @violated found first =>
        refine ⟨⟨fun succeeded => by simp at succeeded, ?_⟩, ?_⟩
        · intro hold
          rw [firstViolation?_eq_none_iff.mpr hold] at first
          simp at first
        · intro site other
          rw [Option.some.inj (first.symm.trans other)]
    | exhausted beyond => exact absurd room (Nat.lt_asymm beyond)
    | tooManyFields many => exact absurd few (Nat.not_le_of_lt (Nat.lt_of_succ_lt many))
    | tooManyLocals full _ => exact absurd room (Nat.not_lt_of_le (Nat.le_of_eq full.symm))
  · intro options bindings number fragment unit names name span wrapped sameFields sameNodes member
      other unbound
    have fails : ¬ (Site.reference names name span).Holds := by
      simp [Site.Holds, other, unbound]
    have refused : ∃ found, Resolution.resolveFragment fields nodes = .error (.diagnostic found) := by
      generalize Resolution.resolveFragment fields nodes = outcome at ended
      cases ended with
      | resolved _ _ hold => exact absurd (hold _ member) fails
      | violated first => exact ⟨_, rfl⟩
      | exhausted beyond => exact ⟨_, rfl⟩
      | tooManyFields many => exact absurd few (Nat.not_le_of_lt (Nat.lt_of_succ_lt many))
      | tooManyLocals _ hold => exact absurd (hold _ member) fails
    obtain ⟨found, resolved⟩ := refused
    obtain ⟨_, _, unitFields, unitBody, _⟩ := CompilationUnit.wrap_ok wrapped
    refine ⟨found.cause.message, unit.position found.span, ?_⟩
    rw [compile_eq, translate, unitFields, unitBody, sameFields, sameNodes, checked, resolved]
    rfl

def unboundSum : Fragment :=
  [.list [.symbol "let" ⟨1, 3⟩, .vector [.symbol "y" ⟨6, 1⟩, .symbol "x" ⟨8, 1⟩] ⟨5, 5⟩,
    .list [.symbol "+" ⟨12, 1⟩, .symbol "y" ⟨14, 1⟩, .symbol "z" ⟨16, 1⟩] ⟨11, 7⟩] ⟨0, 19⟩]

theorem unbound_sum_is_refused :
    let fields : List Field := [{ name := "x", value := .integer 41 }]
    (¬ ∃ body, Resolution.resolveFragment fields unboundSum = .ok body) ∧
      Resolution.resolveFragment fields unboundSum =
        .error (.diagnostic { cause := .undefinedVariable "z", span := ⟨16, 1⟩ }) ∧
      ∃ unit message position,
        CompilationUnit.wrap frontEnd {} { entries := [("x", .integer 41)] } 1 unboundSum = .ok unit ∧
          unit.compile frontEnd = .error (.semantic message position) := by
  intro fields
  have checked : Grammar.check unboundSum = .ok () := by decide
  have few : fields.length ≤ 65535 := by decide
  have room : Resolution.bodyPeak unboundSum < 65536 := by decide
  obtain ⟨within, refused⟩ := resolution_is_exact checked few
  obtain ⟨accepted, reported⟩ := within room
  have first : firstViolation? (Resolution.bodySites fields unboundSum) =
      some (.reference [("y", .number), ("x", .number)] "z" ⟨16, 1⟩) := by
    rfl
  have wrapped : CompilationUnit.wrap frontEnd {} { entries := [("x", .integer 41)] } 1 unboundSum =
      .ok { sumUnit with body := unboundSum } := by
    with_unfolding_all rfl
  have member := List.mem_of_find?_eq_some first
  obtain ⟨message, position, compiled⟩ := refused wrapped rfl rfl member (by decide) rfl
  refine ⟨?_, reported _ first, _, message, position, wrapped, compiled⟩
  intro resolved
  exact absurd (accepted.mp resolved _ member) (by decide)

end Lisp
end FragmentLisp
