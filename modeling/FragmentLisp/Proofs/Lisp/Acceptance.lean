import FragmentLisp.Lisp.Grammar
import FragmentLisp.Proofs.Lisp.Resolution

/-!
What a fragment promises that has passed the grammar and the resolution. Every expression of its body
comes from a node of the fragment, with the kind that resolution has worked out for this node, and keeps
the promises that evaluation and code generation rely on.
-/

namespace FragmentLisp

namespace Lisp
namespace Resolution

open Scope (Orderly Extends)
open Occurrence (inTurn inSequence Settled Fine Occurs)

/-! What the grammar asks of the parts of a node. -/

def Checked (node : Node) : Prop :=
  Grammar.checkExpression node = .ok ()

theorem checked_of_expressions {nodes : List Node}
    (checked : Grammar.checkExpressions nodes = .ok ()) : ∀ node ∈ nodes, Checked node := by
  induction nodes with
  | nil => simp
  | cons node rest inductionHypothesis =>
      rw [Grammar.checkExpressions] at checked
      split at checked
      · simp at checked
      · rename_i own
        intro other member
        rcases List.mem_cons.mp member with rfl | later
        · exact own
        · exact inductionHypothesis checked other later

theorem checked_of_bindings {items : List Node} (checked : Grammar.checkBindings items = .ok ()) :
    ∀ entry ∈ bindingNodes items, Checked entry.2 := by
  induction items using bindingNodes.induct with
  | case1 name nameSpan value rest inductionHypothesis =>
      rw [Grammar.checkBindings] at checked
      split at checked
      · simp at checked
      · split at checked
        · simp at checked
        · rename_i own
          intro entry member
          rcases List.mem_cons.mp member with rfl | later
          · exact own
          · exact inductionHypothesis checked entry later
  | case2 items irregular =>
      rw [bindingNodes.eq_2 items irregular]
      simp

theorem checked_form {name : String} {nameSpan span : Span} {arguments : List Node}
    (checked : Checked (.list (.symbol name nameSpan :: arguments) span)) :
    Grammar.checkForm name nameSpan span arguments.length = .ok () ∧
      (Operator.ofName name ≠ .localBinding → ∀ argument ∈ arguments, Checked argument) := by
  unfold Checked Grammar.checkExpression at checked
  split at checked
  · simp at checked
  · rename_i form
    refine ⟨form, fun ordinary => ?_⟩
    split at checked
    · rename_i operator
      exact absurd operator ordinary
    · rename_i operator
      exact absurd operator ordinary
    · exact checked_of_expressions checked

theorem checked_let {name : String} {nameSpan vectorSpan span : Span}
    {bindingItems bodyItems : List Node} (operator : Operator.ofName name = .localBinding)
    (checked : Checked
      (.list (.symbol name nameSpan :: .vector bindingItems vectorSpan :: bodyItems) span)) :
    ∀ entry ∈ bindingNodes bindingItems ++ bodyItems.map fun node => (none, node),
      Checked entry.2 := by
  unfold Checked Grammar.checkExpression at checked
  simp only [operator] at checked
  split at checked
  · simp at checked
  · split at checked
    · split at checked
      · simp at checked
      · rename_i bound
        intro entry member
        rcases List.mem_append.mp member with inBindings | inBody
        · exact checked_of_bindings bound entry inBindings
        · obtain ⟨node, nodeMember, rfl⟩ := List.mem_map.mp inBody
          exact checked_of_expressions checked node nodeMember
    · simp [complain] at checked

theorem several_of_checked {name : String} {nameSpan span : Span} {count : Nat}
    {op : ArithmeticOp} (operator : Operator.ofName name = .arithmetic op)
    (checked : Grammar.checkForm name nameSpan span count = .ok ())
    (plural : op = .subtract → count ≠ 1) : 2 ≤ count := by
  unfold Grammar.checkForm at checked
  simp only [operator] at checked
  cases op with
  | subtract =>
      simp only at checked
      split at checked
      · have other := plural rfl
        omega
      · simp [complain] at checked
  | _ =>
      simp only at checked
      split at checked
      · assumption
      · simp [complain] at checked

/-! Where occurrences come from. -/

/-- An occurrence that comes from a checked node of the given ones. -/
def Traced (roots : List Node) (fieldKinds : List Kind) (slots : Nat) (occurrence : Occurrence) :
    Prop :=
  ∃ root ∈ roots, ∃ node, root.Contains node ∧ Checked node ∧
    Source fieldKinds slots node occurrence

section Traces

variable {roots : List Node} {fieldKinds : List Kind} {slots : Nat}

theorem children_of_form {kinds : List Kind} {base : Nat} {expr : Expr} {operator : Operator}
    {kind : Kind} (form : Form operator expr kind) {child : Occurrence}
    (member : child ∈ Occurrence.children fieldKinds ⟨kinds, base, expr⟩) :
    child.kinds = kinds ∧ child.expr ∈ expr.parts := by
  refine ⟨?_, (Occurrence.child_within member).2.2.2⟩
  cases form with
  | arithmetic op operands several =>
      cases operands with
      | nil => exact absurd member List.not_mem_nil
      | cons first rest =>
          rcases List.mem_cons.mp member with rfl | later
          · rfl
          · exact (Occurrence.mem_inTurn later).1
  | _ => exact (Occurrence.mem_inTurn member).1

/-- What a symbol stands for has no parts, and is in use. -/
theorem resolveName_fine {kinds : List Kind} {scope : Scope} {name : String} {span : Span}
    {expr : Expr} {kind : Kind} (orderly : Orderly fieldKinds kinds scope)
    (found : resolveName scope name span = .ok (expr, kind)) (room : kinds.length ≤ slots)
    (base : Nat) : expr.parts = [] ∧ Fine fieldKinds slots ⟨kinds, base, expr⟩ := by
  cases denotes_of_ok found with
  | true | false | nil => exact ⟨rfl, room, nofun, nofun, nofun, nofun, nofun⟩
  | localSlot _ looked =>
      rcases orderly.lookup looked with ⟨other, same, kindKnown⟩ | ⟨index, same, _⟩
      · obtain rfl := Place.localSlot.inj same
        have inside := (List.getElem?_eq_some_iff.mp kindKnown).1
        exact ⟨rfl, room, fun _ same => Expr.localSlot.inj same ▸ inside, nofun, nofun, nofun,
          nofun⟩
      · simp at same
  | field _ looked =>
      rcases orderly.lookup looked with ⟨slot, same, _⟩ | ⟨other, same, kindKnown⟩
      · simp at same
      · obtain rfl := Place.field.inj same
        have inside := (List.getElem?_eq_some_iff.mp kindKnown).1
        exact ⟨rfl, room, nofun, fun _ same => Expr.field.inj same ▸ inside, nofun, nofun, nofun⟩

theorem childless {parent child : Occurrence} (leaf : parent.expr.parts = []) :
    child ∉ parent.children fieldKinds := by
  intro member
  have inside := (Occurrence.child_within member).2.2.2
  rw [leaf] at inside
  exact absurd inside List.not_mem_nil

theorem Traced.child {parent child : Occurrence} (traced : Traced roots fieldKinds slots parent)
    (member : child ∈ parent.children fieldKinds) : Traced roots fieldKinds slots child := by
  obtain ⟨root, rootMember, node, contains, checked, scope, after, orderly, resolved, higher,
    below⟩ := traced
  obtain ⟨kinds, base, expr⟩ := parent
  generalize Occurrence.kind fieldKinds ⟨kinds, base, expr⟩ = kind at resolved
  cases resolved_of_ok resolved with
  | number value span => exact absurd member (childless rfl)
  | string value span => exact absurd member (childless rfl)
  | symbol found =>
      exact absurd member (childless (resolveName_fine orderly found (Nat.le_refl _) base).1)
  | nil span => exact absurd member (childless rfl)
  | form form operands =>
      obtain ⟨same, inParts⟩ := children_of_form form member
      obtain ⟨_, _, sources⟩ := operands_regular operands (fun node _ => regular fieldKinds node)
        orderly
      obtain ⟨argument, argumentMember, source⟩ := sources _ inParts
      refine ⟨root, rootMember, argument, .list contains (List.mem_cons_of_mem _ argumentMember),
        (checked_form checked).2 form.ordinary argument argumentMember, ?_⟩
      obtain ⟨childKinds, childBase, childExpr⟩ := child
      obtain rfl : childKinds = kinds := same
      exact (source childBase).1.more below
  | @conditional name nameSpan span condition consequent alternative test chosen other testKind
      chosenKind otherKind first second _ operator testResolved chosenResolved otherResolved =>
      have ordinary : Operator.ofName name ≠ .localBinding := by
        rw [operator]
        exact nofun
      have arguments := (checked_form checked).2 ordinary
      have orderlyFirst := (regular fieldKinds condition).orderly orderly testResolved
      have orderlySecond := (regular fieldKinds consequent).orderly orderlyFirst chosenResolved
      obtain ⟨rfl, firstHigher, _⟩ := regular fieldKinds condition _ _ _ _ _ orderly testResolved
      obtain ⟨rfl, secondHigher, _⟩ :=
        regular fieldKinds consequent _ _ _ _ _ orderlyFirst chosenResolved
      obtain ⟨rfl, thirdHigher, _⟩ :=
        regular fieldKinds alternative _ _ _ _ _ orderlySecond otherResolved
      have toSecond := Nat.le_trans thirdHigher below
      have toFirst := Nat.le_trans secondHigher toSecond
      rcases List.mem_cons.mp member with rfl | later
      · exact ⟨root, rootMember, condition, .list contains (List.mem_cons_of_mem _
          List.mem_cons_self), arguments _ List.mem_cons_self, scope, first, orderly, testResolved,
          firstHigher, toFirst⟩
      · rcases List.mem_cons.mp later with rfl | last
        · exact ⟨root, rootMember, consequent, .list contains (List.mem_cons_of_mem _
            (List.mem_cons_of_mem _ List.mem_cons_self)),
            arguments _ (List.mem_cons_of_mem _ List.mem_cons_self), first, second, orderlyFirst,
            chosenResolved, secondHigher, toSecond⟩
        · obtain rfl := List.mem_singleton.mp last
          exact ⟨root, rootMember, alternative, .list contains (List.mem_cons_of_mem _
            (List.mem_cons_of_mem _ (List.mem_cons_of_mem _ List.mem_cons_self))),
            arguments _ (List.mem_cons_of_mem _ (List.mem_cons_of_mem _ List.mem_cons_self)),
            second, after, orderlySecond, otherResolved, thirdHigher, below⟩
  | localBinding operator steps =>
      obtain ⟨extended, _, _, sources⟩ := steps_regular steps
        (fun entry _ => regular fieldKinds entry.2) orderly.push
      rw [extended.pop orderly.framed] at below
      obtain ⟨entry, entryMember, source⟩ := sources base child member
      refine ⟨root, rootMember, entry.2, ?_, checked_let operator checked entry entryMember,
        source.more below⟩
      rcases mem_letNodes entryMember with bound | inBody
      · exact .vector (.list contains (List.mem_cons_of_mem _ List.mem_cons_self)) bound
      · exact .list contains (List.mem_cons_of_mem _ (List.mem_cons_of_mem _ inBody))

theorem Traced.fine {occurrence : Occurrence} (traced : Traced roots fieldKinds slots occurrence) :
    Fine fieldKinds slots occurrence := by
  obtain ⟨root, rootMember, node, contains, checked, scope, after, orderly, resolved, higher,
    below⟩ := traced
  have room := Nat.le_trans orderly.room (Nat.le_trans higher below)
  obtain ⟨kinds, base, expr⟩ := occurrence
  generalize Occurrence.kind fieldKinds ⟨kinds, base, expr⟩ = kind at resolved
  cases resolved_of_ok resolved with
  | number | string | nil | conditional =>
      exact ⟨room, by rintro _ ⟨⟩, by rintro _ ⟨⟩, by rintro _ _ ⟨⟩, by rintro _ ⟨⟩,
        by rintro _ _ ⟨⟩⟩
  | symbol found => exact (resolveName_fine orderly found room base).2
  | @form name nameSpan span arguments _ _ _ form operands =>
      have admitted : ∀ wanted, expr.demand? = some wanted →
          ∀ child ∈ Occurrence.children fieldKinds ⟨kinds, base, expr⟩,
            (child.kind fieldKinds).admits wanted = true := by
        intro wanted demanded child member
        obtain ⟨same, inParts⟩ := children_of_form form member
        obtain ⟨_, _, sources⟩ := operands_regular operands
          (fun node _ => regular fieldKinds node) orderly
        obtain ⟨_, _, source⟩ := sources _ inParts
        rw [Occurrence.kind, same]
        exact (source 0).2 wanted demanded
      have count := operands.length
      generalize known : Operator.ofName name = operator at form
      cases form with
      | arithmetic op operands plural =>
          refine ⟨room, by rintro _ ⟨⟩, by rintro _ ⟨⟩, ?_, admitted, by rintro _ _ ⟨⟩⟩
          rintro _ _ ⟨rfl, rfl⟩
          have several := several_of_checked known (checked_form checked).1
            fun subtraction => count ▸ plural subtraction
          rwa [count] at several
      | _ =>
          exact ⟨room, by rintro _ ⟨⟩, by rintro _ ⟨⟩, by rintro _ _ ⟨⟩, admitted,
            by rintro _ _ ⟨⟩⟩
  | localBinding operator steps =>
      obtain ⟨extended, _, numbered, _⟩ := steps_regular steps
        (fun entry _ => regular fieldKinds entry.2) orderly.push
      rw [extended.pop orderly.framed] at below
      refine ⟨room, by rintro _ ⟨⟩, by rintro _ ⟨⟩, by rintro _ _ ⟨⟩, by rintro _ ⟨⟩, ?_⟩
      rintro _ _ ⟨rfl, rfl⟩
      exact numbered.more below

theorem Traced.settled {occurrence : Occurrence} (traced : Traced roots fieldKinds slots occurrence) :
    Settled fieldKinds slots occurrence := by
  intro inner occurs
  have tracedInner : Traced roots fieldKinds slots inner := by
    induction occurs with
    | self => exact traced
    | child _ member inductionHypothesis => exact inductionHypothesis.child member
  exact tracedInner.fine

end Traces

/-! Whole bodies. -/

def fieldKinds (fields : List Field) : List Kind :=
  fields.map fun field => Kind.ofValue field.value

theorem orderly_ofFields {fields : List Field} {scope : Scope}
    (found : Scope.ofFields? fields = some scope) : Orderly (fieldKinds fields) [] scope := by
  unfold Scope.ofFields? at found
  split at found
  · rename_i few
    obtain rfl := Option.some.inj found
    refine ⟨List.cons_ne_nil _ _, rfl, Nat.le_refl _, by simp [Scope.inView], ?_⟩
    intro entry member
    obtain ⟨⟨field, index⟩, numbered, rfl⟩ := List.mem_map.mp (List.mem_reverse.mp member)
    have known := List.mk_mem_zipIdx_iff_getElem?.mp numbered
    have inside := (List.getElem?_eq_some_iff.mp known).1
    have word : (UInt16.ofNat index).toNat = index :=
      UInt16.toNat_ofNat_of_lt' (Nat.lt_of_lt_of_le inside few)
    exact ⟨UInt16.ofNat index, rfl, by rw [word, fieldKinds, List.getElem?_map, known]; rfl⟩
  · simp at found

def statementNode (node : Node) : NamedNode :=
  if isDefinition node then
    match node with
    | .list [_, .symbol name _, value] _ => (some name, value)
    | node => (none, node)
  else
    (none, node)

theorem statementNode_definition {head value : Node} {name : String} {nameSpan span : Span}
    (definition : isDefinition (.list [head, .symbol name nameSpan, value] span) = true) :
    statementNode (.list [head, .symbol name nameSpan, value] span) = (some name, value) := by
  simp [statementNode, definition]

theorem statementNode_expression {node : Node} (expression : ¬ isDefinition node = true) :
    statementNode node = (none, node) :=
  if_neg expression

theorem steps_of_statements {scope after : Scope} {made statements : List Statement}
    {last? result? : Option Kind} {nodes : List Node}
    (succeeded : resolveStatements scope made last? nodes = .ok (statements, result?, after)) :
    ∃ new, statements = made.reverse ++ new ∧
      Steps scope last? (nodes.map statementNode) new result? after := by
  induction nodes generalizing scope made last? with
  | nil =>
      rw [resolveStatements] at succeeded
      obtain ⟨rfl, same⟩ := Prod.mk.inj (Except.ok.inj succeeded)
      obtain ⟨rfl, rfl⟩ := Prod.mk.inj same
      exact ⟨[], (List.append_nil _).symm, .nil _ _⟩
  | cons node rest inductionHypothesis =>
      rw [resolveStatements] at succeeded
      obtain ⟨⟨statement, own?, middle⟩, resolved, later⟩ := bind_eq_ok.mp succeeded
      obtain ⟨new, split, tail⟩ := inductionHypothesis later
      refine ⟨statement :: new, by rw [split]; simp, ?_⟩
      unfold resolveStatement at resolved
      rw [List.map_cons]
      split at resolved
      · rename_i definition
        split at resolved
        · rw [statementNode_definition definition]
          obtain ⟨⟨expr, kind, before⟩, head, last⟩ := bind_eq_ok.mp resolved
          simp only at last
          split at last
          · rename_i declared
            obtain ⟨rfl, rfl, rfl⟩ := by simpa using Except.ok.inj last
            exact .definition head declared tail
          · simp [complain] at last
        · simp [complain] at resolved
      · rename_i expression
        rw [statementNode_expression expression]
        obtain ⟨⟨expr, kind, before⟩, head, last⟩ := bind_eq_ok.mp resolved
        obtain ⟨rfl, rfl, rfl⟩ := by simpa using Except.ok.inj last
        exact .expression head tail

theorem contains_statementNode (node : Node) : node.Contains (statementNode node).2 := by
  unfold statementNode
  split
  · split
    · exact .list .self (List.mem_cons_of_mem _ (List.mem_cons_of_mem _ List.mem_cons_self))
    · exact .self
  · exact .self

theorem statement_shape {node : Node} (checked : Grammar.checkStatement node = .ok ()) :
    (∃ headSpan name nameSpan value span,
      node = .list [.symbol "def" headSpan, .symbol name nameSpan, value] span ∧ Checked value) ∨
    ¬ isDefinition node = true ∧ Checked node := by
  unfold Grammar.checkStatement at checked
  split at checked
  · rename_i headSpan arguments span
    split at checked
    · rename_i name value
      split at checked
      · simp at checked
      · rename_i named
        cases name with
        | symbol text textSpan => exact Or.inl ⟨_, _, _, _, _, rfl, checked⟩
        | _ => simp [Grammar.checkName, complain] at named
    · simp [complain] at checked
  · rename_i other
    refine Or.inr ⟨fun definition => ?_, checked⟩
    obtain ⟨nameSpan, arguments, span, rfl⟩ :=
      Node.form_of_operatorName? (of_decide_eq_true definition)
    exact other nameSpan arguments span rfl

theorem checked_statementNode {node : Node} (checked : Grammar.checkStatement node = .ok ()) :
    Checked (statementNode node).2 := by
  rcases statement_shape checked with ⟨headSpan, name, nameSpan, value, span, rfl, own⟩ |
    ⟨expression, own⟩
  · rw [statementNode_definition rfl]
    exact own
  · rw [statementNode_expression expression]
    exact own

theorem checked_of_check {nodes : List Node} (checked : Grammar.check nodes = .ok ()) :
    ∀ node ∈ nodes, Checked (statementNode node).2 := by
  induction nodes with
  | nil => simp
  | cons node rest inductionHypothesis =>
      rw [Grammar.check] at checked
      split at checked
      · simp at checked
      · rename_i own
        intro other member
        rcases List.mem_cons.mp member with rfl | later
        · exact checked_statementNode own
        · exact inductionHypothesis checked other later

/-- A body that statements were resolved to, over fields. -/
structure Derived (fields : List Field) (nodes : List Node) (body : Body) : Prop where
  steps : ∃ scope after, Scope.ofFields? fields = some scope ∧
    Steps scope (some .nil) (nodes.map statementNode) body.statements body.result? after ∧
    after.peak = body.locals.toNat
  checked : ∀ node ∈ nodes, Checked (statementNode node).2

theorem derived_of_ok {fields : List Field} {nodes : List Node} {body : Body}
    (checked : Grammar.check nodes = .ok ())
    (resolved : resolveFragment fields nodes = .ok body) : Derived fields nodes body := by
  refine ⟨?_, checked_of_check checked⟩
  unfold resolveFragment at resolved
  split at resolved
  · simp at resolved
  · rename_i scope found
    obtain ⟨⟨statements, result?, after⟩, listed, later⟩ := bind_eq_ok.mp resolved
    obtain ⟨_, rfl, steps⟩ := steps_of_statements listed
    simp only at later
    split at later
    · rename_i few
      obtain rfl := Except.ok.inj later
      exact ⟨scope, after, found, steps, (UInt16.toNat_ofNat_of_lt' few).symm⟩
    · simp at later

section Bodies

variable {fields : List Field} {nodes : List Node} {body : Body}

theorem Derived.traced (derived : Derived fields nodes body) :
    ∀ child ∈ inSequence (fieldKinds fields) [] 0 body.statements,
      Traced nodes (fieldKinds fields) body.locals.toNat child := by
  obtain ⟨scope, after, found, steps, peak⟩ := derived.steps
  obtain ⟨_, _, _, sources⟩ := steps_regular steps
    (fun entry _ => regular (fieldKinds fields) entry.2) (orderly_ofFields found)
  intro child member
  obtain ⟨entry, entryMember, source⟩ := sources 0 child member
  obtain ⟨node, nodeMember, rfl⟩ := List.mem_map.mp entryMember
  exact ⟨node, nodeMember, _, contains_statementNode node, derived.checked node nodeMember,
    peak ▸ source⟩

theorem Derived.numbered (derived : Derived fields nodes body) :
    Numbered body.locals.toNat 0 body.statements := by
  obtain ⟨scope, after, found, steps, peak⟩ := derived.steps
  obtain ⟨_, _, numbered, _⟩ := steps_regular steps
    (fun entry _ => regular (fieldKinds fields) entry.2) (orderly_ofFields found)
  exact peak ▸ numbered

theorem Derived.result (derived : Derived fields nodes body) :
    body.result? = resultKind? (fieldKinds fields) [] (some .nil) body.statements := by
  obtain ⟨scope, after, found, steps, peak⟩ := derived.steps
  obtain ⟨_, result, _, _⟩ := steps_regular steps
    (fun entry _ => regular (fieldKinds fields) entry.2) (orderly_ofFields found)
  exact result

end Bodies

end Resolution
end Lisp
end FragmentLisp
