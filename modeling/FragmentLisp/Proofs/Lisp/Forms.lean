import FragmentLisp.Lisp.Resolution
import FragmentLisp.Proofs.Lisp.Evaluation

/-!
What resolution turns a node into. A successful resolution is described once, form by form, in terms of
the resolutions of the operands. A local binding and the statements of a body are both steps in turn,
each of which may bind a name.
-/

namespace FragmentLisp
namespace Lisp
namespace Resolution

/-- What a symbol stands for: a literal, or a variable at its place. -/
inductive Denotes (scope : Scope) : String → Expr → Kind → Prop
  | true : Denotes scope "true" (.boolean true) .boolean
  | false : Denotes scope "false" (.boolean false) .boolean
  | nil : Denotes scope "nil" .nil .nil
  | localSlot {name : String} {slot : UInt16} {kind : Kind} (free : name ∉ reservedNames)
      (looked : scope.lookup? name = some ⟨.localSlot slot, kind⟩) :
      Denotes scope name (.localSlot slot) kind
  | field {name : String} {index : UInt16} {kind : Kind} (free : name ∉ reservedNames)
      (looked : scope.lookup? name = some ⟨.field index, kind⟩) :
      Denotes scope name (.field index) kind

/-- Operands in turn, each of a kind that will do. -/
inductive Operands (wanted? : Option Kind) : Scope → List Node → List Expr → Scope → Prop
  | nil (scope : Scope) : Operands wanted? scope [] [] scope
  | cons {scope middle after : Scope} {node : Node} {rest : List Node} {expr : Expr}
      {exprs : List Expr} {kind : Kind} (head : resolve scope node = .ok (expr, kind, middle))
      (fits : ∀ wanted, wanted? = some wanted → kind.admits wanted = true)
      (tail : Operands wanted? middle rest exprs after) :
      Operands wanted? scope (node :: rest) (expr :: exprs) after

abbrev NamedNode := Option String × Node

/-- Steps in turn; a name is bound after its value. The kinds are those of the value that the steps
before have left, and that all have. -/
inductive Steps : Scope → Option Kind → List NamedNode → List Statement → Option Kind → Scope → Prop
  | nil (scope : Scope) (last? : Option Kind) : Steps scope last? [] [] last? scope
  | definition {scope middle next after : Scope} {last? result? : Option Kind} {name : String}
      {node : Node} {rest : List NamedNode} {slot : UInt16} {value : Expr} {kind : Kind}
      {statements : List Statement} (head : resolve scope node = .ok (value, kind, middle))
      (declared : middle.declare? name kind = some (slot, next))
      (tail : Steps next none rest statements result? after) :
      Steps scope last? ((some name, node) :: rest) (.definition slot value :: statements) result?
        after
  | expression {scope middle after : Scope} {last? result? : Option Kind} {node : Node}
      {rest : List NamedNode} {value : Expr} {kind : Kind} {statements : List Statement}
      (head : resolve scope node = .ok (value, kind, middle))
      (tail : Steps middle (some kind) rest statements result? after) :
      Steps scope last? ((none, node) :: rest) (.expression value :: statements) result? after

/-- The forms that evaluate their operands in turn, with their operators and kinds. -/
inductive Form : Operator → Expr → Kind → Prop
  | negate (operand : Expr) : Form (.arithmetic .subtract) (.negate operand) .number
  | arithmetic (op : ArithmeticOp) (operands : List Expr)
      (several : op = .subtract → operands.length ≠ 1) :
      Form (.arithmetic op) (.arithmetic op operands) .number
  | equal (left right : Expr) : Form .equal (.equal left right) .boolean
  | order (op : OrderOp) (left right : Expr) : Form (.order op) (.order op left right) .boolean
  | not (operand : Expr) : Form .not (.not operand) .boolean
  | count (operand : Expr) : Form .count (.count operand) .number
  | conjunction (operands : List Expr) : Form .conjunction (.conjunction operands) .boolean
  | disjunction (operands : List Expr) : Form .disjunction (.disjunction operands) .boolean
  | concat (parts : List Expr) : Form .concat (.concat parts) .string
  | print (newline : Bool) (arguments : List Expr) :
      Form (.print newline) (.print newline arguments) .nil

theorem Form.ordinary {operator : Operator} {expr : Expr} {kind : Kind}
    (form : Form operator expr kind) : operator ≠ .localBinding := by
  rintro rfl
  nomatch form

def bindingNodes : List Node → List NamedNode
  | .symbol name _ :: value :: rest => (some name, value) :: bindingNodes rest
  | _ => []

inductive Resolved (scope : Scope) : Node → Expr → Kind → Scope → Prop
  | number (value : Int64) (span : Span) :
      Resolved scope (.number value span) (.number value) .number scope
  | string (value : String) (span : Span) :
      Resolved scope (.string value span) (.string value) .string scope
  | symbol {name : String} {span : Span} {expr : Expr} {kind : Kind}
      (found : resolveName scope name span = .ok (expr, kind)) :
      Resolved scope (.symbol name span) expr kind scope
  | nil (span : Span) : Resolved scope (.list [] span) .nil .nil scope
  | form {name : String} {nameSpan span : Span} {arguments : List Node} {expr : Expr} {kind : Kind}
      {after : Scope} (form : Form (Operator.ofName name) expr kind)
      (operands : Operands expr.demand? scope arguments expr.parts after) :
      Resolved scope (.list (.symbol name nameSpan :: arguments) span) expr kind after
  | conditional {name : String} {nameSpan span : Span} {condition consequent alternative : Node}
      {test chosen other : Expr} {testKind chosenKind otherKind : Kind}
      {first second third : Scope} (operator : Operator.ofName name = .conditional)
      (testResolved : resolve scope condition = .ok (test, testKind, first))
      (chosenResolved : resolve first consequent = .ok (chosen, chosenKind, second))
      (otherResolved : resolve second alternative = .ok (other, otherKind, third)) :
      Resolved scope
        (.list [.symbol name nameSpan, condition, consequent, alternative] span)
        (.conditional test chosen other) (chosenKind.join otherKind) third
  | localBinding {name : String} {nameSpan vectorSpan span : Span} {bindingItems bodyItems : List Node}
      {bindings : List (UInt16 × Expr)} {body : List Expr} {result? : Option Kind} {inner : Scope}
      (operator : Operator.ofName name = .localBinding)
      (steps : Steps scope.push none
        (bindingNodes bindingItems ++ bodyItems.map fun node => (none, node))
        (bindingSteps bindings body) result? inner) :
      Resolved scope
        (.list (.symbol name nameSpan :: .vector bindingItems vectorSpan :: bodyItems) span)
        (.localBinding bindings body) (result?.getD .nil) inner.pop

section Inversion

theorem denotes_of_ok {scope : Scope} {name : String} {span : Span} {expr : Expr} {kind : Kind}
    (found : resolveName scope name span = .ok (expr, kind)) : Denotes scope name expr kind := by
  unfold resolveName at found
  split at found
  · obtain ⟨rfl, rfl⟩ := Prod.mk.inj (Except.ok.inj found)
    exact .true
  · obtain ⟨rfl, rfl⟩ := Prod.mk.inj (Except.ok.inj found)
    exact .false
  · obtain ⟨rfl, rfl⟩ := Prod.mk.inj (Except.ok.inj found)
    exact .nil
  · rename_i notTrue notFalse notNil
    have free : name ∉ reservedNames := by
      simp only [reservedNames, List.mem_cons, List.not_mem_nil, or_false, not_or]
      exact ⟨notTrue, notFalse, notNil⟩
    split at found
    · rename_i looked
      obtain ⟨rfl, rfl⟩ := Prod.mk.inj (Except.ok.inj found)
      exact .localSlot free looked
    · rename_i looked
      obtain ⟨rfl, rfl⟩ := Prod.mk.inj (Except.ok.inj found)
      exact .field free looked
    · simp [complain] at found

theorem accept_ok {operator : String} {wanted? : Option Kind} {span : Span} {expr operand : Expr}
    {kind : Kind} {scope after : Scope}
    (accepted : accept operator wanted? span (expr, kind, scope) = .ok (operand, after)) :
    operand = expr ∧ after = scope ∧
      ∀ wanted, wanted? = some wanted → kind.admits wanted = true := by
  unfold accept at accepted
  cases wanted? with
  | none =>
      obtain ⟨rfl, rfl⟩ := Prod.mk.inj (Except.ok.inj accepted)
      exact ⟨rfl, rfl, by simp⟩
  | some wanted =>
      simp only at accepted
      split at accepted
      · rename_i admits
        obtain ⟨rfl, rfl⟩ := Prod.mk.inj (Except.ok.inj accepted)
        exact ⟨rfl, rfl, fun other same => Option.some.inj same ▸ admits⟩
      · simp [complain] at accepted

theorem operand_of_ok {operator : String} {wanted? : Option Kind} {span : Span} {node : Node}
    {operand : Expr} {scope after : Scope}
    (succeeded : resolve scope node >>= accept operator wanted? span = .ok (operand, after)) :
    ∃ kind, resolve scope node = .ok (operand, kind, after) ∧
      ∀ wanted, wanted? = some wanted → kind.admits wanted = true := by
  obtain ⟨⟨expr, kind, middle⟩, resolved, accepted⟩ := bind_eq_ok.mp succeeded
  obtain ⟨rfl, rfl, fits⟩ := accept_ok accepted
  exact ⟨kind, resolved, fits⟩

theorem operands_of_ok {operator : String} {wanted? : Option Kind} {scope after : Scope}
    {made exprs : List Expr} {nodes : List Node}
    (succeeded : resolveOperands operator wanted? scope made nodes = .ok (exprs, after)) :
    ∃ new, exprs = made.reverse ++ new ∧ Operands wanted? scope nodes new after := by
  induction nodes generalizing scope made with
  | nil =>
      rw [resolveOperands] at succeeded
      obtain ⟨rfl, rfl⟩ := Prod.mk.inj (Except.ok.inj succeeded)
      exact ⟨[], (List.append_nil _).symm, .nil _⟩
  | cons node rest inductionHypothesis =>
      rw [resolveOperands] at succeeded
      obtain ⟨⟨operand, middle⟩, accepted, later⟩ := bind_eq_ok.mp succeeded
      obtain ⟨kind, resolved, fits⟩ := operand_of_ok accepted
      obtain ⟨new, split, tail⟩ := inductionHypothesis later
      exact ⟨operand :: new, by rw [split]; simp, .cons resolved fits tail⟩

theorem listed_of_ok {operator : String} {wanted? : Option Kind} {scope after : Scope}
    {nodes : List Node} {expr : Expr} {known kind : Kind} (build : List Expr → Expr)
    (succeeded : (do
      let (operands, scope) ← resolveOperands operator wanted? scope [] nodes
      return (build operands, known, scope)) = Except.ok (expr, kind, after)) :
    ∃ operands, build operands = expr ∧ known = kind ∧
      Operands wanted? scope nodes operands after := by
  obtain ⟨⟨operands, middle⟩, listed, result⟩ := bind_eq_ok.mp succeeded
  obtain ⟨_, rfl, each⟩ := operands_of_ok listed
  obtain ⟨rfl, rfl, rfl⟩ := by simpa using Except.ok.inj result
  exact ⟨operands, rfl, rfl, each⟩

theorem steps_of_bindings {span : Span} {scope inner : Scope} {made bindings : List (UInt16 × Expr)}
    {nodes : List Node}
    (succeeded : resolveBindings span scope made nodes = .ok (bindings, inner)) :
    ∃ new, bindings = made.reverse ++ new ∧
      ∀ following statements result? after, Steps inner none following statements result? after →
        Steps scope none (bindingNodes nodes ++ following)
          ((new.map fun (slot, value) => .definition slot value) ++ statements) result? after := by
  induction nodes using bindingNodes.induct generalizing scope made with
  | case1 name nameSpan value rest inductionHypothesis =>
      rw [resolveBindings] at succeeded
      obtain ⟨⟨expr, kind, middle⟩, resolved, later⟩ := bind_eq_ok.mp succeeded
      simp only at later
      cases declared : middle.declare? name kind with
      | none => simp [declared, complain] at later
      | some found =>
          rw [declared] at later
          obtain ⟨new, split, steps⟩ := inductionHypothesis later
          refine ⟨(found.1, expr) :: new, by rw [split]; simp, ?_⟩
          intro following statements result? after rest
          exact .definition resolved declared (steps following statements result? after rest)
  | case2 nodes irregular =>
      cases nodes with
      | nil =>
          rw [resolveBindings] at succeeded
          obtain ⟨rfl, rfl⟩ := Prod.mk.inj (Except.ok.inj succeeded)
          refine ⟨[], (List.append_nil _).symm, ?_⟩
          intro following statements result? after rest
          exact rest
      | cons first rest =>
          cases rest with
          | nil => simp [resolveBindings, complain] at succeeded
          | cons second others =>
              cases first with
              | symbol name nameSpan => exact absurd rfl (irregular name nameSpan second others)
              | _ => simp [resolveBindings, complain] at succeeded

theorem steps_of_body {scope after : Scope} {made body : List Expr} {kind last : Kind}
    {nodes : List Node} (succeeded : resolveBody scope made last nodes = .ok (body, kind, after))
    {last? : Option Kind} (before : last?.getD .nil = last) :
    ∃ new result?, body = made.reverse ++ new ∧ result?.getD .nil = kind ∧
      Steps scope last? (nodes.map fun node => (none, node)) (new.map .expression) result? after := by
  induction nodes generalizing scope made last last? with
  | nil =>
      rw [resolveBody] at succeeded
      obtain ⟨rfl, same⟩ := Prod.mk.inj (Except.ok.inj succeeded)
      obtain ⟨rfl, rfl⟩ := Prod.mk.inj same
      exact ⟨[], last?, (List.append_nil _).symm, before, .nil _ _⟩
  | cons node rest inductionHypothesis =>
      rw [resolveBody] at succeeded
      obtain ⟨⟨expr, found, middle⟩, resolved, later⟩ := bind_eq_ok.mp succeeded
      obtain ⟨new, result?, split, result, steps⟩ :=
        inductionHypothesis later (show (some found).getD .nil = found from rfl)
      exact ⟨expr :: new, result?, by rw [split]; simp, result, .expression resolved steps⟩

theorem Operands.length {wanted? : Option Kind} {scope after : Scope} {nodes : List Node}
    {exprs : List Expr} (operands : Operands wanted? scope nodes exprs after) :
    nodes.length = exprs.length := by
  induction operands with
  | nil scope => rfl
  | cons _ _ _ inductionHypothesis =>
      rw [List.length_cons, List.length_cons, inductionHypothesis]

theorem fits_any {kind : Kind} : ∀ wanted, none = some wanted → kind.admits wanted = true := by
  intro wanted impossible
  simp at impossible

theorem resolved_of_list {scope after : Scope} {name : String} {nameSpan span : Span}
    {arguments : List Node} {expr : Expr} {kind : Kind}
    (succeeded : resolve scope (.list (.symbol name nameSpan :: arguments) span) =
      .ok (expr, kind, after)) :
    Resolved scope (.list (.symbol name nameSpan :: arguments) span) expr kind after := by
  unfold resolve at succeeded
  simp only at succeeded
  -- One case for each alternative of the resolver, in its order.
  split at succeeded
  · rename_i operator
    obtain ⟨⟨operand, middle⟩, accepted, result⟩ := bind_eq_ok.mp succeeded
    obtain ⟨kind, resolved, fits⟩ := operand_of_ok accepted
    obtain ⟨rfl, rfl, rfl⟩ := by simpa using Except.ok.inj result
    exact .form (operator ▸ .negate operand) (.cons resolved fits (.nil _))
  · rename_i arguments op operator several
    obtain ⟨operands, rfl, rfl, each⟩ := listed_of_ok (.arithmetic op) succeeded
    refine .form (operator ▸ .arithmetic op operands fun subtraction single => ?_) each
    obtain ⟨node, only⟩ := List.length_eq_one_iff.mp (each.length.trans single)
    exact several node only subtraction
  · rename_i operator
    obtain ⟨⟨left, leftKind, middle⟩, leftResolved, later⟩ := bind_eq_ok.mp succeeded
    obtain ⟨⟨right, rightKind, last⟩, rightResolved, result⟩ := bind_eq_ok.mp later
    obtain ⟨rfl, rfl, rfl⟩ := by simpa using Except.ok.inj result
    exact .form (operator ▸ .equal left right)
      (.cons leftResolved fits_any (.cons rightResolved fits_any (.nil _)))
  · simp at succeeded
  · rename_i op leftNode rightNode operator
    obtain ⟨⟨left, middle⟩, leftAccepted, later⟩ := bind_eq_ok.mp succeeded
    obtain ⟨⟨right, last⟩, rightAccepted, result⟩ := bind_eq_ok.mp later
    obtain ⟨leftKind, leftResolved, leftFits⟩ := operand_of_ok leftAccepted
    obtain ⟨rightKind, rightResolved, rightFits⟩ := operand_of_ok rightAccepted
    obtain ⟨rfl, rfl, rfl⟩ := by simpa using Except.ok.inj result
    exact .form (operator ▸ .order op left right)
      (.cons leftResolved leftFits (.cons rightResolved rightFits (.nil _)))
  · simp at succeeded
  · rename_i operator
    obtain ⟨⟨operand, kind, middle⟩, resolved, result⟩ := bind_eq_ok.mp succeeded
    obtain ⟨rfl, rfl, rfl⟩ := by simpa using Except.ok.inj result
    exact .form (operator ▸ .not operand) (.cons resolved fits_any (.nil _))
  · simp [complain] at succeeded
  · rename_i operator
    obtain ⟨⟨operand, middle⟩, accepted, result⟩ := bind_eq_ok.mp succeeded
    obtain ⟨kind, resolved, fits⟩ := operand_of_ok accepted
    obtain ⟨rfl, rfl, rfl⟩ := by simpa using Except.ok.inj result
    exact .form (operator ▸ .count operand) (.cons resolved fits (.nil _))
  · simp [complain] at succeeded
  · rename_i operator
    obtain ⟨operands, rfl, rfl, each⟩ := listed_of_ok .conjunction succeeded
    exact .form (operator ▸ .conjunction operands) each
  · rename_i operator
    obtain ⟨operands, rfl, rfl, each⟩ := listed_of_ok .disjunction succeeded
    exact .form (operator ▸ .disjunction operands) each
  · rename_i operator
    obtain ⟨⟨test, testKind, first⟩, testResolved, later⟩ := bind_eq_ok.mp succeeded
    obtain ⟨⟨chosen, chosenKind, second⟩, chosenResolved, last⟩ := bind_eq_ok.mp later
    obtain ⟨⟨other, otherKind, third⟩, otherResolved, result⟩ := bind_eq_ok.mp last
    obtain ⟨rfl, rfl, rfl⟩ := by simpa using Except.ok.inj result
    exact .conditional operator testResolved chosenResolved otherResolved
  · simp [complain] at succeeded
  · rename_i operator
    obtain ⟨⟨bindings, middle⟩, bound, later⟩ := bind_eq_ok.mp succeeded
    obtain ⟨⟨body, bodyKind, inner⟩, listed, result⟩ := bind_eq_ok.mp later
    obtain ⟨_, rfl, steps⟩ := steps_of_bindings bound
    obtain ⟨_, result?, rfl, known, bodySteps⟩ :=
      steps_of_body listed (show (none : Option Kind).getD .nil = .nil from rfl)
    obtain ⟨rfl, rfl, rfl⟩ := by simpa using Except.ok.inj result
    rw [← known]
    exact .localBinding operator (steps _ _ _ _ bodySteps)
  · simp [complain] at succeeded
  · rename_i operator
    obtain ⟨operands, rfl, rfl, each⟩ := listed_of_ok .concat succeeded
    exact .form (operator ▸ .concat operands) each
  · rename_i newline operator
    obtain ⟨operands, rfl, rfl, each⟩ := listed_of_ok (.print newline) succeeded
    exact .form (operator ▸ .print newline operands) each
  all_goals simp [complain] at succeeded

/-- A successful resolution is one of the described ones. -/
theorem resolved_of_ok {scope after : Scope} {node : Node} {expr : Expr} {kind : Kind}
    (succeeded : resolve scope node = .ok (expr, kind, after)) :
    Resolved scope node expr kind after := by
  cases node with
  | number value span =>
      rw [resolve] at succeeded
      obtain ⟨rfl, rfl, rfl⟩ := by simpa using Except.ok.inj succeeded
      exact .number value span
  | string value span =>
      rw [resolve] at succeeded
      obtain ⟨rfl, rfl, rfl⟩ := by simpa using Except.ok.inj succeeded
      exact .string value span
  | symbol name span =>
      rw [resolve] at succeeded
      cases found : resolveName scope name span with
      | error error => simp [found, Except.map] at succeeded
      | ok pair =>
          simp only [found, Except.map, Except.ok.injEq, Prod.mk.injEq] at succeeded
          obtain ⟨rfl, rfl, rfl⟩ := succeeded
          exact .symbol found
  | vector items span => simp [resolve, complain] at succeeded
  | list items span =>
      cases items with
      | nil =>
          rw [resolve] at succeeded
          obtain ⟨rfl, rfl, rfl⟩ := by simpa using Except.ok.inj succeeded
          exact .nil span
      | cons head arguments =>
          cases head with
          | symbol name nameSpan => exact resolved_of_list succeeded
          | _ => simp [resolve, complain] at succeeded

end Inversion

end Resolution
end Lisp
end FragmentLisp
