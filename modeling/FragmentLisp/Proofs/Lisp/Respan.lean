import FragmentLisp.Lisp.Grammar
import FragmentLisp.Lisp.Resolution
import FragmentLisp.Proofs.Node.Respan

/-!
The front end picks the node that it complains of by what the nodes say, never by where they stand. If
the spans of a fragment are replaced, the grammar and the resolution do the same as before, and the span
of a diagnostic is replaced like any other.
-/

namespace FragmentLisp
namespace Lisp

def CompileError.respan (place : Span → Span) : CompileError → CompileError
  | .diagnostic found => .diagnostic { found with span := place found.span }
  | .internal error => .internal error
  | .crashed text? => .crashed text?

section Outcomes

variable {First Second : Type} {place : Span → Span}

def respanOutcome (place : Span → Span) (outcome : Except CompileError First) :
    Except CompileError First :=
  outcome.mapError (CompileError.respan place)

@[simp] theorem respanOutcome_ok (result : First) :
    respanOutcome place (.ok result) = .ok result := rfl

@[simp] theorem respanOutcome_error (error : CompileError) :
    respanOutcome place (.error error : Except CompileError First) = .error (error.respan place) := rfl

@[simp] theorem respanOutcome_complain (cause : Diagnostic.Cause) (span : Span) :
    respanOutcome place (complain cause span : Except CompileError First) =
      complain cause (place span) := rfl

@[simp] theorem respanOutcome_bind (first : Except CompileError First)
    (rest : First → Except CompileError Second) :
    respanOutcome place (first >>= rest) =
      respanOutcome place first >>= fun value => respanOutcome place (rest value) := by
  cases first <;> rfl

@[simp] theorem respanOutcome_map (convert : First → Second) (outcome : Except CompileError First) :
    respanOutcome place (convert <$> outcome) = convert <$> respanOutcome place outcome := by
  cases outcome <;> rfl

@[simp] theorem respanOutcome_pure (result : First) :
    respanOutcome place (pure result : Except CompileError First) = pure result := rfl

end Outcomes

open Node (respan respan_list respan_vector)

variable {place : Span → Span}

namespace Grammar

theorem checkForm_respan (name : String) (nameSpan span : Span) (count : Nat) :
    checkForm name (place nameSpan) (place span) count =
      respanOutcome place (checkForm name nameSpan span count) := by
  unfold checkForm
  generalize Operator.ofName name = operator
  simp only
  split
  all_goals first
    | rfl
    | split <;> rfl

theorem checkName_respan (otherwise : Diagnostic.Cause) (node : Node) :
    checkName otherwise (node.respan place) = respanOutcome place (checkName otherwise node) := by
  cases node with
  | symbol name span =>
      simp only [respan, checkName]
      split <;> rfl
  | _ => simp [respan, checkName, Node.span]

theorem checkExpressions_respan {nodes : List Node}
    (each : ∀ node ∈ nodes,
      checkExpression (node.respan place) = respanOutcome place (checkExpression node)) :
    checkExpressions (nodes.map (respan place)) = respanOutcome place (checkExpressions nodes) := by
  induction nodes with
  | nil => rfl
  | cons node rest inductionHypothesis =>
      rw [List.map_cons, checkExpressions, checkExpressions, each node List.mem_cons_self]
      cases checkExpression node with
      | error error => rfl
      | ok _ => exact inductionHypothesis fun other member => each other (List.mem_cons_of_mem _ member)

theorem checkBindings_respan : ∀ nodes : List Node,
    (∀ node ∈ nodes,
      checkExpression (node.respan place) = respanOutcome place (checkExpression node)) →
    checkBindings (nodes.map (respan place)) = respanOutcome place (checkBindings nodes)
  | [], _ => rfl
  | [_], _ => rfl
  | name :: value :: rest, each => by
      have own := each value (List.mem_cons_of_mem _ List.mem_cons_self)
      have others := checkBindings_respan rest fun other member =>
        each other (List.mem_cons_of_mem _ (List.mem_cons_of_mem _ member))
      rw [List.map_cons, List.map_cons, checkBindings, checkBindings, checkName_respan, own]
      cases checkName .bindingNotSymbol name with
      | error error => rfl
      | ok _ =>
          cases checkExpression value with
          | error error => rfl
          | ok _ => exact others

theorem checkList_respan {name : String} {nameSpan span : Span} {arguments : List Node}
    (smaller : ∀ inner, inner.size < (Node.list (.symbol name nameSpan :: arguments) span).size →
      checkExpression (inner.respan place) = respanOutcome place (checkExpression inner)) :
    checkExpression ((Node.list (.symbol name nameSpan :: arguments) span).respan place) =
      respanOutcome place (checkExpression (.list (.symbol name nameSpan :: arguments) span)) := by
  have each : ∀ argument ∈ arguments,
      checkExpression (argument.respan place) = respanOutcome place (checkExpression argument) :=
    fun argument member => smaller argument (Node.size_of_item (List.mem_cons_of_mem _ member))
  have all := checkExpressions_respan each
  rw [respan_list, List.map_cons, respan]
  unfold checkExpression
  rw [List.length_map, checkForm_respan]
  cases checkForm name nameSpan span arguments.length with
  | error error => rfl
  | ok _ =>
      cases Operator.ofName name with
      | localBinding =>
          cases arguments with
          | nil => exact all
          | cons first body =>
              have inBody := checkExpressions_respan fun argument member =>
                each argument (List.mem_cons_of_mem _ member)
              cases first with
              | vector bindings bindingsSpan =>
                  have inBindings := checkBindings_respan bindings fun item member =>
                    smaller item (Nat.lt_trans (Node.size_of_vector_item member)
                      (Node.size_of_item (List.mem_cons_of_mem _ List.mem_cons_self)))
                  rw [List.map_cons, respan_vector]
                  simp only [respanOutcome_ok, List.length_map, inBindings, inBody]
                  split
                  · cases checkBindings bindings <;> rfl
                  · rfl
              | _ => rfl
      | _ => exact all

theorem checkExpression_respan (node : Node) :
    checkExpression (node.respan place) = respanOutcome place (checkExpression node) := by
  induction node using Node.sizeInduction with
  | step node smaller =>
      cases node with
      | list items span =>
          cases items with
          | nil => simp [respan, Node.respanAll, checkExpression]
          | cons head arguments =>
              cases head with
              | symbol name nameSpan => exact checkList_respan smaller
              | _ => simp [respan, Node.respanAll, checkExpression, Node.span]
      | _ => simp [respan, checkExpression]

theorem checkStatement_expression {node : Node} (expression : node.operatorName? ≠ some "def") :
    checkStatement node = checkExpression node := by
  unfold checkStatement
  split
  · exact absurd rfl expression
  · rfl

theorem checkStatement_respan (node : Node) :
    checkStatement (node.respan place) = respanOutcome place (checkStatement node) := by
  by_cases definition : node.operatorName? = some "def"
  · obtain ⟨nameSpan, arguments, span, rfl⟩ := Node.form_of_operatorName? definition
    rw [respan_list, List.map_cons, respan]
    unfold checkStatement
    match arguments with
    | [] | [_] | _ :: _ :: _ :: _ => simp
    | [name, value] =>
        simp only [List.map_cons, List.map_nil, checkName_respan, checkExpression_respan]
        cases checkName .definitionNotSymbol name <;> rfl
  · have other : (node.respan place).operatorName? ≠ some "def" := by
      rwa [Node.operatorName?_respan]
    rw [checkStatement_expression definition, checkStatement_expression other,
      checkExpression_respan]

theorem check_respan (nodes : List Node) :
    check (nodes.map (respan place)) = respanOutcome place (check nodes) := by
  induction nodes with
  | nil => rfl
  | cons node rest inductionHypothesis =>
      rw [List.map_cons, check, check, checkStatement_respan]
      cases checkStatement node with
      | error error => rfl
      | ok _ => exact inductionHypothesis

end Grammar

namespace Resolution

theorem resolveName_respan (scope : Scope) (name : String) (span : Span) :
    resolveName scope name (place span) = respanOutcome place (resolveName scope name span) := by
  unfold resolveName
  split
  · rfl
  · rfl
  · rfl
  · split <;> rfl

theorem accept_respan (operator : String) (wanted? : Option Kind) (span : Span) :
    accept operator wanted? (place span) =
      fun found => respanOutcome place (accept operator wanted? span found) := by
  funext found
  unfold accept
  cases wanted? with
  | none => rfl
  | some wanted =>
      simp only
      split <;> rfl

def Follows (place : Span → Span) (node : Node) : Prop :=
  ∀ scope, resolve scope (node.respan place) = respanOutcome place (resolve scope node)

theorem resolveOperands_respan {nodes : List Node} (each : ∀ node ∈ nodes, Follows place node)
    (operator : String) (wanted? : Option Kind) (scope : Scope) (resolved : List Expr) :
    resolveOperands operator wanted? scope resolved (nodes.map (respan place)) =
      respanOutcome place (resolveOperands operator wanted? scope resolved nodes) := by
  induction nodes generalizing scope resolved with
  | nil => rfl
  | cons node rest inductionHypothesis =>
      have later := inductionHypothesis fun other member => each other (List.mem_cons_of_mem _ member)
      rw [List.map_cons, resolveOperands, resolveOperands, each node List.mem_cons_self,
        Node.span_respan]
      simp only [respanOutcome_bind, accept_respan, later]

theorem resolveBody_respan {nodes : List Node} (each : ∀ node ∈ nodes, Follows place node)
    (scope : Scope) (resolved : List Expr) (kind : Kind) :
    resolveBody scope resolved kind (nodes.map (respan place)) =
      respanOutcome place (resolveBody scope resolved kind nodes) := by
  induction nodes generalizing scope resolved kind with
  | nil => rfl
  | cons node rest inductionHypothesis =>
      have later := inductionHypothesis fun other member => each other (List.mem_cons_of_mem _ member)
      rw [List.map_cons, resolveBody, resolveBody, each node List.mem_cons_self]
      simp only [respanOutcome_bind, later]

theorem resolveBindings_respan (span : Span) : ∀ (nodes : List Node) (scope : Scope)
    (resolved : List (UInt16 × Expr)), (∀ node ∈ nodes, Follows place node) →
    resolveBindings (place span) scope resolved (nodes.map (respan place)) =
      respanOutcome place (resolveBindings span scope resolved nodes)
  | [], _, _, _ => rfl
  | [_], _, _, _ => rfl
  | name :: value :: rest, scope, resolved, each => by
      have own := each value (List.mem_cons_of_mem _ List.mem_cons_self)
      have others : ∀ node ∈ rest, Follows place node := fun other member =>
        each other (List.mem_cons_of_mem _ (List.mem_cons_of_mem _ member))
      cases name with
      | symbol text textSpan =>
          rw [List.map_cons, List.map_cons, respan, resolveBindings, resolveBindings, own,
            respanOutcome_bind]
          refine congrArg _ (funext fun found => ?_)
          obtain ⟨expr, kind, after⟩ := found
          simp only
          cases after.declare? text kind with
          | none => rfl
          | some declared =>
              exact resolveBindings_respan span rest declared.2 ((declared.1, expr) :: resolved) others
      | _ => simp [respan, resolveBindings, Node.span]

theorem follows_form {name : String} {nameSpan span : Span} {arguments : List Node}
    (smaller : ∀ inner, inner.size < (Node.list (.symbol name nameSpan :: arguments) span).size →
      Follows place inner) :
    Follows place (.list (.symbol name nameSpan :: arguments) span) := by
  have each : ∀ argument ∈ arguments, Follows place argument :=
    fun argument member => smaller argument (Node.size_of_item (List.mem_cons_of_mem _ member))
  intro scope
  rw [respan_list, List.map_cons, respan]
  unfold resolve
  have operands := fun wanted? => resolveOperands_respan each name wanted? scope []
  cases Operator.ofName name with
  | arithmetic op =>
      cases op with
      | subtract =>
          match arguments, each, operands with
          | [node], each, _ =>
              have first := each node List.mem_cons_self
              simp [first scope, accept_respan]
          | [], _, _ => simp [resolveOperands]
          | _ :: _ :: _, _, operands => simp [-List.map_cons, operands]
      | _ => simp [operands]
  | equal =>
      match arguments, each with
      | [left, right], each =>
          have first : Follows place left := each left List.mem_cons_self
          have second : Follows place right := each right (List.mem_cons_of_mem _ List.mem_cons_self)
          simp [first scope, second _]
      | [], _ => rfl
      | [_], _ => rfl
      | _ :: _ :: _ :: _, _ => simp [CompileError.respan]
  | order op =>
      match arguments, each with
      | [left, right], each =>
          have first : Follows place left := each left List.mem_cons_self
          have second : Follows place right := each right (List.mem_cons_of_mem _ List.mem_cons_self)
          simp [first scope, second _, accept_respan]
      | [], _ => rfl
      | [_], _ => rfl
      | _ :: _ :: _ :: _, _ => simp [CompileError.respan]
  | not =>
      match arguments, each with
      | [node], each => simp [each node List.mem_cons_self scope]
      | [], _ => rfl
      | _ :: _ :: _, _ => simp
  | count =>
      match arguments, each with
      | [node], each => simp [each node List.mem_cons_self scope, accept_respan]
      | [], _ => rfl
      | _ :: _ :: _, _ => simp
  | conditional =>
      match arguments, each with
      | [condition, consequent, alternative], each =>
          have first : Follows place condition := each _ List.mem_cons_self
          have second : Follows place consequent := each _ (List.mem_cons_of_mem _ List.mem_cons_self)
          have third : Follows place alternative :=
            each _ (List.mem_cons_of_mem _ (List.mem_cons_of_mem _ List.mem_cons_self))
          simp [first scope, second _, third _]
      | [], _ => rfl
      | [_], _ => rfl
      | [_, _], _ => rfl
      | _ :: _ :: _ :: _ :: _, _ => simp
  | conjunction => simp [operands]
  | disjunction => simp [operands]
  | concat => simp [operands]
  | print newline => simp [operands]
  | localBinding =>
      cases arguments with
      | nil => rfl
      | cons first body =>
          cases first with
          | vector bindings bindingsSpan =>
              have inBody : ∀ node ∈ body, Follows place node := fun node member =>
                each node (List.mem_cons_of_mem _ member)
              have inBindings : ∀ node ∈ bindings, Follows place node := fun node member =>
                smaller node (Nat.lt_trans (Node.size_of_vector_item member)
                  (Node.size_of_item (List.mem_cons_of_mem _ List.mem_cons_self)))
              simp [respan_vector, resolveBindings_respan _ _ _ _ inBindings,
                resolveBody_respan inBody]
          | _ => rfl
  | definition => rfl
  | block => rfl
  | function => rfl
  | unknown => rfl

theorem follows (node : Node) : Follows place node := by
  induction node using Node.sizeInduction with
  | step node smaller =>
      cases node with
      | list items span =>
          cases items with
          | nil =>
              intro scope
              simp [respan, Node.respanAll, resolve]
          | cons head arguments =>
              cases head with
              | symbol name nameSpan => exact follows_form smaller
              | _ =>
                  intro scope
                  simp [respan, Node.respanAll, resolve, Node.span]
      | symbol name span =>
          intro scope
          rw [respan, resolve, resolve, resolveName_respan]
          exact (respanOutcome_map _ _).symm
      | _ =>
          intro scope
          simp [respan, resolve]

theorem resolveStatement_respan (scope : Scope) (node : Node) :
    resolveStatement scope (node.respan place) = respanOutcome place (resolveStatement scope node) := by
  unfold resolveStatement isDefinition
  rw [Node.operatorName?_respan]
  by_cases definition : node.operatorName? = some "def"
  · obtain ⟨nameSpan, arguments, span, rfl⟩ := Node.form_of_operatorName? definition
    simp only [definition, decide_true, if_true, respan_list, List.map_cons]
    match arguments with
    | [] | [_] | _ :: _ :: _ :: _ => simp [Node.span]
    | [name, value] =>
        cases name with
        | symbol text textSpan =>
            simp only [List.map_cons, List.map_nil, respan, follows value scope, respanOutcome_bind]
            refine congrArg _ (funext fun found => ?_)
            split <;> rfl
        | _ => simp [respan, Node.span]
  · simp [definition, follows node scope]

theorem resolveStatements_respan (nodes : List Node) (scope : Scope) (resolved : List Statement)
    (result? : Option Kind) :
    resolveStatements scope resolved result? (nodes.map (respan place)) =
      respanOutcome place (resolveStatements scope resolved result? nodes) := by
  induction nodes generalizing scope resolved result? with
  | nil => rfl
  | cons node rest inductionHypothesis =>
      rw [List.map_cons, resolveStatements, resolveStatements, resolveStatement_respan]
      simp only [respanOutcome_bind, inductionHypothesis]

theorem resolveFragment_respan (fields : List Field) (statements : List Node) :
    resolveFragment fields (statements.map (respan place)) =
      respanOutcome place (resolveFragment fields statements) := by
  unfold resolveFragment
  cases Scope.ofFields? fields with
  | none => rfl
  | some scope =>
      simp only [resolveStatements_respan, respanOutcome_bind]
      refine congrArg _ (funext fun found => ?_)
      split <;> rfl

end Resolution
end Lisp
end FragmentLisp
