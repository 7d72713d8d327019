import FragmentLisp.Proofs.Lisp.Places
import FragmentLisp.Proofs.Node.Rename

/-!
Names as nothing but names. Under other names for its variables and for the host's fields a fragment passes
the same checks and resolves to the same body, since a body holds places and no names; so the artifact is the
same to the byte. What is wrong with one of the two is wrong with the other, at the same place.
-/

namespace FragmentLisp
namespace Lisp

open Node (rename rename_form rename_vector)

/-- The same cause, with the other name for a variable that it tells of. The words that other causes tell
are operators and reserved names. -/
def Diagnostic.Cause.rename (aliases : Renaming) : Diagnostic.Cause → Diagnostic.Cause
  | undefinedVariable name => undefinedVariable (aliases.apply name)
  | cause => cause

def CompileError.rename (aliases : Renaming) : CompileError → CompileError
  | .diagnostic found => .diagnostic { found with cause := found.cause.rename aliases }
  | .internal error => .internal error
  | .crashed text? => .crashed text?

section Outcomes

variable {First Second Seen View : Type} {aliases : Renaming}

def renamedOutcome (aliases : Renaming) (view : First → Seen) (outcome : Except CompileError First) :
    Except CompileError Seen :=
  (view <$> outcome).mapError (CompileError.rename aliases)

@[simp] theorem renamedOutcome_error (view : First → Seen) (error : CompileError) :
    renamedOutcome aliases view (.error error) = .error (error.rename aliases) := rfl

theorem renamedOutcome_id (outcome : Except CompileError First) :
    renamedOutcome aliases id outcome = outcome.mapError (CompileError.rename aliases) := by
  cases outcome <;> rfl

@[simp] theorem renamedOutcome_complain (view : First → Seen) (cause : Diagnostic.Cause) (span : Span) :
    renamedOutcome aliases view (complain cause span) = complain (cause.rename aliases) span := rfl

theorem bind_renamed {first : Except CompileError First} {renamed : Except CompileError View}
    {view : First → View} {rest : First → Except CompileError Second}
    {renamedRest : View → Except CompileError Seen} {look : Second → Seen}
    (head : renamed = renamedOutcome aliases view first)
    (tail : ∀ found, renamedRest (view found) = renamedOutcome aliases look (rest found)) :
    renamed >>= renamedRest = renamedOutcome aliases look (first >>= rest) := by
  rw [head]
  cases first with
  | error error => rfl
  | ok found => exact tail found

end Outcomes

variable {aliases : Renaming}

namespace Grammar

/-- What a form has to look like has to do with its operator alone. -/
theorem checkForm_renamed (name : String) (nameSpan span : Span) (count : Nat) :
    renamedOutcome aliases id (checkForm name nameSpan span count) =
      checkForm name nameSpan span count := by
  unfold checkForm
  generalize Operator.ofName name = operator
  simp only
  split
  all_goals first
    | rfl
    | split <;> rfl

theorem checkName_rename {otherwise : Diagnostic.Cause} (plain : otherwise.rename aliases = otherwise)
    (node : Node) :
    checkName otherwise (node.rename aliases) =
      renamedOutcome aliases id (checkName otherwise node) := by
  cases node with
  | symbol name span =>
      simp only [rename, checkName, aliases.mem_reservedNames_iff]
      split
      · rename_i reserved
        rw [aliases.reserved name reserved]
        rfl
      · rfl
  | _ => exact congrArg (complain · _) plain.symm

theorem checkExpressions_rename {nodes : List Node}
    (each : ∀ node ∈ nodes,
      checkExpression (node.rename aliases) = renamedOutcome aliases id (checkExpression node)) :
    checkExpressions (nodes.map (rename aliases)) =
      renamedOutcome aliases id (checkExpressions nodes) := by
  induction nodes with
  | nil => rfl
  | cons node rest inductionHypothesis =>
      rw [List.map_cons, checkExpressions, checkExpressions, each node List.mem_cons_self]
      cases checkExpression node with
      | error error => rfl
      | ok _ => exact inductionHypothesis fun other member => each other (List.mem_cons_of_mem _ member)

theorem checkBindings_rename : ∀ nodes : List Node,
    (∀ node ∈ nodes,
      checkExpression (node.rename aliases) = renamedOutcome aliases id (checkExpression node)) →
    checkBindings (nodes.map (rename aliases)) = renamedOutcome aliases id (checkBindings nodes)
  | [], _ => rfl
  | [_], _ => rfl
  | name :: value :: rest, each => by
      have own := each value (List.mem_cons_of_mem _ List.mem_cons_self)
      have others := checkBindings_rename rest fun other member =>
        each other (List.mem_cons_of_mem _ (List.mem_cons_of_mem _ member))
      rw [List.map_cons, List.map_cons, checkBindings, checkBindings, checkName_rename rfl, own]
      cases checkName .bindingNotSymbol name with
      | error error => rfl
      | ok _ =>
          cases checkExpression value with
          | error error => rfl
          | ok _ => exact others

theorem checkList_rename {name : String} {nameSpan span : Span} {arguments : List Node}
    (smaller : ∀ inner, inner.size < (Node.list (.symbol name nameSpan :: arguments) span).size →
      checkExpression (inner.rename aliases) = renamedOutcome aliases id (checkExpression inner)) :
    checkExpression ((Node.list (.symbol name nameSpan :: arguments) span).rename aliases) =
      renamedOutcome aliases id (checkExpression (.list (.symbol name nameSpan :: arguments) span)) := by
  have each : ∀ argument ∈ arguments, checkExpression (argument.rename aliases) =
      renamedOutcome aliases id (checkExpression argument) :=
    fun argument member => smaller argument (Node.size_of_item (List.mem_cons_of_mem _ member))
  have all := checkExpressions_rename each
  have form := @checkForm_renamed aliases name nameSpan span arguments.length
  rw [rename_form]
  unfold checkExpression
  rw [List.length_map]
  cases checked : checkForm name nameSpan span arguments.length with
  | error error =>
      rw [checked] at form
      exact form.symm
  | ok _ =>
      cases Operator.ofName name with
      | localBinding =>
          cases arguments with
          | nil => exact all
          | cons first body =>
              have inBody := checkExpressions_rename fun argument member =>
                each argument (List.mem_cons_of_mem _ member)
              cases first with
              | vector bindings bindingsSpan =>
                  have inBindings := checkBindings_rename bindings fun item member =>
                    smaller item (Nat.lt_trans (Node.size_of_vector_item member)
                      (Node.size_of_item (List.mem_cons_of_mem _ List.mem_cons_self)))
                  rw [List.map_cons, rename_vector]
                  simp only [List.length_map, inBindings, inBody]
                  split
                  · cases checkBindings bindings <;> rfl
                  · rfl
              | _ => rfl
      | _ => exact all

theorem checkExpression_rename (node : Node) :
    checkExpression (node.rename aliases) = renamedOutcome aliases id (checkExpression node) := by
  induction node using Node.sizeInduction with
  | step node smaller =>
      cases node with
      | list items span =>
          cases items with
          | nil => rfl
          | cons head arguments =>
              cases head with
              | symbol name nameSpan => exact checkList_rename smaller
              | _ => rfl
      | _ => rfl

theorem checkStatement_rename (node : Node) :
    checkStatement (node.rename aliases) = renamedOutcome aliases id (checkStatement node) := by
  by_cases definition : node.operatorName? = some "def"
  · obtain ⟨nameSpan, arguments, span, rfl⟩ := Node.form_of_operatorName? definition
    rw [rename_form]
    unfold checkStatement
    match arguments with
    | [] | [_] | _ :: _ :: _ :: _ => simp [Diagnostic.Cause.rename]
    | [name, value] =>
        simp only [List.map_cons, List.map_nil, checkExpression_rename]
        rw [checkName_rename rfl]
        cases checkName .definitionNotSymbol name <;> rfl
  · have other : (node.rename aliases).operatorName? ≠ some "def" := by
      rwa [Node.operatorName?_rename]
    rw [checkStatement_expression definition, checkStatement_expression other,
      checkExpression_rename]

theorem check_rename (nodes : List Node) :
    check (nodes.map (rename aliases)) = renamedOutcome aliases id (check nodes) := by
  induction nodes with
  | nil => rfl
  | cons node rest inductionHypothesis =>
      rw [List.map_cons, check, check, checkStatement_rename]
      cases checkStatement node with
      | error error => rfl
      | ok _ => exact inductionHypothesis

end Grammar

/-! Scopes. -/

namespace Scope

def renameEntries (aliases : Renaming) (entries : List (String × Variable)) :
    List (String × Variable) :=
  entries.map fun entry => (aliases.apply entry.1, entry.2)

def rename (aliases : Renaming) (scope : Scope) : Scope :=
  { scope with
    fields := renameEntries aliases scope.fields
    frames := scope.frames.map fun frame =>
      { frame with locals := renameEntries aliases frame.locals } }

theorem lookup?_rename (scope : Scope) (name : String) :
    (scope.rename aliases).lookup? (aliases.apply name) = scope.lookup? name := by
  have entries : (scope.rename aliases).inView ++ (scope.rename aliases).fields =
      renameEntries aliases (scope.inView ++ scope.fields) := by
    simp [rename, inView, renameEntries, List.flatMap_map, List.map_flatMap]
  rw [lookup?_eq, lookup?_eq, entries, renameEntries, aliases.lookup_map_apply]

theorem declare?_rename (scope : Scope) (name : String) (kind : Kind) :
    (scope.rename aliases).declare? (aliases.apply name) kind =
      (scope.declare? name kind).map fun (slot, after) => (slot, after.rename aliases) := by
  unfold declare?
  have next : (scope.rename aliases).nextSlot = scope.nextSlot := rfl
  rw [next]
  split
  · cases frames : scope.frames with
    | nil => simp [rename, frames]
    | cons innermost outer => simp [rename, renameEntries, frames]
  · rfl

theorem pop_rename (scope : Scope) : (scope.rename aliases).pop = scope.pop.rename aliases := by
  unfold pop
  rcases frames : scope.frames with _ | ⟨innermost, _ | ⟨outer, rest⟩⟩ <;> simp [rename, frames]

end Scope

/-! Resolution. -/

namespace Resolution

def inRenamed {Found Known : Type} (aliases : Renaming) (found : Found × Known × Scope) :
    Found × Known × Scope :=
  (found.1, found.2.1, found.2.2.rename aliases)

def renamedLast {Found : Type} (aliases : Renaming) (found : Found × Scope) : Found × Scope :=
  (found.1, found.2.rename aliases)

/-- Under other names a node resolves to what it is resolved to under its own ones, in any scope. -/
def Carries (aliases : Renaming) (node : Node) : Prop :=
  ∀ scope, resolve (scope.rename aliases) (node.rename aliases) =
    renamedOutcome aliases (inRenamed aliases) (resolve scope node)

theorem resolveName_variable {name : String} (isVariable : name ∉ reservedNames) (scope : Scope)
    (span : Span) :
    resolveName scope name span =
      match scope.lookup? name with
      | some ⟨.localSlot slot, kind⟩ => .ok (.localSlot slot, kind)
      | some ⟨.field index, kind⟩ => .ok (.field index, kind)
      | none => complain (.undefinedVariable name) span := by
  simp only [reservedNames, List.mem_cons, List.not_mem_nil, or_false, not_or] at isVariable
  exact resolveName.eq_4 scope name span isVariable.1 isVariable.2.1 isVariable.2.2

theorem resolveName_rename (scope : Scope) (name : String) (span : Span) :
    resolveName (scope.rename aliases) (aliases.apply name) span =
      renamedOutcome aliases id (resolveName scope name span) := by
  by_cases reserved : name ∈ reservedNames
  · rw [aliases.reserved name reserved]
    simp only [reservedNames, List.mem_cons, List.not_mem_nil, or_false] at reserved
    rcases reserved with rfl | rfl | rfl <;> rfl
  · have other : aliases.apply name ∉ reservedNames := by rwa [aliases.mem_reservedNames_iff]
    rw [resolveName_variable reserved, resolveName_variable other, Scope.lookup?_rename]
    rcases scope.lookup? name with _ | ⟨_ | _, kind⟩ <;> rfl

theorem accept_rename (operator : String) (wanted? : Option Kind) (span : Span)
    (found : Expr × Kind × Scope) :
    accept operator wanted? span (inRenamed aliases found) =
      renamedOutcome aliases (renamedLast aliases) (accept operator wanted? span found) := by
  obtain ⟨operand, kind, after⟩ := found
  cases wanted? with
  | none => rfl
  | some wanted =>
      by_cases admitted : kind.admits wanted = true
      · simp only [accept, inRenamed, admitted, if_true]
        rfl
      · simp only [accept, inRenamed, admitted]
        rfl

theorem operand_rename {node : Node} (carries : Carries aliases node) (operator : String)
    (wanted? : Option Kind) (scope : Scope) :
    resolve (scope.rename aliases) (node.rename aliases) >>=
        accept operator wanted? (node.rename aliases).span =
      renamedOutcome aliases (renamedLast aliases)
        (resolve scope node >>= accept operator wanted? node.span) := by
  rw [Node.span_rename]
  exact bind_renamed (carries scope) (accept_rename operator wanted? node.span)

theorem resolveOperands_rename {nodes : List Node} (each : ∀ node ∈ nodes, Carries aliases node)
    (operator : String) (wanted? : Option Kind) (scope : Scope) (resolved : List Expr) :
    resolveOperands operator wanted? (scope.rename aliases) resolved
        (nodes.map (Node.rename aliases)) =
      renamedOutcome aliases (renamedLast aliases)
        (resolveOperands operator wanted? scope resolved nodes) := by
  induction nodes generalizing scope resolved with
  | nil => rfl
  | cons node rest inductionHypothesis =>
      have own := operand_rename (each node List.mem_cons_self) operator wanted? scope
      rw [List.map_cons, resolveOperands, resolveOperands]
      refine bind_renamed own ?_
      rintro ⟨operand, after⟩
      exact inductionHypothesis (fun other member => each other (List.mem_cons_of_mem _ member))
        after (operand :: resolved)

theorem resolveBody_rename {nodes : List Node} (each : ∀ node ∈ nodes, Carries aliases node)
    (scope : Scope) (resolved : List Expr) (kind : Kind) :
    resolveBody (scope.rename aliases) resolved kind (nodes.map (Node.rename aliases)) =
      renamedOutcome aliases (inRenamed aliases)
        (resolveBody scope resolved kind nodes) := by
  induction nodes generalizing scope resolved kind with
  | nil => rfl
  | cons node rest inductionHypothesis =>
      rw [List.map_cons, resolveBody, resolveBody]
      refine bind_renamed (each node List.mem_cons_self scope) ?_
      rintro ⟨expression, kind, after⟩
      exact inductionHypothesis (fun other member => each other (List.mem_cons_of_mem _ member))
        after (expression :: resolved) kind

theorem resolveBindings_rename (span : Span) : ∀ (nodes : List Node) (scope : Scope)
    (resolved : List (UInt16 × Expr)), (∀ node ∈ nodes, Carries aliases node) →
    resolveBindings span (scope.rename aliases) resolved (nodes.map (Node.rename aliases)) =
      renamedOutcome aliases (renamedLast aliases) (resolveBindings span scope resolved nodes)
  | [], _, _, _ => rfl
  | [_], _, _, _ => rfl
  | name :: value :: rest, scope, resolved, each => by
      have own := each value (List.mem_cons_of_mem _ List.mem_cons_self)
      have others : ∀ node ∈ rest, Carries aliases node := fun other member =>
        each other (List.mem_cons_of_mem _ (List.mem_cons_of_mem _ member))
      cases name with
      | symbol text textSpan =>
          rw [List.map_cons, List.map_cons, Node.rename, resolveBindings, resolveBindings]
          refine bind_renamed (own scope) ?_
          rintro ⟨expr, kind, after⟩
          simp only [inRenamed, Scope.declare?_rename]
          cases after.declare? text kind with
          | none => rfl
          | some declared =>
              exact resolveBindings_rename span rest declared.2 ((declared.1, expr) :: resolved) others
      | _ => rfl

theorem carries_form {name : String} {nameSpan span : Span} {arguments : List Node}
    (smaller : ∀ inner, inner.size < (Node.list (.symbol name nameSpan :: arguments) span).size →
      Carries aliases inner) :
    Carries aliases (.list (.symbol name nameSpan :: arguments) span) := by
  have each : ∀ argument ∈ arguments, Carries aliases argument :=
    fun argument member => smaller argument (Node.size_of_item (List.mem_cons_of_mem _ member))
  intro scope
  rw [rename_form]
  unfold resolve
  have operands := fun wanted? => resolveOperands_rename each name wanted? scope []
  cases Operator.ofName name with
  | arithmetic op =>
      cases op with
      | subtract =>
          rcases arguments with _ | ⟨node, _ | ⟨second, rest⟩⟩
          case cons.nil =>
            have own := operand_rename (each node List.mem_cons_self) name (some .number) scope
            exact bind_renamed own fun _ => rfl
          all_goals exact bind_renamed (operands _) fun _ => rfl
      | _ => exact bind_renamed (operands _) fun _ => rfl
  | equal =>
      rcases arguments with _ | ⟨left, _ | ⟨right, _ | ⟨third, rest⟩⟩⟩
      case cons.cons.nil =>
        have first : Carries aliases left := each left List.mem_cons_self
        have second : Carries aliases right := each right (List.mem_cons_of_mem _ List.mem_cons_self)
        refine bind_renamed (first scope) ?_
        rintro ⟨leftExpr, _, middle⟩
        exact bind_renamed (second middle) fun _ => rfl
      all_goals simp [CompileError.rename]
  | order op =>
      rcases arguments with _ | ⟨left, _ | ⟨right, _ | ⟨third, rest⟩⟩⟩
      case cons.cons.nil =>
        have first := operand_rename (each left List.mem_cons_self) name (some .number)
        have second := operand_rename (each right (List.mem_cons_of_mem _ List.mem_cons_self))
          name (some .number)
        refine bind_renamed (first scope) ?_
        rintro ⟨leftExpr, middle⟩
        exact bind_renamed (second middle) fun _ => rfl
      all_goals simp [CompileError.rename]
  | not =>
      rcases arguments with _ | ⟨node, _ | ⟨second, rest⟩⟩
      case cons.nil => exact bind_renamed (each node List.mem_cons_self scope) fun _ => rfl
      all_goals simp [Diagnostic.Cause.rename]
  | count =>
      rcases arguments with _ | ⟨node, _ | ⟨second, rest⟩⟩
      case cons.nil =>
        have own := operand_rename (each node List.mem_cons_self) name (some .string) scope
        exact bind_renamed own fun _ => rfl
      all_goals simp [Diagnostic.Cause.rename]
  | conditional =>
      rcases arguments with
        _ | ⟨condition, _ | ⟨consequent, _ | ⟨alternative, _ | ⟨fourth, rest⟩⟩⟩⟩
      case cons.cons.cons.nil =>
        have first : Carries aliases condition := each _ List.mem_cons_self
        have second : Carries aliases consequent :=
          each _ (List.mem_cons_of_mem _ List.mem_cons_self)
        have third : Carries aliases alternative :=
          each _ (List.mem_cons_of_mem _ (List.mem_cons_of_mem _ List.mem_cons_self))
        refine bind_renamed (first scope) ?_
        rintro ⟨test, _, tested⟩
        refine bind_renamed (second tested) ?_
        rintro ⟨chosen, _, behind⟩
        exact bind_renamed (third behind) fun _ => rfl
      all_goals simp [Diagnostic.Cause.rename]
  | conjunction | disjunction | concat | print =>
      exact bind_renamed (operands _) fun _ => rfl
  | localBinding =>
      cases arguments with
      | nil => rfl
      | cons first body =>
          cases first with
          | vector bindings bindingsSpan =>
              have inBody : ∀ node ∈ body, Carries aliases node := fun node member =>
                each node (List.mem_cons_of_mem _ member)
              have inBindings : ∀ node ∈ bindings, Carries aliases node := fun node member =>
                smaller node (Nat.lt_trans (Node.size_of_vector_item member)
                  (Node.size_of_item (List.mem_cons_of_mem _ List.mem_cons_self)))
              have bound := resolveBindings_rename span bindings scope.push [] inBindings
              rw [List.map_cons, rename_vector]
              refine bind_renamed bound ?_
              rintro ⟨stores, inner⟩
              refine bind_renamed (resolveBody_rename inBody inner [] .nil) ?_
              rintro ⟨made, kind, last⟩
              exact congrArg (fun after => Except.ok (_, kind, after)) (Scope.pop_rename last)
          | _ => rfl
  | definition | block | function | unknown => rfl

theorem carries (node : Node) : Carries aliases node := by
  induction node using Node.sizeInduction with
  | step node smaller =>
      cases node with
      | list items span =>
          cases items with
          | nil => exact fun _ => rfl
          | cons head arguments =>
              cases head with
              | symbol name nameSpan => exact carries_form smaller
              | _ => exact fun _ => rfl
      | symbol name span =>
          intro scope
          rw [rename, resolve, resolve, resolveName_rename]
          cases resolveName scope name span <;> rfl
      | _ => exact fun _ => rfl

theorem resolveStatement_rename (scope : Scope) (node : Node) :
    resolveStatement (scope.rename aliases) (node.rename aliases) =
      renamedOutcome aliases (inRenamed aliases)
        (resolveStatement scope node) := by
  unfold resolveStatement isDefinition
  rw [Node.operatorName?_rename]
  by_cases definition : node.operatorName? = some "def"
  · obtain ⟨nameSpan, arguments, span, rfl⟩ := Node.form_of_operatorName? definition
    simp only [definition, decide_true, if_true, rename_form]
    match arguments with
    | [] => rfl
    | [_] | _ :: _ :: _ :: _ => simp [Node.span, Diagnostic.Cause.rename]
    | [name, value] =>
        cases name with
        | symbol text textSpan =>
            refine bind_renamed (carries value scope) ?_
            rintro ⟨expr, kind, after⟩
            simp only [inRenamed, Scope.declare?_rename]
            cases after.declare? text kind <;> rfl
        | _ => rfl
  · simp only [definition, decide_false]
    exact bind_renamed (carries node scope) fun _ => rfl

theorem resolveStatements_rename (nodes : List Node) (scope : Scope) (resolved : List Statement)
    (result? : Option Kind) :
    resolveStatements (scope.rename aliases) resolved result? (nodes.map (Node.rename aliases)) =
      renamedOutcome aliases (inRenamed aliases)
        (resolveStatements scope resolved result? nodes) := by
  induction nodes generalizing scope resolved result? with
  | nil => rfl
  | cons node rest inductionHypothesis =>
      rw [List.map_cons, resolveStatements, resolveStatements]
      refine bind_renamed (resolveStatement_rename scope node) ?_
      rintro ⟨statement, result?, after⟩
      exact inductionHypothesis after (statement :: resolved) result?

end Resolution

/-! Whole fragments. -/

def renameField (aliases : Renaming) (field : Field) : Field :=
  { field with name := aliases.apply field.name }

theorem Scope.fieldVariables_rename (fields : List Field) :
    fieldVariables (fields.map (renameField aliases)) =
      renameEntries aliases (fieldVariables fields) := by
  rw [fieldVariables, fieldVariables, renameEntries, List.map_reverse, List.zipIdx_map, List.map_map,
    List.map_map]
  rfl

theorem Scope.ofFields?_rename (fields : List Field) :
    ofFields? (fields.map (renameField aliases)) =
      (ofFields? fields).map (Scope.rename aliases) := by
  unfold ofFields?
  rw [List.length_map, fieldVariables_rename]
  split <;> rfl

theorem Resolution.resolveFragment_rename (fields : List Field) (statements : List Node) :
    resolveFragment (fields.map (renameField aliases)) (statements.map (rename aliases)) =
      renamedOutcome aliases id (resolveFragment fields statements) := by
  unfold resolveFragment
  rw [Scope.ofFields?_rename]
  cases Scope.ofFields? fields with
  | none => rfl
  | some scope =>
      refine bind_renamed (resolveStatements_rename statements scope [] (some .nil)) ?_
      rintro ⟨resolved, result?, after⟩
      have peak : (after.rename aliases).peak = after.peak := rfl
      simp only [inRenamed, peak]
      split <;> rfl

theorem Fragment.statements_rename (fragment : Fragment) :
    statements (fragment.map (rename aliases)) = (statements fragment).map (rename aliases) := by
  match fragment with
  | [] => rfl
  | [node] =>
      by_cases block : node.operatorName? = some "do"
      · obtain ⟨nameSpan, arguments, span, rfl⟩ := Node.form_of_operatorName? block
        rw [List.map_singleton, rename_form]
        rfl
      · have other : (node.rename aliases).operatorName? ≠ some "do" := by
          rwa [Node.operatorName?_rename]
        rw [List.map_singleton, statements_single block, statements_single other]
        rfl
  | _ :: _ :: _ => simp [statements]

def renameUnit (aliases : Renaming) (unit : CompilationUnit Fragment) : CompilationUnit Fragment :=
  { unit with
    fields := unit.fields.map (renameField aliases)
    body := unit.body.map (rename aliases) }

theorem Constants.ofBody_rename (fields : List Field) (body : Body) :
    ofBody (fields.map (renameField aliases)) body = ofBody fields body := by
  rw [ofBody, ofBody, List.foldl_map]
  rfl

/-- The code for the fields knows them by their numbers. A name is told only where a value is missing. -/
theorem Code.ofFields_rename (constants : Constants) (fields : List Field) (index : Nat)
    (made : List Instruction) :
    ofFields constants index made (fields.map (renameField aliases)) =
        ofFields constants index made fields ∨
      ∃ name, ofFields constants index made fields = .error (.fieldWithoutValue name) ∧
        ofFields constants index made (fields.map (renameField aliases)) =
          .error (.fieldWithoutValue (aliases.apply name)) := by
  induction fields generalizing index made with
  | nil => exact .inl rfl
  | cons field rest inductionHypothesis =>
      obtain ⟨name, value⟩ := field
      rw [List.map_cons, ofFields, ofFields]
      cases value with
      | nothing => exact .inr ⟨name, rfl, rfl⟩
      | _ => exact inductionHypothesis (index + 1) _

section Units

variable {unit : CompilationUnit Fragment}

theorem Code.typeDefinition_rename (body : Body) :
    typeDefinition (renameUnit aliases unit) body = typeDefinition unit body ∨
      ∃ name, typeDefinition unit body = .error (.fieldWithoutValue name) ∧
        typeDefinition (renameUnit aliases unit) body =
          .error (.fieldWithoutValue (aliases.apply name)) := by
  have fields : (renameUnit aliases unit).fields = unit.fields.map (renameField aliases) := rfl
  unfold typeDefinition
  simp only [fields, Constants.ofBody_rename, List.length_map]
  rcases @ofFields_rename aliases (Constants.ofBody unit.fields body) unit.fields 0 [] with
    same | ⟨name, missing, renamed⟩
  · simp only [same]
    exact .inl rfl
  · simp only [missing, renamed]
    exact .inr ⟨name, rfl, rfl⟩

theorem check_renameUnit :
    Grammar.check (renameUnit aliases unit).body.statements =
      (Grammar.check unit.body.statements).mapError (CompileError.rename aliases) := by
  have body : (renameUnit aliases unit).body = unit.body.map (rename aliases) := rfl
  rw [body, Fragment.statements_rename, Grammar.check_rename, renamedOutcome_id]

theorem resolveFragment_renameUnit :
    Resolution.resolveFragment (renameUnit aliases unit).fields
        (renameUnit aliases unit).body.statements =
      (Resolution.resolveFragment unit.fields unit.body.statements).mapError
        (CompileError.rename aliases) := by
  have body : (renameUnit aliases unit).body = unit.body.map (rename aliases) := rfl
  have fields : (renameUnit aliases unit).fields = unit.fields.map (renameField aliases) := rfl
  rw [body, fields, Fragment.statements_rename, Resolution.resolveFragment_rename, renamedOutcome_id]

variable [ObjectFormat]

theorem Code.generate_rename_ok {body : Body} {artifact : Artifact} :
    generate (renameUnit aliases unit) body = .ok artifact ↔ generate unit body = .ok artifact := by
  unfold generate
  rcases @typeDefinition_rename aliases unit body with same | ⟨name, missing, renamed⟩
  · rw [same]
  · rw [missing, renamed]
    exact iff_of_false nofun nofun

theorem compile_renameUnit_ok {artifact : Artifact} :
    (renameUnit aliases unit).compile frontEnd = .ok artifact ↔
      unit.compile frontEnd = .ok artifact := by
  rw [compile_eq, compile_eq, mapError_eq_ok, mapError_eq_ok]
  unfold translate
  simp only [bind_eq_ok, check_renameUnit, resolveFragment_renameUnit, mapError_eq_ok,
    Code.generate_rename_ok]

end Units

/-- Only how names are bound matters to a fragment, not the names themselves. Under other names for its
variables and for the host's fields it passes the grammar and resolves as it did, to the same body; an error
is the same one at the same place, and tells a variable by its other name. The artifact is the same to the
byte. Operators stay as they are, also where a variable has the name of one. -/
theorem names_do_not_matter [ObjectFormat] (aliases : Renaming) (unit : CompilationUnit Fragment) :
    Grammar.check (renameUnit aliases unit).body.statements =
        (Grammar.check unit.body.statements).mapError (CompileError.rename aliases) ∧
      Resolution.resolveFragment (renameUnit aliases unit).fields
          (renameUnit aliases unit).body.statements =
        (Resolution.resolveFragment unit.fields unit.body.statements).mapError
          (CompileError.rename aliases) ∧
      (∀ body artifact, Code.generate (renameUnit aliases unit) body = .ok artifact ↔
        Code.generate unit body = .ok artifact) ∧
      ∀ artifact, (renameUnit aliases unit).compile frontEnd = .ok artifact ↔
        unit.compile frontEnd = .ok artifact :=
  ⟨check_renameUnit, resolveFragment_renameUnit, fun _ _ => Code.generate_rename_ok,
    fun _ => compile_renameUnit_ok⟩

def shadowingUnit : CompilationUnit Fragment :=
  { typeName := "Fragment$1"
    entryMethod := "run"
    fields := [⟨"x", .integer 1⟩]
    body :=
      [.list
        [.symbol "let" ⟨1, 3⟩, .vector [.symbol "+" ⟨6, 1⟩, .symbol "x" ⟨8, 1⟩] ⟨5, 5⟩,
          .list [.symbol "+" ⟨12, 1⟩, .symbol "+" ⟨14, 1⟩, .symbol "x" ⟨16, 1⟩] ⟨11, 7⟩] ⟨0, 19⟩]
    shape := .expression
    origin := 0 }

/-- The names of the local and the field may be exchanged; the addition stays. -/
theorem exchanged_names_do_not_matter :
    let aliases := Renaming.swap "+" "x" (by decide) (by decide)
    let body : Body :=
      { statements := [.expression
          (.localBinding [(0, .field 0)] [.arithmetic .add [.localSlot 0, .field 0]])]
        locals := 1
        result? := some .number }
    (renameUnit aliases shadowingUnit).fields = [⟨"+", .integer 1⟩] ∧
      (renameUnit aliases shadowingUnit).body =
        [.list
          [.symbol "let" ⟨1, 3⟩, .vector [.symbol "x" ⟨6, 1⟩, .symbol "+" ⟨8, 1⟩] ⟨5, 5⟩,
            .list [.symbol "+" ⟨12, 1⟩, .symbol "x" ⟨14, 1⟩, .symbol "+" ⟨16, 1⟩] ⟨11, 7⟩] ⟨0, 19⟩] ∧
      Resolution.resolveFragment (renameUnit aliases shadowingUnit).fields
        (renameUnit aliases shadowingUnit).body.statements = .ok body := by
  intro aliases body
  have plus : aliases.apply "+" = "x" := Equiv.swap_apply_left _ _
  have x : aliases.apply "x" = "+" := Equiv.swap_apply_right _ _
  have resolved : Resolution.resolveFragment shadowingUnit.fields
      shadowingUnit.body.statements = .ok body := by
    rfl
  refine ⟨?_, ?_, ?_⟩
  · simp [renameUnit, shadowingUnit, renameField, x]
  · simp [renameUnit, shadowingUnit, rename, Node.renameForm, Node.renameAll, plus, x]
  · rw [(names_do_not_matter aliases shadowingUnit).2.1, resolved]
    rfl

end Lisp
end FragmentLisp
