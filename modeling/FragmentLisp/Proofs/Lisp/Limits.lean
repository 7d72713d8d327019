import FragmentLisp.Proofs.Artifact.RoundTrip
import FragmentLisp.Proofs.Lisp.Balance
import FragmentLisp.Proofs.Lisp.WellScoped

/-!
The phases agree with each other. What the grammar accepts is resolved, unless a name is not bound or an
operand has a wrong kind, and what is resolved is generated. A unit that was wrapped fails with an error of
the compiler itself only if it exceeds one of a few limits.
-/

namespace FragmentLisp
namespace Lisp

/-! The grammar. -/

/-- Nothing but a diagnostic can make the computation fail. -/
def Complains {Result : Type} (outcome : Except CompileError Result) : Prop :=
  ∀ error, outcome = .error error → ∃ found, error = .diagnostic found

namespace Grammar

theorem complains_ok {Result : Type} (result : Result) : Complains (.ok result) := by
  intro error
  simp

theorem complains_complain {Result : Type} (cause : Diagnostic.Cause) (span : Span) :
    Complains (complain cause span : Except CompileError Result) := by
  intro error failed
  exact ⟨_, (Except.error.inj failed).symm⟩

theorem complains_form (name : String) (nameSpan span : Span) (count : Nat) :
    Complains (checkForm name nameSpan span count) := by
  unfold checkForm
  simp only
  split
  all_goals first
    | exact complains_complain _ _
    | exact complains_ok _
    | split
      · exact complains_ok _
      · exact complains_complain _ _

theorem complains_name (otherwise : Diagnostic.Cause) (node : Node) :
    Complains (checkName otherwise node) := by
  unfold checkName
  split
  · split
    · exact complains_complain _ _
    · exact complains_ok _
  · exact complains_complain _ _

theorem complains_expressions {nodes : List Node}
    (each : ∀ node ∈ nodes, Complains (checkExpression node)) : Complains (checkExpressions nodes) := by
  induction nodes with
  | nil => exact complains_ok _
  | cons node rest inductionHypothesis =>
      rw [checkExpressions]
      split
      · rename_i failed
        exact failed ▸ each node List.mem_cons_self
      · exact inductionHypothesis fun other member => each other (List.mem_cons_of_mem _ member)

theorem complains_bindings : ∀ nodes : List Node,
    (∀ node ∈ nodes, Complains (checkExpression node)) → Complains (checkBindings nodes)
  | [], _ => complains_ok _
  | [_], _ => complains_ok _
  | name :: value :: rest, each => by
      have own := each value (List.mem_cons_of_mem _ List.mem_cons_self)
      have others := complains_bindings rest fun other member =>
        each other (List.mem_cons_of_mem _ (List.mem_cons_of_mem _ member))
      rw [checkBindings]
      split
      · rename_i failed
        exact failed ▸ complains_name _ name
      · split
        · rename_i failed
          exact failed ▸ own
        · exact others

theorem complains_expression (node : Node) : Complains (checkExpression node) := by
  induction node using Node.sizeInduction with
  | step node smaller =>
      unfold checkExpression
      split
      · exact complains_ok _
      · exact complains_ok _
      · exact complains_ok _
      · exact complains_complain _ _
      · exact complains_ok _
      · rename_i name nameSpan arguments span
        have each : ∀ argument ∈ arguments, Complains (checkExpression argument) :=
          fun argument member => smaller argument (Node.size_of_item (List.mem_cons_of_mem _ member))
        split
        · rename_i failed
          exact failed ▸ complains_form name nameSpan span arguments.length
        · split
          · split
            · split
              · rename_i failed
                refine failed ▸ complains_bindings _ fun binding member => smaller binding ?_
                exact Nat.lt_trans (Node.size_of_vector_item member)
                  (Node.size_of_item (List.mem_cons_of_mem _ List.mem_cons_self))
              · exact complains_expressions fun form member =>
                  each form (List.mem_cons_of_mem _ member)
            · exact complains_complain _ _
          · exact complains_complain _ _
          · exact complains_expressions each
      · exact complains_complain _ _

theorem complains_statement (node : Node) : Complains (checkStatement node) := by
  unfold checkStatement
  split
  · split
    · split
      · rename_i failed
        exact failed ▸ complains_name _ _
      · exact complains_expression _
    · exact complains_complain _ _
  · exact complains_expression _

theorem complains_check (nodes : List Node) : Complains (check nodes) := by
  induction nodes with
  | nil => exact complains_ok _
  | cons node rest inductionHypothesis =>
      rw [check]
      split
      · rename_i failed
        exact failed ▸ complains_statement node
      · exact inductionHypothesis

end Grammar
/-! Generation. -/

inductive Expr.Fails : Expr → InternalError → Prop
  | arithmetic (op : ArithmeticOp) : Fails (.arithmetic op []) .missingOperands
  | concat {parts : List Expr} (many : 65536 ≤ parts.length) : Fails (.concat parts) .tooManyOperands
  | print {newline : Bool} {arguments : List Expr} (many : 65536 ≤ 2 * arguments.length - 1) :
      Fails (.print newline arguments) .tooManyOperands

namespace Code

section Failures

variable {constants : Constants} {error : InternalError}

theorem ofExprs_error {gap base : Nat} {made : List (List Instruction)} {exprs : List Expr}
    (failed : ofExprs constants gap base made exprs = .error error) :
    ∃ expr ∈ exprs, ∃ start, ofExpr constants start expr = .error error := by
  induction exprs generalizing base made with
  | nil => simp [ofExprs] at failed
  | cons expr rest inductionHypothesis =>
      rw [ofExprs] at failed
      rcases bind_eq_error.mp failed with own | ⟨code, _, later⟩
      · exact ⟨expr, List.mem_cons_self, base, own⟩
      · obtain ⟨other, member, start, same⟩ := inductionHypothesis later
        exact ⟨other, List.mem_cons_of_mem _ member, start, same⟩

theorem ofBindings_error {base : Nat} {made : List (List Instruction)}
    {bindings : List (UInt16 × Expr)} (failed : ofBindings constants base made bindings = .error error) :
    ∃ expr ∈ bindings.map Prod.snd, ∃ start, ofExpr constants start expr = .error error := by
  induction bindings generalizing base made with
  | nil => simp [ofBindings] at failed
  | cons binding rest inductionHypothesis =>
      obtain ⟨slot, value⟩ := binding
      rw [ofBindings] at failed
      rcases bind_eq_error.mp failed with own | ⟨code, _, later⟩
      · exact ⟨value, List.mem_cons_self, base, own⟩
      · obtain ⟨other, member, start, same⟩ := inductionHypothesis later
        exact ⟨other, List.mem_cons_of_mem _ member, start, same⟩

theorem ofStatements_error {base : Nat} {made : List (List Instruction)} {statements : List Statement}
    (failed : ofStatements constants base made statements = .error error) :
    ∃ expr ∈ statements.map Statement.value, ∃ start, ofExpr constants start expr = .error error := by
  induction statements generalizing base made with
  | nil => simp [ofStatements] at failed
  | cons statement rest inductionHypothesis =>
      cases statement with
      | definition slot value =>
          rw [ofStatements] at failed
          rcases bind_eq_error.mp failed with own | ⟨code, _, later⟩
          · exact ⟨value, List.mem_cons_self, base, own⟩
          · obtain ⟨other, member, start, same⟩ := inductionHypothesis later
            exact ⟨other, List.mem_cons_of_mem _ member, start, same⟩
      | expression value =>
          rw [ofStatements] at failed
          rcases bind_eq_error.mp failed with own | ⟨code, _, later⟩
          · exact ⟨value, List.mem_cons_self, base, own⟩
          · split at later
            · simp [pure, Except.pure] at later
            · obtain ⟨other, member, start, same⟩ := inductionHypothesis later
              exact ⟨other, List.mem_cons_of_mem _ member, start, same⟩

theorem operandCount_error {count : Nat} (failed : operandCount count = .error error) :
    65536 ≤ count ∧ error = .tooManyOperands := by
  unfold operandCount at failed
  split at failed
  · simp at failed
  · exact ⟨by omega, (Except.error.inj failed).symm⟩

/-- Code is not made because of the expression itself or because of one of its parts. -/
theorem ofExpr_error {base : Nat} {expr : Expr} (failed : ofExpr constants base expr = .error error) :
    expr.Fails error ∨ ∃ part ∈ expr.parts, ∃ start, ofExpr constants start part = .error error := by
  cases expr with
  | arithmetic op operands =>
      cases operands with
      | nil =>
          obtain rfl := Except.error.inj failed
          exact Or.inl (.arithmetic op)
      | cons first rest =>
          rw [ofExpr] at failed
          rcases bind_eq_error.mp failed with own | ⟨head, _, later⟩
          · exact Or.inr ⟨first, List.mem_cons_self, base, own⟩
          · rcases bind_eq_error.mp later with others | ⟨pieces, _, result⟩
            · obtain ⟨other, member, start, same⟩ := ofExprs_error others
              exact Or.inr ⟨other, List.mem_cons_of_mem _ member, start, same⟩
            · simp [pure, Except.pure] at result
  | negate operand | not operand | count operand =>
      rw [ofExpr] at failed
      rcases bind_eq_error.mp failed with own | ⟨code, _, result⟩
      · exact Or.inr ⟨operand, List.mem_cons_self, base, own⟩
      · simp [pure, Except.pure] at result
  | equal left right | order _ left right =>
      rw [ofExpr] at failed
      rcases bind_eq_error.mp failed with own | ⟨leftCode, _, later⟩
      · exact Or.inr ⟨left, List.mem_cons_self, base, own⟩
      · rcases bind_eq_error.mp later with other | ⟨rightCode, _, result⟩
        · exact Or.inr ⟨right, List.mem_cons_of_mem _ List.mem_cons_self, _, other⟩
        · simp [pure, Except.pure] at result
  | conjunction operands | disjunction operands =>
      rw [ofExpr] at failed
      rcases bind_eq_error.mp failed with own | ⟨pieces, _, result⟩
      · exact Or.inr (ofExprs_error own)
      · simp [pure, Except.pure] at result
  | conditional condition consequent alternative =>
      rw [ofExpr] at failed
      rcases bind_eq_error.mp failed with own | ⟨test, _, later⟩
      · exact Or.inr ⟨condition, by simp [Expr.parts], base, own⟩
      · rcases bind_eq_error.mp later with second | ⟨chosen, _, last⟩
        · exact Or.inr ⟨consequent, by simp [Expr.parts], _, second⟩
        · rcases bind_eq_error.mp last with third | ⟨other, _, result⟩
          · exact Or.inr ⟨alternative, by simp [Expr.parts], _, third⟩
          · simp [pure, Except.pure] at result
  | localBinding bindings body =>
      rw [ofExpr] at failed
      rcases bind_eq_error.mp failed with own | ⟨stores, _, later⟩
      · obtain ⟨value, member, start, same⟩ := ofBindings_error own
        exact Or.inr ⟨value, List.mem_append_left _ member, start, same⟩
      · rcases bind_eq_error.mp later with forms | ⟨pieces, _, result⟩
        · obtain ⟨form, member, start, same⟩ := ofExprs_error forms
          exact Or.inr ⟨form, List.mem_append_right _ member, start, same⟩
        · split at result <;> simp [pure, Except.pure] at result
  | concat parts =>
      rw [ofExpr] at failed
      rcases bind_eq_error.mp failed with own | ⟨pieces, _, later⟩
      · exact Or.inr (ofExprs_error own)
      · rcases bind_eq_error.mp later with uncounted | ⟨count, _, result⟩
        · obtain ⟨many, rfl⟩ := operandCount_error uncounted
          exact Or.inl (.concat many)
        · simp [pure, Except.pure] at result
  | print newline arguments =>
      rw [ofExpr] at failed
      rcases bind_eq_error.mp failed with own | ⟨pieces, _, later⟩
      · exact Or.inr (ofExprs_error own)
      · rcases bind_eq_error.mp later with uncounted | ⟨count, _, result⟩
        · obtain ⟨many, rfl⟩ := operandCount_error uncounted
          exact Or.inl (.print many)
        · simp [pure, Except.pure] at result
  | _ => simp [ofExpr] at failed

end Failures

end Code

theorem Operator.ofName_eq_concat {name : String} (operator : ofName name = .concat) :
    name = "str" := by
  unfold ofName at operator
  split at operator <;> simp_all

theorem Operator.ofName_eq_print {name : String} {newline : Bool}
    (operator : ofName name = .print newline) : name = "print" ∨ name = "println" := by
  unfold ofName at operator
  split at operator <;> simp_all

/-- A form with more operands than can be joined at once. Printing joins a separator with each operand but
the first. -/
inductive Overfull : Node → Prop
  | concat {nameSpan span : Span} {arguments : List Node} (many : 65535 < arguments.length) :
      Overfull (.list (.symbol "str" nameSpan :: arguments) span)
  | print {name : String} {nameSpan span : Span} {arguments : List Node}
      (printing : name = "print" ∨ name = "println") (many : 32768 < arguments.length) :
      Overfull (.list (.symbol name nameSpan :: arguments) span)

namespace Resolution

variable {roots : List Node} {fieldKinds : List Kind} {slots : Nat} {error : InternalError}

/-- Of what resolution makes of a checked fragment, only a form that is overfull can have no code. -/
theorem Traced.overfull {occurrence : Occurrence} (traced : Traced roots fieldKinds slots occurrence)
    (fails : occurrence.expr.Fails error) :
    error = .tooManyOperands ∧ ∃ root ∈ roots, ∃ node, root.Contains node ∧ Overfull node := by
  have fine := traced.fine
  obtain ⟨root, rootMember, node, contains, checked, scope, after, orderly, resolved, higher,
    below⟩ := traced
  obtain ⟨kinds, base, expr⟩ := occurrence
  generalize Occurrence.kind fieldKinds ⟨kinds, base, expr⟩ = kind at resolved
  cases fails with
  | arithmetic op =>
      have several := fine.several op [] rfl
      simp at several
  | concat many =>
      refine ⟨rfl, root, rootMember, node, contains, ?_⟩
      cases resolved_of_ok resolved with
      | symbol found =>
          have childless := (resolveName_fine orderly found fine.room base).1
          simp only [Expr.parts] at childless
          simp [childless] at many
      | @form name nameSpan span arguments _ _ _ form operands =>
          generalize known : Operator.ofName name = operator at form
          cases form
          obtain rfl := Operator.ofName_eq_concat known
          have count := operands.length
          simp only [Expr.parts] at count
          exact .concat (by omega)
  | print many =>
      refine ⟨rfl, root, rootMember, node, contains, ?_⟩
      cases resolved_of_ok resolved with
      | symbol found =>
          have childless := (resolveName_fine orderly found fine.room base).1
          simp only [Expr.parts] at childless
          simp [childless] at many
      | @form name nameSpan span arguments _ _ _ form operands =>
          generalize known : Operator.ofName name = operator at form
          cases form
          have count := operands.length
          simp only [Expr.parts] at count
          exact .print (Operator.ofName_eq_print known) (by omega)

theorem Traced.code_error {constants : Constants} {occurrence : Occurrence}
    (traced : Traced roots fieldKinds slots occurrence) {start : Nat}
    (failed : Code.ofExpr constants start occurrence.expr = .error error) :
    error = .tooManyOperands ∧ ∃ root ∈ roots, ∃ node, root.Contains node ∧ Overfull node := by
  induction occurrence using Occurrence.childInduction fieldKinds generalizing start with
  | step occurrence childHypothesis =>
      rcases Code.ofExpr_error failed with own | ⟨part, member, inner, partFailed⟩
      · exact traced.overfull own
      · rw [← Occurrence.children_exprs fieldKinds] at member
        obtain ⟨child, childMember, rfl⟩ := List.mem_map.mp member
        exact childHypothesis child childMember (traced.child childMember) partFailed

theorem Derived.code_error {constants : Constants} {fields : List Field} {nodes : List Node}
    {body : Body} (derived : Derived fields nodes body)
    (failed : Code.ofBody constants body = .error error) :
    error = .tooManyOperands ∧ ∃ root ∈ nodes, ∃ node, root.Contains node ∧ Overfull node := by
  rcases bind_eq_error.mp failed with listed | ⟨pieces, _, ended⟩
  · obtain ⟨value, member, start, valueFailed⟩ := Code.ofStatements_error listed
    rw [← Occurrence.inSequence_exprs (Resolution.fieldKinds fields) [] 0] at member
    obtain ⟨child, childMember, rfl⟩ := List.mem_map.mp member
    exact (derived.traced child childMember).code_error valueFailed
  · have declared := Code.declared_of_derived derived
    unfold endsWithValue at declared
    split at ended
    · rename_i kind known last
      rw [known, last] at declared
      simp at declared
    · simp [pure, Except.pure] at ended

end Resolution

/-! Units. -/

/-- The entry method has more bytes than jumps can name. -/
def CodeTooLong (unit : CompilationUnit Fragment) : Prop :=
  ∃ body code, Resolution.resolveFragment unit.fields unit.body.statements = .ok body ∧
    Code.ofBody (Constants.ofBody unit.fields body) body = .ok code ∧ 2 ^ 32 ≤ codeSize code

/-- The limits of the compiler, each with the error that tells that a unit exceeds it. A name with a zero
byte is more than an image can hold. -/
inductive Exceeds (unit : CompilationUnit Fragment) : CompileError → Prop
  | bindings (many : 65536 ≤ unit.fields.length) : Exceeds unit (.internal .tooManyFields)
  | locals (full : Resolution.bodyPeak unit.body.statements = 65536) :
      Exceeds unit (.internal .tooManyLocals)
  | operands {root node : Node} (member : root ∈ unit.body.statements) (within : root.Contains node)
      (overfull : Overfull node) : Exceeds unit (.internal .tooManyOperands)
  | typeName (long : 65535 < unit.typeName.utf8ByteSize) :
      Exceeds unit (.internal (.unwritable (.malformed .metadata .typeNameTooLong)))
  | entryMethod (long : 255 < unit.entryMethod.utf8ByteSize) :
      Exceeds unit (.internal (.unwritable (.malformed .metadata .methodNameTooLong)))
  | unbalanced (long : CodeTooLong unit) (error : StackError) :
      Exceeds unit (.internal (.unbalancedStack unit.entryMethod error))
  | stack (long : CodeTooLong unit) : Exceeds unit (.internal (.stackTooDeep unit.entryMethod))
  | zeroByte (held : (0 : UInt8) ∈ Bytes.utf8 unit.entryMethod) (text? : Option String) :
      Exceeds unit (.crashed text?)

namespace Code

theorem method_error {name : String} {locals : UInt16} {returnsValue : Bool}
    {instructions : List Instruction} {error : InternalError}
    (failed : method name locals returnsValue instructions = .error error) :
    (∃ reason, error = .unbalancedStack name reason) ∨ error = .stackTooDeep name := by
  unfold method at failed
  simp only at failed
  split at failed
  · exact Or.inl ⟨_, (Except.error.inj failed).symm⟩
  · split at failed
    · simp at failed
    · exact Or.inr (Except.error.inj failed).symm

section Inversion

variable {Fragment : Type} {unit : CompilationUnit Fragment} {body : Body} {error : InternalError}

/-- A type cannot be generated because of the fields, the body, their number or one of the methods. -/
theorem typeDefinition_error (failed : typeDefinition unit body = .error error) :
    ofFields (Constants.ofBody unit.fields body) 0 [] unit.fields = .error error ∨
      ofBody (Constants.ofBody unit.fields body) body = .error error ∨
      (65535 < unit.fields.length ∧ error = .tooManyFields) ∨
      ∃ filling code, unit.fields.length ≤ 65535 ∧
        ofFields (Constants.ofBody unit.fields body) 0 [] unit.fields = .ok filling ∧
        ofBody (Constants.ofBody unit.fields body) body = .ok code ∧
        (method TypeDefinition.constructorName 0 false filling = .error error ∨
          method unit.entryMethod body.locals body.result?.isSome code = .error error) := by
  unfold typeDefinition at failed
  rcases bind_eq_error.mp failed with unfilled | ⟨filling, filled, afterFields⟩
  · exact Or.inl unfilled
  · rcases bind_eq_error.mp afterFields with unmade | ⟨code, ran, afterBody⟩
    · exact Or.inr (Or.inl unmade)
    · right
      right
      split at afterBody
      · rename_i many
        exact Or.inl ⟨many, (Except.error.inj afterBody).symm⟩
      · rename_i few
        refine Or.inr ⟨filling, code, Nat.le_of_not_lt few, filled, ran, ?_⟩
        rcases bind_eq_error.mp afterBody with unbuilt | ⟨constructor, _, afterConstructor⟩
        · exact Or.inl unbuilt
        · rcases bind_eq_error.mp afterConstructor with unentered | ⟨entry, _, result⟩
          · exact Or.inr unentered
          · simp [pure, Except.pure] at result

theorem generate_error [ObjectFormat] {failure : Failure InternalError}
    (failed : generate unit body = .error failure) :
    (∃ error, typeDefinition unit body = .error error ∧ failure = .refused error) ∨
      ∃ definition reason, typeDefinition unit body = .ok definition ∧
        definition.write = .error reason ∧ failure = reason.map .unwritable := by
  rcases bind_eq_error.mp failed with untyped | ⟨definition, typed, unwritten⟩
  · obtain ⟨error, refused, rfl⟩ := mapError_eq_error.mp untyped
    exact Or.inl ⟨error, refused, rfl⟩
  · obtain ⟨reason, refused, rfl⟩ := mapError_eq_error.mp unwritten
    exact Or.inr ⟨definition, reason, mapError_eq_ok.mp typed, refused, rfl⟩

theorem ofFields_error {constants : Constants} {index : Nat} {made : List Instruction}
    {fields : List Field} (failed : ofFields constants index made fields = .error error) :
    ∃ field ∈ fields, field.value = .nothing ∧ error = .fieldWithoutValue field.name := by
  induction fields generalizing index made with
  | nil => simp [ofFields] at failed
  | cons field rest inductionHypothesis =>
      rw [ofFields] at failed
      rcases bind_eq_error.mp failed with own | ⟨push, _, later⟩
      · refine ⟨field, List.mem_cons_self, ?_⟩
        unfold pushField at own
        split at own
        · simp at own
        · simp at own
        · simp at own
        · simp at own
        · rename_i missing
          exact ⟨missing, (Except.error.inj own).symm⟩
      · obtain ⟨other, member, same⟩ := inductionHypothesis later
        exact ⟨other, List.mem_cons_of_mem _ member, same⟩

end Inversion

end Code

section Units

variable {unit : CompilationUnit Fragment} {body : Body} {error : InternalError}

/-- Where fields hold values a type cannot be generated because of the body, the number of fields, or an
entry method that is too long. -/
theorem Code.typeDefinition_refused {nodes : List Node}
    (derived : Resolution.Derived unit.fields nodes body)
    (real : ∀ field ∈ unit.fields, field.value ≠ .nothing)
    (failed : typeDefinition unit body = .error error) :
    ofBody (Constants.ofBody unit.fields body) body = .error error ∨
      (65535 < unit.fields.length ∧ error = .tooManyFields) ∨
      ∃ code, ofBody (Constants.ofBody unit.fields body) body = .ok code ∧ 2 ^ 32 ≤ codeSize code ∧
        method unit.entryMethod body.locals body.result?.isSome code = .error error := by
  rcases typeDefinition_error failed with
    unfilled | unmade | many | ⟨filling, code, few, filled, ran, unbuilt | unentered⟩
  · obtain ⟨field, member, missing, _⟩ := ofFields_error unfilled
    exact absurd missing (real field member)
  · exact Or.inl unmade
  · exact Or.inr (Or.inl many)
  · obtain ⟨_, rfl, fills⟩ := fills_of_ok filled
    obtain ⟨constructor, built⟩ := constructor_of_fills fills few TypeDefinition.constructorName
    simp [built] at unbuilt
  · refine Or.inr (Or.inr ⟨code, ran, Nat.le_of_not_lt fun small => ?_, unentered⟩)
    obtain ⟨running, rfl, runs⟩ := running_of_ok ran
    obtain ⟨entry, entered⟩ := entry_of_sequence runs small derived unit.entryMethod
    simp [entered] at unentered

theorem exceeds_of_typeDefinition (values : ∀ field ∈ unit.fields, field.value ≠ .nothing)
    (checked : Grammar.check unit.body.statements = .ok ())
    (resolved : Resolution.resolveFragment unit.fields unit.body.statements = .ok body)
    (failed : Code.typeDefinition unit body = .error error) : Exceeds unit (.internal error) := by
  have derived := Resolution.derived_of_ok checked resolved
  rcases Code.typeDefinition_refused derived values failed with
    unmade | ⟨many, rfl⟩ | ⟨code, ran, large, unentered⟩
  · obtain ⟨rfl, root, member, node, within, overfull⟩ := derived.code_error unmade
    exact .operands member within overfull
  · exact .bindings many
  · have long : CodeTooLong unit := ⟨body, code, resolved, ran, large⟩
    rcases Code.method_error unentered with ⟨reason, rfl⟩ | rfl
    · exact .unbalanced long reason
    · exact .stack long

/-- The metadata of a generated type is malformed only if a name is too long. -/
theorem exceeds_of_metadata {definition : TypeDefinition} {constructor entry : Method}
    {filling running : List Instruction} {malformation : Malformation}
    (generated : Code.Generated unit body definition constructor entry filling running)
    (malformed : Section.encodeMetadata definition.metadata = .error malformation) :
    Exceeds unit (.internal (.unwritable (.malformed .metadata malformation))) := by
  have name : definition.metadata.name = unit.typeName := by
    rw [generated.definition_eq]
    rfl
  have signatures : definition.metadata.signatures = [constructor.signature, entry.signature] := by
    rw [TypeDefinition.metadata, generated.methods]
    rfl
  have short : TypeDefinition.constructorName.utf8ByteSize ≤ 255 := by decide
  unfold Section.encodeMetadata at malformed
  rw [name, signatures] at malformed
  split at malformed
  · rename_i long
    obtain rfl := Except.error.inj malformed
    exact .typeName long
  · split at malformed
    · rename_i many
      simp at many
    · split at malformed
      · rename_i long
        obtain rfl := Except.error.inj malformed
        simp only [List.any_cons, List.any_nil, Bool.or_false, generated.constructor.name,
          generated.entry.name, Bool.or_eq_true, decide_eq_true_eq] at long
        exact .entryMethod (long.resolve_left (Nat.not_lt.mpr short))
      · simp at malformed

section Laws

variable [ObjectFormat]

/-- A generated type is written unless a name is too long or holds a zero byte. -/
theorem exceeds_of_write [LawfulObjectFormat] {definition : TypeDefinition}
    {failure : Failure ArtifactError} (typed : Code.typeDefinition unit body = .ok definition)
    (failed : definition.write = .error failure) :
    Exceeds unit (.ofFailure (failure.map .unwritable)) := by
  obtain ⟨constructor, entry, _, _, generated⟩ := Code.generated_of_ok typed
  cases failure with
  | crashed text? =>
      have held := mt generated.zeroFree_iff.mpr (TypeDefinition.zeroByte_of_crash failed)
      exact .zeroByte (Decidable.not_not.mp held) text?
  | refused error =>
      obtain ⟨malformation, malformed, rfl⟩ := TypeDefinition.write_refused_iff.mp failed
      exact exceeds_of_metadata generated malformed

theorem exceeds_of_translate [LawfulObjectFormat] {error : CompileError}
    (values : ∀ field ∈ unit.fields, field.value ≠ .nothing) (failed : translate unit = .error error) :
    (∃ found, error = .diagnostic found) ∨ Exceeds unit error := by
  rcases bind_eq_error.mp failed with refused | ⟨_, checked, afterChecking⟩
  · exact Or.inl (Grammar.complains_check unit.body.statements error refused)
  rcases bind_eq_error.mp afterChecking with unresolved | ⟨body, resolved, ungenerated⟩
  · have ended := @Resolution.resolveFragment_ended unit.fields _ checked
    rw [unresolved] at ended
    cases ended with
    | violated | exhausted => exact Or.inl ⟨_, rfl⟩
    | tooManyFields many => exact Or.inr (.bindings (Nat.le_of_lt many))
    | tooManyLocals full hold => exact Or.inr (.locals full)
  · obtain ⟨failure, generated, rfl⟩ := mapError_eq_error.mp ungenerated
    right
    rcases Code.generate_error generated with
      ⟨error, untyped, rfl⟩ | ⟨definition, reason, typed, unwritten, rfl⟩
    · exact exceeds_of_typeDefinition values checked resolved untyped
    · exact exceeds_of_write typed unwritten

/-- Generation finds every operand that it needs, and a value where a result was promised. -/
theorem complete_of_derived {fields : List Field} {nodes : List Node}
    (derived : Resolution.Derived fields nodes body)
    (failed : Code.generate unit body = .error (.refused error)) :
    error ≠ .missingOperands ∧ error ≠ .resultOfDefinition := by
  rcases Code.generate_error failed with ⟨other, untyped, same⟩ | ⟨_, reason, _, _, same⟩
  · obtain rfl := Failure.refused.inj same
    rcases Code.typeDefinition_error untyped with
      unfilled | unmade | ⟨_, rfl⟩ | ⟨_, _, _, _, _, unbuilt | unentered⟩
    · obtain ⟨_, _, _, rfl⟩ := Code.ofFields_error unfilled
      simp
    · obtain ⟨rfl, _⟩ := derived.code_error unmade
      simp
    · simp
    · rcases Code.method_error unbuilt with ⟨_, rfl⟩ | rfl <;> simp
    · rcases Code.method_error unentered with ⟨_, rfl⟩ | rfl <;> simp
  · cases reason with
    | crashed text? => cases same
    | refused reason =>
        obtain rfl := Failure.refused.inj same
        simp

end Laws

end Units

inductive Unresolvable : CompileError → Prop
  | undefinedVariable (name : String) (span : Span) :
      Unresolvable (.diagnostic { cause := .undefinedVariable name, span })
  | typeError (operator : String) (expected found : Kind) (span : Span) :
      Unresolvable (.diagnostic { cause := .typeError operator expected found, span })
  | exhausted (span : Span) : Unresolvable (.diagnostic { cause := .tooManyLocals, span })
  | tooManyFields : Unresolvable (.internal .tooManyFields)
  | tooManyLocals : Unresolvable (.internal .tooManyLocals)

theorem unresolvable_of_checked {fields : List Field} {nodes : List Node} {error : CompileError}
    (checked : Grammar.check nodes = .ok ())
    (failed : Resolution.resolveFragment fields nodes = .error error) : Unresolvable error := by
  have ended := @Resolution.resolveFragment_ended fields nodes checked
  rw [failed] at ended
  cases ended with
  | @violated site first =>
      cases site with
      | reference names name span => exact .undefinedVariable name span
      | operand names operator wanted node =>
          exact .typeError operator wanted (names.kindOf node) node.span
  | exhausted beyond => exact .exhausted _
  | tooManyFields many => exact .tooManyFields
  | tooManyLocals full hold => exact .tooManyLocals

/-- The phases agree with each other. Compiling a wrapped unit gives an artifact or a semantic error, or else
the unit exceeds one of the compiler's limits. What the grammar accepts is well-formed for resolution and
generation too: resolution has nothing but names, kinds and slots to complain of, and no operand is missing
from what it hands over, whatever the unit is that code is made for. -/
theorem phases_agree [ObjectFormat] [LawfulObjectFormat] {options : Options} {bindings : Bindings}
    {number : UInt64} {fragment : Fragment} {unit : CompilationUnit Fragment}
    (wrapped : CompilationUnit.wrap frontEnd options bindings number fragment = .ok unit) :
    ((∃ artifact, unit.compile frontEnd = .ok artifact) ∨
      (∃ message position, unit.compile frontEnd = .error (.semantic message position)) ∨
      ∃ error, unit.compile frontEnd = .error (compilationError unit error) ∧ Exceeds unit error) ∧
    ∀ (fields : List Field) (nodes : List Node), Grammar.check nodes = .ok () →
      (∀ error, Resolution.resolveFragment fields nodes = .error error → Unresolvable error) ∧
      ∀ body, Resolution.resolveFragment fields nodes = .ok body →
        ∀ (other : CompilationUnit Fragment) (error : InternalError),
          Code.generate other body = .error (.refused error) →
            error ≠ .missingOperands ∧ error ≠ .resultOfDefinition := by
  obtain ⟨_, _, _, _, values⟩ := CompilationUnit.wrap_ok wrapped
  constructor
  · rw [compile_eq]
    cases translated : translate unit with
    | ok artifact => exact Or.inl ⟨artifact, rfl⟩
    | error error =>
        rcases exceeds_of_translate values translated with ⟨found, rfl⟩ | exceeds
        · exact Or.inr (Or.inl ⟨found.cause.message, unit.position found.span, rfl⟩)
        · exact Or.inr (Or.inr ⟨error, rfl, exceeds⟩)
  · intro fields nodes checked
    refine ⟨fun error failed => unresolvable_of_checked checked failed, ?_⟩
    intro body resolved other error failed
    exact complete_of_derived (Resolution.derived_of_ok checked resolved) failed

theorem unbound_sum_agrees :
    let unit := { sumUnit with body := unboundSum }
    CompilationUnit.wrap frontEnd {} sumBindings 1 unboundSum = .ok unit ∧
      Grammar.check unboundSum = .ok () ∧
      ((∃ artifact, unit.compile frontEnd = .ok artifact) ∨
        (∃ message position, unit.compile frontEnd = .error (.semantic message position)) ∨
        ∃ error, unit.compile frontEnd = .error (compilationError unit error) ∧ Exceeds unit error) ∧
      Unresolvable (.diagnostic { cause := .undefinedVariable "z", span := ⟨16, 1⟩ }) := by
  intro unit
  have wrapped : CompilationUnit.wrap frontEnd {} sumBindings 1 unboundSum = .ok unit := by
    with_unfolding_all rfl
  have checked : Grammar.check unboundSum = .ok () := by decide
  have unbound : Resolution.resolveFragment unit.fields unboundSum =
      .error (.diagnostic { cause := .undefinedVariable "z", span := ⟨16, 1⟩ }) := by
    rfl
  obtain ⟨compiles, others⟩ := phases_agree wrapped
  exact ⟨wrapped, checked, compiles, (others unit.fields unboundSum checked).1 _ unbound⟩

def zeroByteUnit : CompilationUnit Fragment :=
  { typeName := "Fragment$1"
    entryMethod := "r\x00n"
    fields := []
    body := [.number 1 ⟨0, 1⟩]
    shape := .expression
    origin := 0 }

def zeroByteBody : Body :=
  { statements := [.expression (.number 1)], locals := 0, result? := some .number }

def zeroByteType : TypeDefinition :=
  { name := "Fragment$1"
    fieldCount := 0
    constants := []
    methods :=
      [{ signature :=
           { name := TypeDefinition.constructorName, arity := 0, locals := 0, maxStack := 0
             returnsValue := false }
         code := (Instruction.encodeAll [.returnVoid]).toArray },
       { signature := { name := "r\x00n", arity := 0, locals := 0, maxStack := 1, returnsValue := true }
         code := (Instruction.encodeAll [.pushInteger 1, .return]).toArray }] }

/-- The name of the entry method makes the compilation crash, though the unit exceeds none of the limits
that have an error of their own. -/
theorem zero_byte_crashes_the_compiler :
    CompilationUnit.wrap frontEnd { entryMethod := "r\x00n" } .empty 1 [.number 1 ⟨0, 1⟩] =
        .ok zeroByteUnit ∧
      zeroByteUnit.compile frontEnd = .error (.crashed "compilation" (some Image.zeroByteText)) ∧
      (EvalError.ofCompilation (.crashed "compilation" (some Image.zeroByteText))).kind =
        .internalCompilerFault ∧
      ∀ error, ¬ Exceeds zeroByteUnit (.internal error) := by
  have wrapped : CompilationUnit.wrap frontEnd { entryMethod := "r\x00n" } .empty 1
      [.number 1 ⟨0, 1⟩] = .ok zeroByteUnit := by
    with_unfolding_all rfl
  have checked : Grammar.check zeroByteUnit.body.statements = .ok () := by decide
  have resolved : Resolution.resolveFragment zeroByteUnit.fields zeroByteUnit.body.statements =
      .ok zeroByteBody := rfl
  have made : Code.ofBody (Constants.ofBody zeroByteUnit.fields zeroByteBody) zeroByteBody =
      .ok [.pushInteger 1, .return] := rfl
  have typed : Code.typeDefinition zeroByteUnit zeroByteBody = .ok zeroByteType := by decide +kernel
  have unwritten : zeroByteType.write = .error (.crashed (some Image.zeroByteText)) := rfl
  have crashed := (Stops.generation checked resolved
    (generate_of_unwritten typed unwritten)).failsIn.compile
  refine ⟨wrapped, crashed, rfl, ?_⟩
  intro error exceeds
  have short : ¬ CodeTooLong zeroByteUnit := by
    rintro ⟨body, code, again, ran, large⟩
    obtain rfl := Except.ok.inj (resolved.symm.trans again)
    obtain rfl := Except.ok.inj (made.symm.trans ran)
    exact absurd large (by decide)
  cases exceeds with
  | bindings many => exact absurd many (by decide)
  | locals full => exact absurd full (by decide)
  | @operands root node member within overfull =>
      obtain rfl := List.mem_singleton.mp member
      rcases Node.contains_iff.mp within with rfl | ⟨item, inside, _⟩
      · cases overfull
      · cases inside
  | typeName long => exact absurd long (by decide)
  | entryMethod long => exact absurd long (by decide)
  | unbalanced long | stack long => exact short long

end Lisp
end FragmentLisp
