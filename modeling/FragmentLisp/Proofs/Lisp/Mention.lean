import FragmentLisp.Proofs.Lisp.Meaning
import FragmentLisp.Proofs.Lisp.Resolution
import FragmentLisp.Proofs.Lisp.Unnumbered
import Mathlib.Data.List.Basic

/-!
Names that a fragment does not mention do not matter to it. Resolution looks up no others, so in a scope
that is restricted to the names of a node, whose fields have lost their numbers, it does the same, and what
it finds has lost these numbers. Nor does the meaning of a node look up any others.
-/

namespace FragmentLisp

namespace Node

mutual
def names : Node → List String
  | .number _ _ => []
  | .string _ _ => []
  | .symbol name _ => [name]
  | .list items _ => namesAll items
  | .vector items _ => namesAll items

def namesAll : List Node → List String
  | [] => []
  | node :: rest => node.names ++ namesAll rest
end

theorem names_subset_namesAll {node : Node} {nodes : List Node} (member : node ∈ nodes) :
    node.names ⊆ namesAll nodes := by
  induction nodes with
  | nil => cases member
  | cons first rest inductionHypothesis =>
      rw [namesAll]
      rcases List.mem_cons.mp member with rfl | later
      · exact List.subset_append_left _ _
      · exact List.Subset.trans (inductionHypothesis later) (List.subset_append_right _ _)

theorem names_subset_of_item {item node : Node} (member : item ∈ node.items) :
    item.names ⊆ node.names := by
  cases node with
  | list items span =>
      rw [names]
      exact names_subset_namesAll member
  | vector items span =>
      rw [names]
      exact names_subset_namesAll member
  | _ => cases member

section Forms

variable {motive : Node → Prop} {among : List String} {name : String} {nameSpan span : Span}
variable {arguments : List Node}

/-- What holds of all smaller nodes that mention only some names holds of the arguments of a form. -/
theorem arguments_of_form
    (smaller : ∀ inner, inner.size < (list (symbol name nameSpan :: arguments) span).size →
      inner.names ⊆ among → motive inner)
    (mentioned : (list (symbol name nameSpan :: arguments) span).names ⊆ among) :
    ∀ argument ∈ arguments, motive argument := by
  intro argument member
  have inside := List.mem_cons_of_mem (symbol name nameSpan) member
  have own : argument.names ⊆ (list (symbol name nameSpan :: arguments) span).names :=
    names_subset_of_item inside
  exact smaller argument (size_of_item inside) (List.Subset.trans own mentioned)

theorem bindings_of_form {bindings : List Node} {bindingsSpan : Span}
    (smaller : ∀ inner, inner.size < (list (symbol name nameSpan :: arguments) span).size →
      inner.names ⊆ among → motive inner)
    (mentioned : (list (symbol name nameSpan :: arguments) span).names ⊆ among)
    (argument : vector bindings bindingsSpan ∈ arguments) : ∀ node ∈ bindings, motive node := by
  intro node member
  have inside := List.mem_cons_of_mem (symbol name nameSpan) argument
  have own : node.names ⊆ (vector bindings bindingsSpan).names := names_subset_of_item member
  have outer : (vector bindings bindingsSpan).names ⊆
      (list (symbol name nameSpan :: arguments) span).names :=
    names_subset_of_item inside
  exact smaller node (Nat.lt_trans (size_of_vector_item member) (size_of_item inside))
    (List.Subset.trans own (List.Subset.trans outer mentioned))

end Forms

end Node

namespace Lisp

/-! Scopes. -/

def Place.unnumbered : Place → Place
  | .localSlot slot => .localSlot slot
  | .field _ => .field 0

def Variable.unnumbered (found : Variable) : Variable :=
  { found with place := found.place.unnumbered }

namespace Scope

def restrictedFields (names : List String) (fields : List (String × Variable)) :
    List (String × Variable) :=
  names.filterMap fun name => (fields.lookup name).map fun found => (name, found.unnumbered)

/-- The scope with the fields of some names only, which have no numbers. -/
def restricted (names : List String) (scope : Scope) : Scope :=
  { scope with
    fields := restrictedFields names scope.fields
    frames := scope.frames.map fun frame =>
      { frame with locals := frame.locals.map fun entry => (entry.1, entry.2.unnumbered) } }

variable {names : List String} {name : String}

theorem lookup_restrictedFields (names : List String) (fields : List (String × Variable))
    (name : String) :
    (restrictedFields names fields).lookup name =
      if name ∈ names then (fields.lookup name).map Variable.unnumbered else none := by
  induction names with
  | nil => rfl
  | cons first rest inductionHypothesis =>
      unfold restrictedFields at inductionHypothesis ⊢
      rw [List.filterMap_cons]
      by_cases same : name = first
      · subst same
        cases found : fields.lookup name with
        | none => simp [inductionHypothesis, found]
        | some known => simp
      · have other : (name == first) = false := by simpa using same
        cases fields.lookup first with
        | none => simp [inductionHypothesis, same]
        | some known => simp [List.lookup_cons, other, inductionHypothesis, same]

theorem lookup?_restricted (mentioned : name ∈ names) (scope : Scope) :
    (scope.restricted names).lookup? name = (scope.lookup? name).map Variable.unnumbered := by
  unfold lookup? restricted
  rw [lookup_restrictedFields, if_pos mentioned, Option.map_or, List.findSome?_map]
  congr 1
  induction scope.frames with
  | nil => rfl
  | cons frame rest inductionHypothesis =>
      rw [List.findSome?_cons, List.findSome?_cons, inductionHypothesis, Function.comp_apply,
        lookup_map]
      cases frame.locals.lookup name <;> rfl

theorem declare?_restricted (scope : Scope) (name : String) (kind : Kind) :
    (scope.restricted names).declare? name kind =
      (scope.declare? name kind).map fun (slot, after) => (slot, after.restricted names) := by
  unfold declare?
  have next : (scope.restricted names).nextSlot = scope.nextSlot := rfl
  rw [next]
  split
  · cases frames : scope.frames with
    | nil => simp [restricted, frames]
    | cons innermost outer => simp [restricted, frames, Variable.unnumbered, Place.unnumbered]
  · rfl

theorem pop_restricted (scope : Scope) :
    (scope.restricted names).pop = scope.pop.restricted names := by
  unfold pop
  rcases frames : scope.frames with _ | ⟨innermost, _ | ⟨outer, rest⟩⟩ <;> simp [restricted, frames]

end Scope

/-! Resolution. -/

/-- Where a computation gives a view of what another gives, and both go on alike, so do the whole
computations. -/
theorem bind_viewed {Error First View Second Seen : Type} {first : Except Error First}
    {viewed : Except Error View} {view : First → View} {rest : First → Except Error Second}
    {viewedRest : View → Except Error Seen} {look : Second → Seen} (head : viewed = view <$> first)
    (tail : ∀ found, viewedRest (view found) = look <$> rest found) :
    viewed >>= viewedRest = look <$> (first >>= rest) := by
  rw [head]
  cases first with
  | error error => rfl
  | ok found => exact tail found

namespace Resolution

variable {names : List String}

def seen (names : List String) (found : Expr × Kind × Scope) : Expr × Kind × Scope :=
  (found.1.unnumbered, found.2.1, found.2.2.restricted names)

def Restricts (names : List String) (node : Node) : Prop :=
  ∀ scope, resolve (scope.restricted names) node = seen names <$> resolve scope node

theorem resolveName_restricted {name : String} (mentioned : name ∈ names) (scope : Scope)
    (span : Span) :
    resolveName (scope.restricted names) name span =
      (fun found => (found.1.unnumbered, found.2)) <$> resolveName scope name span := by
  unfold resolveName
  split
  · rfl
  · rfl
  · rfl
  · rw [Scope.lookup?_restricted mentioned]
    rcases scope.lookup? name with _ | ⟨_ | _, kind⟩ <;> rfl

theorem accept_restricted (operator : String) (wanted? : Option Kind) (span : Span)
    (found : Expr × Kind × Scope) :
    accept operator wanted? span (seen names found) =
      (fun kept => (kept.1.unnumbered, kept.2.restricted names)) <$>
        accept operator wanted? span found := by
  obtain ⟨operand, kind, after⟩ := found
  cases wanted? with
  | none => rfl
  | some wanted =>
      by_cases admitted : kind.admits wanted = true
      · simp only [accept, seen, admitted, if_true]
        rfl
      · simp only [accept, seen, admitted]
        rfl

theorem operand_restricted {node : Node} (restricts : Restricts names node) (operator : String)
    (wanted? : Option Kind) (scope : Scope) :
    resolve (scope.restricted names) node >>= accept operator wanted? node.span =
      (fun kept => (kept.1.unnumbered, kept.2.restricted names)) <$>
        (resolve scope node >>= accept operator wanted? node.span) :=
  bind_viewed (restricts scope) (accept_restricted operator wanted? node.span)

theorem resolveOperands_restricted {nodes : List Node} (each : ∀ node ∈ nodes, Restricts names node)
    (operator : String) (wanted? : Option Kind) (scope : Scope) (resolved : List Expr) :
    resolveOperands operator wanted? (scope.restricted names) (resolved.map Expr.unnumbered) nodes =
      (fun found => (found.1.map Expr.unnumbered, found.2.restricted names)) <$>
        resolveOperands operator wanted? scope resolved nodes := by
  induction nodes generalizing scope resolved with
  | nil => exact congrArg (fun exprs => Except.ok (exprs, _)) List.map_reverse.symm
  | cons node rest inductionHypothesis =>
      have own := operand_restricted (each node List.mem_cons_self) operator wanted? scope
      rw [resolveOperands, resolveOperands]
      refine bind_viewed own ?_
      rintro ⟨operand, after⟩
      exact inductionHypothesis (fun other member => each other (List.mem_cons_of_mem _ member))
        after (operand :: resolved)

theorem resolveBody_restricted {nodes : List Node} (each : ∀ node ∈ nodes, Restricts names node)
    (scope : Scope) (resolved : List Expr) (kind : Kind) :
    resolveBody (scope.restricted names) (resolved.map Expr.unnumbered) kind nodes =
      (fun found => (found.1.map Expr.unnumbered, found.2.1, found.2.2.restricted names)) <$>
        resolveBody scope resolved kind nodes := by
  induction nodes generalizing scope resolved kind with
  | nil => exact congrArg (fun exprs => Except.ok (exprs, _)) List.map_reverse.symm
  | cons node rest inductionHypothesis =>
      rw [resolveBody, resolveBody]
      refine bind_viewed (each node List.mem_cons_self scope) ?_
      rintro ⟨expression, kind, after⟩
      exact inductionHypothesis (fun other member => each other (List.mem_cons_of_mem _ member))
        after (expression :: resolved) kind

def seenBindings (bindings : List (UInt16 × Expr)) : List (UInt16 × Expr) :=
  bindings.map fun (slot, value) => (slot, value.unnumbered)

theorem resolveBindings_restricted (span : Span) : ∀ (nodes : List Node) (scope : Scope)
    (resolved : List (UInt16 × Expr)), (∀ node ∈ nodes, Restricts names node) →
    resolveBindings span (scope.restricted names) (seenBindings resolved) nodes =
      (fun found => (seenBindings found.1, found.2.restricted names)) <$>
        resolveBindings span scope resolved nodes
  | [], _, _, _ => congrArg (fun bindings => Except.ok (bindings, _)) List.map_reverse.symm
  | [_], _, _, _ => rfl
  | name :: value :: rest, scope, resolved, each => by
      have own := each value (List.mem_cons_of_mem _ List.mem_cons_self)
      have others : ∀ node ∈ rest, Restricts names node := fun other member =>
        each other (List.mem_cons_of_mem _ (List.mem_cons_of_mem _ member))
      cases name with
      | symbol text textSpan =>
          rw [resolveBindings, resolveBindings]
          refine bind_viewed (own scope) ?_
          rintro ⟨expr, kind, after⟩
          simp only [seen, Scope.declare?_restricted]
          cases after.declare? text kind with
          | none => rfl
          | some declared =>
              exact resolveBindings_restricted span rest declared.2 ((declared.1, expr) :: resolved)
                others
      | _ => rfl

theorem restricts_form {name : String} {nameSpan span : Span} {arguments : List Node}
    (smaller : ∀ inner, inner.size < (Node.list (.symbol name nameSpan :: arguments) span).size →
      inner.names ⊆ names → Restricts names inner)
    (mentioned : (Node.list (.symbol name nameSpan :: arguments) span).names ⊆ names) :
    Restricts names (.list (.symbol name nameSpan :: arguments) span) := by
  have each := Node.arguments_of_form smaller mentioned
  intro scope
  unfold resolve
  have operands := fun wanted? => resolveOperands_restricted each name wanted? scope []
  cases Operator.ofName name with
  | arithmetic op =>
      cases op with
      | subtract =>
          rcases arguments with _ | ⟨node, _ | ⟨second, rest⟩⟩
          case cons.nil =>
            have own := operand_restricted (each node List.mem_cons_self) name (some .number) scope
            refine bind_viewed own ?_
            rintro ⟨operand, after⟩
            simp [seen, Expr.unnumbered]
          all_goals
            refine bind_viewed (operands _) ?_
            rintro ⟨found, after⟩
            simp [seen, Expr.unnumbered]
      | _ =>
          refine bind_viewed (operands _) ?_
          rintro ⟨found, after⟩
          simp [seen, Expr.unnumbered]
  | equal =>
      rcases arguments with _ | ⟨left, _ | ⟨right, _ | ⟨third, rest⟩⟩⟩
      case cons.cons.nil =>
        have first : Restricts names left := each left List.mem_cons_self
        have second : Restricts names right := each right (List.mem_cons_of_mem _ List.mem_cons_self)
        refine bind_viewed (first scope) ?_
        rintro ⟨leftExpr, _, middle⟩
        exact bind_viewed (second middle) fun _ => rfl
      all_goals rfl
  | order op =>
      rcases arguments with _ | ⟨left, _ | ⟨right, _ | ⟨third, rest⟩⟩⟩
      case cons.cons.nil =>
        have first := operand_restricted (each left List.mem_cons_self) name (some .number)
        have second := operand_restricted (each right (List.mem_cons_of_mem _ List.mem_cons_self))
          name (some .number)
        refine bind_viewed (first scope) ?_
        rintro ⟨leftExpr, middle⟩
        exact bind_viewed (second middle) fun _ => rfl
      all_goals rfl
  | not =>
      rcases arguments with _ | ⟨node, _ | ⟨second, rest⟩⟩
      case cons.nil => exact bind_viewed (each node List.mem_cons_self scope) fun _ => rfl
      all_goals rfl
  | count =>
      rcases arguments with _ | ⟨node, _ | ⟨second, rest⟩⟩
      case cons.nil =>
        have own := operand_restricted (each node List.mem_cons_self) name (some .string) scope
        exact bind_viewed own fun _ => rfl
      all_goals rfl
  | conditional =>
      rcases arguments with
        _ | ⟨condition, _ | ⟨consequent, _ | ⟨alternative, _ | ⟨fourth, rest⟩⟩⟩⟩
      case cons.cons.cons.nil =>
        have first : Restricts names condition := each _ List.mem_cons_self
        have second : Restricts names consequent :=
          each _ (List.mem_cons_of_mem _ List.mem_cons_self)
        have third : Restricts names alternative :=
          each _ (List.mem_cons_of_mem _ (List.mem_cons_of_mem _ List.mem_cons_self))
        refine bind_viewed (first scope) ?_
        rintro ⟨test, _, tested⟩
        refine bind_viewed (second tested) ?_
        rintro ⟨chosen, _, behind⟩
        exact bind_viewed (third behind) fun _ => rfl
      all_goals rfl
  | conjunction | disjunction | concat | print =>
      refine bind_viewed (operands _) ?_
      rintro ⟨found, after⟩
      simp [seen, Expr.unnumbered]
  | localBinding =>
      cases arguments with
      | nil => rfl
      | cons first body =>
          cases first with
          | vector bindings bindingsSpan =>
              have inBody : ∀ node ∈ body, Restricts names node := fun node member =>
                each node (List.mem_cons_of_mem _ member)
              have inBindings := Node.bindings_of_form smaller mentioned List.mem_cons_self
              have bound := resolveBindings_restricted span bindings scope.push [] inBindings
              refine bind_viewed bound ?_
              rintro ⟨stores, inner⟩
              refine bind_viewed (resolveBody_restricted inBody inner [] .nil) ?_
              rintro ⟨made, _, _⟩
              simp [seen, Expr.unnumbered, seenBindings, Scope.pop_restricted]
          | _ => rfl
  | definition | block | function | unknown => rfl

theorem restricts {node : Node} (mentioned : node.names ⊆ names) : Restricts names node := by
  induction node using Node.sizeInduction with
  | step node smaller =>
      cases node with
      | list items span =>
          cases items with
          | nil => exact fun _ => rfl
          | cons head arguments =>
              cases head with
              | symbol name nameSpan => exact restricts_form smaller mentioned
              | _ => exact fun _ => rfl
      | symbol name span =>
          have own : name ∈ names := mentioned List.mem_cons_self
          intro scope
          unfold resolve
          rw [resolveName_restricted own scope span]
          cases resolveName scope name span <;> rfl
      | _ => exact fun _ => rfl

def seenStatement (names : List String) (found : Statement × Option Kind × Scope) :
    Statement × Option Kind × Scope :=
  (found.1.unnumbered, found.2.1, found.2.2.restricted names)

theorem resolveStatement_restricted {node : Node} (mentioned : node.names ⊆ names) (scope : Scope) :
    resolveStatement (scope.restricted names) node =
      seenStatement names <$> resolveStatement scope node := by
  unfold resolveStatement
  by_cases definition : isDefinition node = true
  · rw [if_pos definition, if_pos definition]
    obtain ⟨nameSpan, arguments, span, rfl⟩ :=
      Node.form_of_operatorName? (of_decide_eq_true definition)
    match arguments with
    | [] => rfl
    | [_] | _ :: _ :: _ :: _ =>
        simp only
        rfl
    | [name, value] =>
        cases name with
        | symbol text textSpan =>
            have inside : value.names ⊆ names :=
              List.Subset.trans (Node.names_subset_of_item (by simp [Node.items])) mentioned
            refine bind_viewed (restricts inside scope) fun ⟨expr, kind, after⟩ => ?_
            simp only [seen, Scope.declare?_restricted]
            cases after.declare? text kind <;> rfl
        | _ => rfl
  · rw [if_neg definition, if_neg definition]
    exact bind_viewed (restricts mentioned scope) fun ⟨expr, kind, after⟩ => rfl

theorem resolveStatements_restricted {nodes : List Node} (mentioned : Node.namesAll nodes ⊆ names)
    (scope : Scope) (resolved : List Statement) (result? : Option Kind) :
    resolveStatements (scope.restricted names) (resolved.map Statement.unnumbered) result? nodes =
      (fun found => (found.1.map Statement.unnumbered, found.2.1, found.2.2.restricted names)) <$>
        resolveStatements scope resolved result? nodes := by
  induction nodes generalizing scope resolved result? with
  | nil => exact congrArg (fun statements => Except.ok (statements, _)) List.map_reverse.symm
  | cons node rest inductionHypothesis =>
      rw [Node.namesAll, List.append_subset] at mentioned
      rw [resolveStatements, resolveStatements]
      refine bind_viewed (resolveStatement_restricted mentioned.1 scope)
        fun ⟨statement, result?, after⟩ => ?_
      exact inductionHypothesis mentioned.2 after (statement :: resolved) result?

end Resolution

/-! Fields. -/

def Environment.ofFields (fields : List Field) : Environment :=
  (fields.map fun field => (field.name, field.value)).reverse

def Environment.Agree (names : List String) (first second : Environment) : Prop :=
  ∀ name ∈ names, first.lookup name = second.lookup name

theorem lookup_fieldVariables (fields : List Field) (name : String) :
    ((Scope.fieldVariables fields).lookup name).map Variable.unnumbered =
      ((Environment.ofFields fields).lookup name).map fun value =>
        { place := .field 0, kind := Kind.ofValue value } := by
  let numberless (field : Field) : String × Variable :=
    (field.name, { place := .field 0, kind := Kind.ofValue field.value })
  have counted : (fields.zipIdx.map fun entry => numberless entry.1) = fields.map numberless := by
    calc
      _ = (fields.zipIdx.map Prod.fst).map numberless := List.map_map.symm
      _ = fields.map numberless := by rw [List.zipIdx_map_fst]
  rw [← lookup_map, ← lookup_map, Scope.fieldVariables, Environment.ofFields, List.map_reverse,
    List.map_reverse, List.map_map, List.map_map]
  exact congrArg (fun entries => entries.reverse.lookup name) counted

namespace Resolution

theorem restricted_agree {fields others : List Field} {names : List String} {scope other : Scope}
    (found : Scope.ofFields? fields = some scope) (otherFound : Scope.ofFields? others = some other)
    (agree : Environment.Agree names (.ofFields fields) (.ofFields others)) :
    scope.restricted names = other.restricted names := by
  have restrictedFields : Scope.restrictedFields names (Scope.fieldVariables fields) =
      Scope.restrictedFields names (Scope.fieldVariables others) := by
    refine List.filterMap_congr fun name mentioned => ?_
    have same := lookup_fieldVariables fields name
    rw [agree name mentioned, ← lookup_fieldVariables others name] at same
    have paired := congrArg (Option.map (Prod.mk name)) same
    rwa [Option.map_map, Option.map_map] at paired
  unfold Scope.ofFields? at found otherFound
  split at found
  · split at otherFound
    · obtain rfl := Option.some.inj found
      obtain rfl := Option.some.inj otherFound
      unfold Scope.restricted
      rw [restrictedFields]
    · cases otherFound
  · cases found

/-- The body of a fragment over some fields, without numbers, is found in the restricted scope. -/
theorem resolveFragment_restricted {fields : List Field} {nodes : List Node} {scope : Scope}
    (found : Scope.ofFields? fields = some scope) :
    Body.unnumbered <$> resolveFragment fields nodes =
      (do
        let (statements, result?, after) ←
          resolveStatements (scope.restricted (Node.namesAll nodes)) [] (some .nil) nodes
        if after.peak < Scope.slotCount then
          return { statements, locals := UInt16.ofNat after.peak, result? }
        else
          .error (.internal .tooManyLocals)) := by
  have statements := resolveStatements_restricted (List.Subset.refl (Node.namesAll nodes)) scope []
    (some .nil)
  unfold resolveFragment
  rw [found]
  refine (bind_viewed statements fun ⟨made, result?, after⟩ => ?_).symm
  have peak : (after.restricted (Node.namesAll nodes)).peak = after.peak := rfl
  simp only [peak]
  split <;> rfl

/-- Fields that give the names in a fragment the same values lead to the same error, or to bodies that differ
in the numbers of fields only. -/
theorem resolveFragment_agree {fields others : List Field} {nodes : List Node}
    (few : fields.length ≤ Scope.slotCount) (otherFew : others.length ≤ Scope.slotCount)
    (agree : Environment.Agree (Node.namesAll nodes) (.ofFields fields) (.ofFields others)) :
    Body.unnumbered <$> resolveFragment fields nodes =
      Body.unnumbered <$> resolveFragment others nodes := by
  have known : ∀ fields : List Field, fields.length ≤ Scope.slotCount →
      ∃ scope, Scope.ofFields? fields = some scope := fun _ few => ⟨_, if_pos few⟩
  obtain ⟨scope, found⟩ := known fields few
  obtain ⟨other, otherFound⟩ := known others otherFew
  rw [resolveFragment_restricted found, resolveFragment_restricted otherFound,
    restricted_agree found otherFound agree]

end Resolution

/-! Meaning. -/

theorem Environment.Agree.cons {names : List String} {first second : Environment}
    (agree : Agree names first second) (name : String) (value : Value) :
    Agree names ((name, value) :: first) ((name, value) :: second) := by
  intro other mentioned
  rw [List.lookup_cons, List.lookup_cons, agree other mentioned]

def Heeds (names : List String) (node : Node) : Prop :=
  ∀ first second, Environment.Agree names first second → ∀ output,
    meaning first output node = meaning second output node

section Meanings

variable {names : List String} {first second : Environment}

theorem nameMeaning_agree (agree : Environment.Agree names first second) {name : String}
    (mentioned : name ∈ names) : nameMeaning first name = nameMeaning second name := by
  unfold nameMeaning
  split
  · rfl
  · rfl
  · rfl
  · rw [agree name mentioned]

theorem meaningFold_agree {nodes : List Node} (each : ∀ node ∈ nodes, Heeds names node)
    (agree : Environment.Agree names first second) (op : ArithmeticOp) (result : Value)
    (output : String) :
    meaningFold op result first output nodes = meaningFold op result second output nodes := by
  induction nodes generalizing result output with
  | nil => rfl
  | cons node rest inductionHypothesis =>
      have later := inductionHypothesis fun other member => each other (List.mem_cons_of_mem _ member)
      rw [meaningFold, meaningFold, each node List.mem_cons_self first second agree]
      simp only [later]

theorem meaningUntil_agree {nodes : List Node} (each : ∀ node ∈ nodes, Heeds names node)
    (agree : Environment.Agree names first second) (stopAtTrue : Bool) (output : String) :
    meaningUntil stopAtTrue first output nodes = meaningUntil stopAtTrue second output nodes := by
  induction nodes generalizing output with
  | nil => rfl
  | cons node rest inductionHypothesis =>
      have later := inductionHypothesis fun other member => each other (List.mem_cons_of_mem _ member)
      rw [meaningUntil, meaningUntil, each node List.mem_cons_self first second agree]
      simp only [later]

theorem meaningAll_agree {nodes : List Node} (each : ∀ node ∈ nodes, Heeds names node)
    (agree : Environment.Agree names first second) (output : String) :
    meaningAll first output nodes = meaningAll second output nodes := by
  induction nodes generalizing output with
  | nil => rfl
  | cons node rest inductionHypothesis =>
      have later := inductionHypothesis fun other member => each other (List.mem_cons_of_mem _ member)
      rw [meaningAll, meaningAll, each node List.mem_cons_self first second agree]
      simp only [later]

theorem meaningLast_agree {nodes : List Node} (each : ∀ node ∈ nodes, Heeds names node)
    (agree : Environment.Agree names first second) (last : Value) (output : String) :
    meaningLast last first output nodes = meaningLast last second output nodes := by
  induction nodes generalizing last output with
  | nil => rfl
  | cons node rest inductionHypothesis =>
      have later := inductionHypothesis fun other member => each other (List.mem_cons_of_mem _ member)
      rw [meaningLast, meaningLast, each node List.mem_cons_self first second agree]
      simp only [later]

theorem meaningBindings_agree {Result : Type} {rest : Environment × String → Except Stop Result}
    (alike : ∀ inner other output, Environment.Agree names inner other →
      rest (inner, output) = rest (other, output)) :
    ∀ (nodes : List Node) (first second : Environment) (output : String),
      (∀ node ∈ nodes, Heeds names node) → Environment.Agree names first second →
      meaningBindings first output nodes >>= rest = meaningBindings second output nodes >>= rest
  | [], first, second, output, _, agree => alike first second output agree
  | [_], _, _, _, _, _ => by simp only [meaningBindings]
  | name :: value :: others, first, second, output, each, agree => by
      cases name with
      | symbol text textSpan =>
          have own := each value (List.mem_cons_of_mem _ List.mem_cons_self)
          rw [meaningBindings, meaningBindings, own first second agree, bind_assoc, bind_assoc]
          refine congrArg _ (funext fun (found, output) => ?_)
          exact meaningBindings_agree alike others _ _ output
            (fun other member => each other (List.mem_cons_of_mem _ (List.mem_cons_of_mem _ member)))
            (agree.cons text found)
      | _ => simp only [meaningBindings]

theorem heeds_form {name : String} {nameSpan span : Span} {arguments : List Node}
    (smaller : ∀ inner, inner.size < (Node.list (.symbol name nameSpan :: arguments) span).size →
      inner.names ⊆ names → Heeds names inner)
    (mentioned : (Node.list (.symbol name nameSpan :: arguments) span).names ⊆ names) :
    Heeds names (.list (.symbol name nameSpan :: arguments) span) := by
  have each := Node.arguments_of_form smaller mentioned
  intro first second agree output
  have own := fun argument member => each argument member first second agree
  unfold meaning
  cases Operator.ofName name with
  | arithmetic op =>
      cases op with
      | subtract =>
          match arguments, each, own with
          | [], _, _ => rfl
          | [node], _, own => simp only [own node List.mem_cons_self]
          | node :: next :: rest, each, own =>
              have later := meaningFold_agree (fun argument member =>
                each argument (List.mem_cons_of_mem _ member)) agree
              simp only [own node List.mem_cons_self, later]
      | _ =>
          cases arguments with
          | nil => rfl
          | cons node rest =>
              have later := meaningFold_agree (fun argument member =>
                each argument (List.mem_cons_of_mem _ member)) agree
              simp only [own node List.mem_cons_self, later]
  | equal | order =>
      match arguments, own with
      | [left, right], own =>
          have second := own right (List.mem_cons_of_mem _ List.mem_cons_self)
          simp only [own left List.mem_cons_self, second]
      | [], _ | [_], _ | _ :: _ :: _ :: _, _ => rfl
  | not | count =>
      match arguments, own with
      | [node], own => simp only [own node List.mem_cons_self]
      | [], _ | _ :: _ :: _, _ => rfl
  | conditional =>
      match arguments, own with
      | [condition, consequent, alternative], own =>
          have second := own consequent (List.mem_cons_of_mem _ List.mem_cons_self)
          have third := own alternative
            (List.mem_cons_of_mem _ (List.mem_cons_of_mem _ List.mem_cons_self))
          simp only [own condition List.mem_cons_self, second, third]
      | [], _ | [_], _ | [_, _], _ | _ :: _ :: _ :: _ :: _, _ => rfl
  | conjunction | disjunction => exact meaningUntil_agree each agree _ output
  | concat | print => simp only [meaningAll_agree each agree]
  | localBinding =>
      cases arguments with
      | nil => rfl
      | cons head body =>
          cases head with
          | vector bindings bindingsSpan =>
              have inBindings := Node.bindings_of_form smaller mentioned List.mem_cons_self
              exact meaningBindings_agree (fun inner other output agree =>
                meaningLast_agree (fun node member => each node (List.mem_cons_of_mem _ member)) agree
                  .nil output) bindings first second output inBindings agree
          | _ => rfl
  | definition | block | function | unknown => rfl

theorem heeds {node : Node} (mentioned : node.names ⊆ names) : Heeds names node := by
  induction node using Node.sizeInduction with
  | step node smaller =>
      cases node with
      | list items span =>
          cases items with
          | nil => exact fun _ _ _ _ => rfl
          | cons head arguments =>
              cases head with
              | symbol name nameSpan => exact heeds_form smaller mentioned
              | _ => exact fun _ _ _ _ => rfl
      | symbol name span =>
          intro first second agree output
          rw [meaning, meaning, nameMeaning_agree agree (mentioned List.mem_cons_self)]
      | _ => exact fun _ _ _ _ => rfl

theorem names_of_definition? {statement node : Node} {name : String}
    (defined : definition? statement = some (name, node)) : node.names ⊆ statement.names := by
  unfold definition? at defined
  split at defined
  · split at defined
    · obtain ⟨rfl, rfl⟩ := Prod.mk.inj (Option.some.inj defined)
      exact Node.names_subset_of_item (by simp [Node.items])
    · cases defined
  · cases defined

theorem meaningStatements_agree {nodes : List Node} (mentioned : Node.namesAll nodes ⊆ names)
    (agree : Environment.Agree names first second) (last? : Option Value) (output : String) :
    meaningStatements last? first output nodes = meaningStatements last? second output nodes := by
  induction nodes generalizing first second last? output with
  | nil => rfl
  | cons statement rest inductionHypothesis =>
      rw [Node.namesAll, List.append_subset] at mentioned
      rw [meaningStatements, meaningStatements]
      cases defined : definition? statement with
      | some definition =>
          obtain ⟨name, node⟩ := definition
          have inside := List.Subset.trans (names_of_definition? defined) mentioned.1
          simp only [heeds inside first second agree]
          refine congrArg _ (funext fun (value, output) => ?_)
          exact inductionHypothesis mentioned.2 (agree.cons name value) none output
      | none =>
          simp only [heeds mentioned.1 first second agree]
          refine congrArg _ (funext fun (value, output) => ?_)
          exact inductionHypothesis mentioned.2 agree (some value) output

end Meanings

end Lisp
end FragmentLisp
