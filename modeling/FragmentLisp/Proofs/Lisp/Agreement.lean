import Mathlib.Data.List.Forall2
import FragmentLisp.Proofs.Lisp.Acceptance
import FragmentLisp.Proofs.Lisp.Meaning

/-!
Resolution keeps meanings. What a node means in an environment of names is what its expression gives on
slots and fields that hold the values of these names.
-/

namespace FragmentLisp
namespace Lisp
namespace Resolution

open Scope (Orderly Extends)

/-! What an evaluation with slots shows. -/

def visible {Result : Type} (outcome : Except Fault (Result × Store)) :
    Except Stop (Result × String) :=
  attempted (outcome.map fun result => (result.1, result.2.output))

theorem visible_bind {First Second : Type} {first : Except Fault (First × Store)}
    {rest : First × Store → Except Fault (Second × Store)}
    {means : First × String → Except Stop (Second × String)}
    (each : ∀ value store, first = .ok (value, store) →
      means (value, store.output) = visible (rest (value, store))) :
    (visible first >>= means) = visible (first >>= rest) := by
  cases first with
  | error fault => rfl
  | ok result => exact each result.1 result.2 rfl

theorem visible_operation {Result Next : Type} {outcome : Except Fault Result}
    {rest : Result → Except Fault (Next × Store)} {means : Result → Except Stop (Next × String)}
    (each : ∀ result, outcome = .ok result → means result = visible (rest result)) :
    (attempted outcome >>= means) = visible (outcome >>= rest) := by
  cases outcome with
  | error fault => rfl
  | ok result => exact each result rfl

/-! Names and slots. -/

def valueAt? (fields : Array Value) (store : Store) : Place → Option Value
  | .localSlot slot => store.locals[slot.toNat]?
  | .field index => fields[index.toNat]?

def Stands (fields : Array Value) (store : Store) (entry : String × Variable)
    (named : String × Value) : Prop :=
  entry.1 = named.1 ∧ valueAt? fields store entry.2.place = some named.2

/-- A point of an evaluation: the slots in use have their kinds, and the names in view stand for the values
of the environment. -/
structure Context (fieldKinds : List Kind) (slots : Nat) (fields : Array Value) (kinds : List Kind)
    (scope : Scope) (environment : Environment) (store : Store) : Prop where
  orderly : Orderly fieldKinds kinds scope
  conforms : Conforms kinds store.locals
  sized : store.locals.size = slots
  named : List.Forall₂ (Stands fields store) (scope.inView ++ scope.fields) environment

section Names

variable {fieldKinds : List Kind} {slots : Nat} {fields : Array Value}

theorem lookup_of_stands {store : Store} {names : List (String × Variable)}
    {environment : Environment} (named : List.Forall₂ (Stands fields store) names environment)
    {name : String} {known : Variable} (found : names.lookup name = some known) :
    ∃ value, environment.lookup name = some value ∧
      valueAt? fields store known.place = some value := by
  induction named with
  | nil => simp at found
  | @cons entry value names environment stands _ inductionHypothesis =>
      obtain ⟨same, held⟩ := stands
      obtain ⟨first, place⟩ := entry
      obtain ⟨other, value⟩ := value
      obtain rfl : first = other := same
      rw [List.lookup_cons] at found ⊢
      cases hit : name == first with
      | true =>
          rw [hit] at found
          obtain rfl : place = known := by simpa using found
          exact ⟨value, rfl, held⟩
      | false =>
          rw [hit] at found
          exact inductionHypothesis found

theorem stands_kept {before after : Store} {live : Nat} {names : List (String × Variable)}
    {environment : Environment} (kept : Kept live before after)
    (below : ∀ entry ∈ names, ∀ slot, entry.2.place = .localSlot slot → slot.toNat < live)
    (named : List.Forall₂ (Stands fields before) names environment) :
    List.Forall₂ (Stands fields after) names environment := by
  induction named with
  | nil => exact .nil
  | @cons entry value names environment stands _ inductionHypothesis =>
      refine .cons ⟨stands.1, ?_⟩
        (inductionHypothesis fun other member => below other (List.mem_cons_of_mem _ member))
      have own := below entry List.mem_cons_self
      have held := stands.2
      cases place : entry.2.place with
      | localSlot slot =>
          rw [place] at held
          exact (kept.slots slot.toNat (own slot place)).trans held
      | field index =>
          rw [place] at held
          exact held

namespace Context

variable {kinds : List Kind} {scope : Scope} {environment : Environment} {store : Store}

theorem below (context : Context fieldKinds slots fields kinds scope environment store) :
    ∀ entry ∈ scope.inView ++ scope.fields, ∀ slot, entry.2.place = .localSlot slot →
      slot.toNat < kinds.length := by
  intro entry member slot place
  rcases List.mem_append.mp member with isLocal | isField
  · obtain ⟨other, same, known⟩ := context.orderly.locals entry isLocal
    obtain rfl := Place.localSlot.inj (place.symm.trans same)
    exact (List.getElem?_eq_some_iff.mp known).1
  · obtain ⟨index, same, _⟩ := context.orderly.fields entry isField
    rw [place] at same
    simp at same

theorem kept (context : Context fieldKinds slots fields kinds scope environment store)
    {after : Store} (kept : Kept kinds.length store after) :
    Context fieldKinds slots fields kinds scope environment after :=
  ⟨context.orderly, kept.conforms context.conforms, kept.size.trans context.sized,
    stands_kept kept context.below context.named⟩

theorem raise (context : Context fieldKinds slots fields kinds scope environment store)
    {peak : Nat} (higher : scope.peak ≤ peak) :
    Context fieldKinds slots fields kinds (scope.raise peak) environment store :=
  ⟨context.orderly.raise higher, context.conforms, context.sized, context.named⟩

theorem push (context : Context fieldKinds slots fields kinds scope environment store) :
    Context fieldKinds slots fields kinds scope.push environment store :=
  ⟨context.orderly.push, context.conforms, context.sized, context.named⟩

theorem declare (context : Context fieldKinds slots fields kinds scope environment store)
    {name : String} {kind : Kind} {slot : UInt16} {next : Scope} {value : Value} {after : Store}
    (declared : scope.declare? name kind = some (slot, next)) (covers : Covers kind value)
    (assigned : store.assign slot value = .ok after) :
    Context fieldKinds slots fields (kinds ++ [kind]) next ((name, value) :: environment)
      after := by
  obtain ⟨orderly, place, extended, more⟩ := context.orderly.declare declared
  obtain ⟨conforms, kept⟩ := assign_next context.conforms place covers assigned
  refine ⟨orderly, conforms, kept.size.trans context.sized, ?_⟩
  rw [more, extended.fields, List.cons_append]
  refine .cons ⟨rfl, ?_⟩ (stands_kept kept context.below context.named)
  unfold Store.assign at assigned
  split at assigned
  · rename_i inside
    obtain rfl := Except.ok.inj assigned
    simp [valueAt?, inside]
  · simp at assigned

theorem evaluated (fieldsConform : Conforms fieldKinds fields)
    (context : Context fieldKinds slots fields kinds scope environment store) {node : Node}
    {expr : Expr} {kind : Kind} {after : Scope}
    (resolved : resolve scope node = .ok (expr, kind, after)) (room : after.peak ≤ slots)
    (checked : Checked node) {value : Value} {later : Store}
    (given : expr.evaluate fields store = .ok (value, later)) :
    Context fieldKinds slots fields kinds after environment later ∧ Covers kind value := by
  obtain ⟨rfl, higher, raised⟩ := regular fieldKinds node _ _ _ _ _ context.orderly resolved
  have traced : Traced [node] fieldKinds slots ⟨kinds, 0, expr⟩ :=
    ⟨node, List.mem_singleton_self node, node, .self, checked, scope, after, context.orderly,
      resolved, higher, room⟩
  obtain ⟨covers, keptSlots⟩ := respectsKinds fieldsConform _ traced.settled store context.conforms
    context.sized value later given
  rw [raised]
  exact ⟨(context.kept keptSlots).raise higher, covers⟩

end Context

end Names

/-! Nodes and their expressions. -/

/-- In every context the node means what its expression gives. -/
def Agrees (fieldKinds : List Kind) (slots : Nat) (fields : Array Value) (node : Node) : Prop :=
  ∀ scope kinds expr kind after environment store,
    Context fieldKinds slots fields kinds scope environment store →
    resolve scope node = .ok (expr, kind, after) → after.peak ≤ slots →
      meaning environment store.output node = visible (expr.evaluate fields store)

section Lists

variable {fieldKinds : List Kind} {slots : Nat} {fields : Array Value} {kinds : List Kind}
variable {scope after : Scope} {environment : Environment} {store : Store}
variable {wanted? : Option Kind} {nodes : List Node} {exprs : List Expr}

theorem Operands.higher (operands : Operands wanted? scope nodes exprs after)
    (orderly : Orderly fieldKinds kinds scope) : scope.peak ≤ after.peak :=
  (operands_regular operands (fun node _ => regular fieldKinds node) orderly).1

theorem head_agrees (fieldsConform : Conforms fieldKinds fields) {middle : Scope} {node : Node}
    {expr : Expr} {kind : Kind} (head : resolve scope node = .ok (expr, kind, middle))
    (tail : Operands wanted? middle nodes exprs after)
    (each : ∀ other ∈ node :: nodes, Checked other ∧ Agrees fieldKinds slots fields other)
    (context : Context fieldKinds slots fields kinds scope environment store)
    (room : after.peak ≤ slots) :
    meaning environment store.output node = visible (expr.evaluate fields store) ∧
      ∀ value later, expr.evaluate fields store = .ok (value, later) →
        Context fieldKinds slots fields kinds middle environment later := by
  obtain ⟨checked, agrees⟩ := each node List.mem_cons_self
  have orderly := (regular fieldKinds node).orderly context.orderly head
  have roomHead := Nat.le_trans (tail.higher orderly) room
  refine ⟨agrees _ _ _ _ _ _ _ context head roomHead, ?_⟩
  intro value later given
  exact (context.evaluated fieldsConform head roomHead checked given).1

theorem all_agree (fieldsConform : Conforms fieldKinds fields)
    (operands : Operands wanted? scope nodes exprs after)
    (each : ∀ node ∈ nodes, Checked node ∧ Agrees fieldKinds slots fields node)
    (context : Context fieldKinds slots fields kinds scope environment store)
    (room : after.peak ≤ slots) :
    meaningAll environment store.output nodes = visible (evaluateAll fields store exprs) := by
  induction operands generalizing store with
  | nil scope => rfl
  | @cons scope middle after node rest expr exprs kind head fits tail inductionHypothesis =>
      obtain ⟨own, onward⟩ := head_agrees fieldsConform head tail each context room
      rw [meaningAll, evaluateAll, own]
      apply visible_bind
      intro value later given
      have next := onward value later given
      simp only
      rw [inductionHypothesis (fun other member => each other (List.mem_cons_of_mem _ member)) next
        room]
      apply visible_bind
      intro values last _
      rfl

theorem until_agree (fieldsConform : Conforms fieldKinds fields) (stopAtTrue : Bool)
    (operands : Operands wanted? scope nodes exprs after)
    (each : ∀ node ∈ nodes, Checked node ∧ Agrees fieldKinds slots fields node)
    (context : Context fieldKinds slots fields kinds scope environment store)
    (room : after.peak ≤ slots) :
    meaningUntil stopAtTrue environment store.output nodes =
      visible (evaluateUntil fields stopAtTrue store exprs) := by
  induction operands generalizing store with
  | nil scope => rfl
  | @cons scope middle after node rest expr exprs kind head fits tail inductionHypothesis =>
      obtain ⟨own, onward⟩ := head_agrees fieldsConform head tail each context room
      rw [meaningUntil, evaluateUntil, own]
      apply visible_bind
      intro value later given
      have next := onward value later given
      simp only
      by_cases stops : value.isTruthy = stopAtTrue
      · rw [if_pos stops, if_pos stops]
        rfl
      · rw [if_neg stops, if_neg stops]
        exact inductionHypothesis (fun other member => each other (List.mem_cons_of_mem _ member))
          next room

theorem fold_agrees (fieldsConform : Conforms fieldKinds fields) (op : ArithmeticOp)
    (result : Value) (operands : Operands wanted? scope nodes exprs after)
    (each : ∀ node ∈ nodes, Checked node ∧ Agrees fieldKinds slots fields node)
    (context : Context fieldKinds slots fields kinds scope environment store)
    (room : after.peak ≤ slots) :
    meaningFold op result environment store.output nodes =
      visible (evaluateFold fields op (some result) store exprs) := by
  induction operands generalizing store result with
  | nil scope => rfl
  | @cons scope middle after node rest expr exprs kind head fits tail inductionHypothesis =>
      obtain ⟨own, onward⟩ := head_agrees fieldsConform head tail each context room
      rw [meaningFold, evaluateFold, own]
      apply visible_bind
      intro value later given
      have next := onward value later given
      simp only
      apply visible_operation
      intro combined _
      exact inductionHypothesis combined
        (fun other member => each other (List.mem_cons_of_mem _ member)) next room

def meaningSteps (last? : Option Value) (environment : Environment) (output : String) :
    List NamedNode → Except Stop (Option Value × String)
  | [] => .ok (last?, output)
  | (some name, node) :: rest => do
      let (value, output) ← meaning environment output node
      meaningSteps none ((name, value) :: environment) output rest
  | (none, node) :: rest => do
      let (value, output) ← meaning environment output node
      meaningSteps (some value) environment output rest

theorem steps_agree (fieldsConform : Conforms fieldKinds fields) {last? result? : Option Kind}
    {steps : List NamedNode} {statements : List Statement} (given? : Option Value)
    (resolved : Steps scope last? steps statements result? after)
    (each : ∀ entry ∈ steps, Checked entry.2 ∧ Agrees fieldKinds slots fields entry.2)
    (context : Context fieldKinds slots fields kinds scope environment store)
    (room : after.peak ≤ slots) :
    meaningSteps given? environment store.output steps =
      visible (evaluateStatements fields given? store statements) := by
  induction resolved generalizing kinds environment store given? with
  | nil scope last? => rfl
  | @definition scope middle next after last? result? name node rest slot value kind statements
      head declared tail inductionHypothesis =>
      obtain ⟨checked, agrees⟩ := each _ List.mem_cons_self
      have orderly := (regular fieldKinds node).orderly context.orderly head
      obtain ⟨orderlyNext, place, extended, _⟩ := orderly.declare declared
      obtain ⟨onward, _⟩ := steps_regular tail (fun entry _ => regular fieldKinds entry.2) orderlyNext
      have roomNext := Nat.le_trans onward.peak room
      have roomHead := Nat.le_trans extended.peak roomNext
      rw [meaningSteps, evaluateStatements, agrees _ _ _ _ _ _ _ context head roomHead]
      apply visible_bind
      intro found later given
      obtain ⟨behind, covers⟩ := context.evaluated fieldsConform head roomHead checked given
      have inside : slot.toNat < later.locals.size := by
        have used := orderlyNext.room
        rw [List.length_append, List.length_singleton] at used
        rw [behind.sized, place]
        omega
      have assigned : later.assign slot found =
          .ok { later with locals := later.locals.setIfInBounds slot.toNat found } := if_pos inside
      simp only [assigned]
      exact inductionHypothesis none
        (fun entry member => each entry (List.mem_cons_of_mem _ member))
        (behind.declare declared covers assigned) room
  | @expression scope middle after last? result? node rest value kind statements head tail
      inductionHypothesis =>
      obtain ⟨checked, agrees⟩ := each _ List.mem_cons_self
      have orderly := (regular fieldKinds node).orderly context.orderly head
      obtain ⟨onward, _⟩ := steps_regular tail (fun entry _ => regular fieldKinds entry.2) orderly
      have roomHead := Nat.le_trans onward.peak room
      rw [meaningSteps, evaluateStatements, agrees _ _ _ _ _ _ _ context head roomHead]
      apply visible_bind
      intro found later given
      obtain ⟨behind, _⟩ := context.evaluated fieldsConform head roomHead checked given
      exact inductionHypothesis (some found)
        (fun entry member => each entry (List.mem_cons_of_mem _ member)) behind room

theorem meaningLast_eq (last? : Option Value) (environment : Environment) (output : String)
    (body : List Node) :
    meaningLast (last?.getD .nil) environment output body =
      (meaningSteps last? environment output (body.map fun node => (none, node))).map
        fun result => (result.1.getD .nil, result.2) := by
  induction body generalizing last? output with
  | nil => rfl
  | cons node rest inductionHypothesis =>
      rw [meaningLast, List.map_cons, meaningSteps]
      cases meaning environment output node with
      | error stop => rfl
      | ok result => exact inductionHypothesis (some result.1) result.2

inductive Paired : List Node → Prop
  | nil : Paired []
  | cons (name : String) (span : Span) (value : Node) {rest : List Node} (tail : Paired rest) :
      Paired (.symbol name span :: value :: rest)

theorem paired_of_checked {items : List Node} (even : items.length % 2 = 0)
    (checked : Grammar.checkBindings items = .ok ()) : Paired items := by
  match items with
  | [] => exact .nil
  | [_] => simp at even
  | first :: value :: rest =>
      rw [Grammar.checkBindings] at checked
      split at checked
      · simp at checked
      · rename_i named
        split at checked
        · simp at checked
        · have fewer : rest.length % 2 = 0 := by
            rwa [List.length_cons, List.length_cons, Nat.add_assoc, Nat.add_mod_right] at even
          have tail := paired_of_checked fewer checked
          cases first with
          | symbol name span => exact .cons name span value tail
          | _ => simp [Grammar.checkName, complain] at named

theorem meaning_let {items : List Node} (paired : Paired items) (environment : Environment)
    (output : String) (body : List Node) :
    (meaningBindings environment output items >>= fun result =>
        meaningLast .nil result.1 result.2 body) =
      (meaningSteps none environment output
        (bindingNodes items ++ body.map fun node => (none, node))).map
          fun result => (result.1.getD .nil, result.2) := by
  induction paired generalizing environment output with
  | nil => exact meaningLast_eq none environment output body
  | cons name span value tail inductionHypothesis =>
      rw [meaningBindings, bindingNodes, List.cons_append, meaningSteps]
      cases meaning environment output value with
      | error stop => rfl
      | ok result => exact inductionHypothesis _ _

end Lists

/-! Every node agrees. -/

section Nodes

variable {fieldKinds : List Kind} {slots : Nat} {fields : Array Value}

theorem symbol_agrees {kinds : List Kind} {scope : Scope} {environment : Environment} {store : Store}
    (context : Context fieldKinds slots fields kinds scope environment store) {name : String}
    {span : Span} {expr : Expr} {kind : Kind}
    (found : resolveName scope name span = .ok (expr, kind)) :
    meaning environment store.output (.symbol name span) = visible (expr.evaluate fields store) := by
  rw [meaning]
  have variableMeaning (free : name ∉ reservedNames) :=
    nameMeaning.eq_4 environment name (fun same => free (same ▸ by decide))
      (fun same => free (same ▸ by decide)) (fun same => free (same ▸ by decide))
  cases denotes_of_ok found with
  | true | false | nil => rfl
  | localSlot free looked =>
      rw [Scope.lookup?_eq] at looked
      obtain ⟨value, named, held⟩ := lookup_of_stands context.named looked
      change store.locals[_]? = some value at held
      rw [variableMeaning free]
      simp only [named, Expr.evaluate, held]
      rfl
  | field free looked =>
      rw [Scope.lookup?_eq] at looked
      obtain ⟨value, named, held⟩ := lookup_of_stands context.named looked
      change fields[_]? = some value at held
      rw [variableMeaning free]
      simp only [named, Expr.evaluate, held]
      rfl

section FormOperands

variable {kinds : List Kind} {scope after : Scope} {environment : Environment} {store : Store}
variable {arguments : List Node} {wanted? : Option Kind}

theorem one_agrees (fieldsConform : Conforms fieldKinds fields) {operand : Expr}
    (only : Operands wanted? scope arguments [operand] after)
    (each : ∀ argument ∈ arguments, Checked argument ∧ Agrees fieldKinds slots fields argument)
    (context : Context fieldKinds slots fields kinds scope environment store)
    (room : after.peak ≤ slots) :
    ∃ node, arguments = [node] ∧
      meaning environment store.output node = visible (operand.evaluate fields store) := by
  cases only with
  | cons head fits tail =>
      have own := (head_agrees fieldsConform head tail each context room).1
      cases tail
      exact ⟨_, rfl, own⟩

theorem two_agree (fieldsConform : Conforms fieldKinds fields) {left right : Expr}
    (both : Operands wanted? scope arguments [left, right] after)
    (each : ∀ argument ∈ arguments, Checked argument ∧ Agrees fieldKinds slots fields argument)
    (context : Context fieldKinds slots fields kinds scope environment store)
    (room : after.peak ≤ slots) :
    ∃ leftNode rightNode, arguments = [leftNode, rightNode] ∧
      meaning environment store.output leftNode = visible (left.evaluate fields store) ∧
      ∀ value later, left.evaluate fields store = .ok (value, later) →
        meaning environment later.output rightNode = visible (right.evaluate fields later) := by
  cases both with
  | @cons _ _ _ leftNode _ _ _ _ head fits tail =>
      obtain ⟨own, onward⟩ := head_agrees fieldsConform head tail each context room
      have eachOther := fun other member => each other (List.mem_cons_of_mem leftNode member)
      cases tail with
      | cons second fitsSecond rest =>
          have other := fun value later given =>
            (head_agrees fieldsConform second rest eachOther (onward value later given) room).1
          cases rest
          exact ⟨_, _, rfl, own, other⟩

theorem meaning_arithmetic {name : String} {nameSpan span : Span} {op : ArithmeticOp}
    (operator : Operator.ofName name = .arithmetic op) (environment : Environment)
    (output : String) (first second : Node) (rest : List Node) :
    meaning environment output (.list (.symbol name nameSpan :: first :: second :: rest) span) =
      meaning environment output first >>= fun result =>
        meaningFold op result.1 environment result.2 (second :: rest) := by
  conv_lhs => unfold meaning
  simp only [operator]

/-- Arithmetic on two operands or more begins with the first one and takes the others in turn. -/
theorem arithmetic_agrees (fieldsConform : Conforms fieldKinds fields) {name : String}
    {nameSpan span : Span} {op : ArithmeticOp} (operator : Operator.ofName name = .arithmetic op)
    {exprs : List Expr} (operands : Operands wanted? scope arguments exprs after)
    (several : 2 ≤ arguments.length)
    (each : ∀ argument ∈ arguments, Checked argument ∧ Agrees fieldKinds slots fields argument)
    (context : Context fieldKinds slots fields kinds scope environment store)
    (room : after.peak ≤ slots) :
    meaning environment store.output (.list (.symbol name nameSpan :: arguments) span) =
      visible ((Expr.arithmetic op exprs).evaluate fields store) := by
  cases operands with
  | nil => simp at several
  | @cons _ _ _ first rest _ _ _ head fits tail =>
      obtain ⟨own, onward⟩ := head_agrees fieldsConform head tail each context room
      cases rest with
      | nil => simp at several
      | cons second more =>
          rw [meaning_arithmetic operator, Expr.evaluate, evaluateFold, own]
          apply visible_bind
          intro value later given
          exact fold_agrees fieldsConform op value tail
            (fun other member => each other (List.mem_cons_of_mem _ member))
            (onward value later given) room

end FormOperands

theorem form_agrees (fieldsConform : Conforms fieldKinds fields) {kinds : List Kind}
    {scope after : Scope} {environment : Environment} {store : Store}
    (context : Context fieldKinds slots fields kinds scope environment store) {name : String}
    {nameSpan span : Span} {arguments : List Node} {expr : Expr} {kind : Kind}
    (form : Form (Operator.ofName name) expr kind)
    (operands : Operands expr.demand? scope arguments expr.parts after)
    (checked : Grammar.checkForm name nameSpan span arguments.length = .ok ())
    (each : ∀ argument ∈ arguments, Checked argument ∧ Agrees fieldKinds slots fields argument)
    (room : after.peak ≤ slots) :
    meaning environment store.output (.list (.symbol name nameSpan :: arguments) span) =
      visible (expr.evaluate fields store) := by
  generalize known : Operator.ofName name = operator at form
  cases form with
  | negate operand | count operand =>
      obtain ⟨node, rfl, own⟩ := one_agrees fieldsConform operands each context room
      unfold meaning Expr.evaluate
      simp only [known, own]
      apply visible_bind
      intro value later _
      apply visible_operation
      intro result _
      rfl
  | not operand =>
      obtain ⟨node, rfl, own⟩ := one_agrees fieldsConform operands each context room
      unfold meaning Expr.evaluate
      simp only [known, own]
      apply visible_bind
      intro value later _
      rfl
  | equal left right =>
      obtain ⟨leftNode, rightNode, rfl, own, other⟩ :=
        two_agree fieldsConform operands each context room
      unfold meaning Expr.evaluate
      simp only [known, own]
      apply visible_bind
      intro value later given
      simp only [other value later given]
      apply visible_bind
      intro second last _
      rfl
  | order op left right =>
      obtain ⟨leftNode, rightNode, rfl, own, other⟩ :=
        two_agree fieldsConform operands each context room
      unfold meaning Expr.evaluate
      simp only [known, own]
      apply visible_bind
      intro value later given
      simp only [other value later given]
      apply visible_bind
      intro second last _
      apply visible_operation
      intro result _
      rfl
  | conjunction exprs | disjunction exprs =>
      unfold meaning Expr.evaluate
      simp only [known]
      exact until_agree fieldsConform _ operands each context room
  | concat exprs | print newline exprs =>
      unfold meaning Expr.evaluate
      simp only [known, all_agree fieldsConform operands each context room]
      apply visible_bind
      intro values later _
      rfl
  | arithmetic op exprs plural =>
      have several := several_of_checked known checked
        fun subtraction => operands.length ▸ plural subtraction
      exact arithmetic_agrees fieldsConform known operands several each context room

theorem conditional_agrees (fieldsConform : Conforms fieldKinds fields) {kinds : List Kind}
    {scope first second after : Scope} {environment : Environment} {store : Store}
    (context : Context fieldKinds slots fields kinds scope environment store) {name : String}
    {nameSpan span : Span} (operator : Operator.ofName name = .conditional)
    {condition consequent alternative : Node} {test chosen other : Expr}
    {testKind chosenKind otherKind : Kind}
    (each : ∀ argument ∈ [condition, consequent, alternative],
      Checked argument ∧ Agrees fieldKinds slots fields argument)
    (testResolved : resolve scope condition = .ok (test, testKind, first))
    (chosenResolved : resolve first consequent = .ok (chosen, chosenKind, second))
    (otherResolved : resolve second alternative = .ok (other, otherKind, after))
    (room : after.peak ≤ slots) :
    meaning environment store.output
        (.list [.symbol name nameSpan, condition, consequent, alternative] span) =
      visible ((Expr.conditional test chosen other).evaluate fields store) := by
  obtain ⟨checkedTest, agreesTest⟩ := each condition List.mem_cons_self
  obtain ⟨_, agreesChosen⟩ := each consequent (List.mem_cons_of_mem _ List.mem_cons_self)
  obtain ⟨_, agreesOther⟩ := each alternative
    (List.mem_cons_of_mem _ (List.mem_cons_of_mem _ List.mem_cons_self))
  have orderlyFirst := (regular fieldKinds condition).orderly context.orderly testResolved
  have orderlySecond := (regular fieldKinds consequent).orderly orderlyFirst chosenResolved
  obtain ⟨_, secondHigher, raised⟩ := regular fieldKinds consequent _ _ _ _ _ orderlyFirst
    chosenResolved
  obtain ⟨_, thirdHigher, _⟩ := regular fieldKinds alternative _ _ _ _ _ orderlySecond
    otherResolved
  have roomSecond := Nat.le_trans thirdHigher room
  have roomFirst := Nat.le_trans secondHigher roomSecond
  conv_lhs => unfold meaning
  rw [Expr.evaluate]
  simp only [operator, agreesTest _ _ _ _ _ _ _ context testResolved roomFirst]
  apply visible_bind
  intro value later given
  obtain ⟨next, _⟩ := context.evaluated fieldsConform testResolved roomFirst checkedTest given
  simp only
  by_cases truthy : value.isTruthy = true
  · rw [if_pos truthy, if_pos truthy]
    exact agreesChosen _ _ _ _ _ _ _ next chosenResolved roomSecond
  · rw [if_neg truthy, if_neg truthy]
    -- The alternative is resolved behind the consequent, which has left the names as they were.
    rw [raised] at otherResolved
    exact agreesOther _ _ _ _ _ _ _ (next.raise secondHigher) otherResolved room

theorem paired_of_let {name : String} {nameSpan vectorSpan span : Span}
    {bindingItems bodyItems : List Node} (operator : Operator.ofName name = .localBinding)
    (checked : Checked
      (.list (.symbol name nameSpan :: .vector bindingItems vectorSpan :: bodyItems) span)) :
    Paired bindingItems := by
  unfold Checked Grammar.checkExpression at checked
  simp only [operator] at checked
  split at checked
  · simp at checked
  · split at checked
    · rename_i even
      split at checked
      · simp at checked
      · rename_i bound
        exact paired_of_checked even bound
    · simp [complain] at checked

/-- A node that the grammar allows means what its expression gives. -/
theorem agrees (fieldsConform : Conforms fieldKinds fields) (node : Node) :
    Checked node → Agrees fieldKinds slots fields node := by
  induction node using Node.sizeInduction with
  | step node smaller =>
      intro checked scope kinds expr kind after environment store context resolved room
      cases resolved_of_ok resolved with
      | number value span => rfl
      | string value span => rfl
      | symbol found => exact symbol_agrees context found
      | nil span => rfl
      | @form name nameSpan span arguments _ _ _ form operands =>
          obtain ⟨shape, parts⟩ := checked_form checked
          refine form_agrees fieldsConform context form operands shape ?_ room
          intro argument member
          have fine := parts form.ordinary argument member
          exact ⟨fine, smaller argument (Node.size_of_item (List.mem_cons_of_mem _ member)) fine⟩
      | @conditional name nameSpan span condition consequent alternative _ _ _ _ _ _ _ _ _ operator
          testResolved chosenResolved otherResolved =>
          have ordinary : Operator.ofName name ≠ .localBinding := by
            rw [operator]
            exact nofun
          have parts := (checked_form checked).2 ordinary
          refine conditional_agrees fieldsConform context operator ?_ testResolved chosenResolved
            otherResolved room
          intro argument member
          have fine := parts argument member
          exact ⟨fine, smaller argument (Node.size_of_item (List.mem_cons_of_mem _ member)) fine⟩
      | @localBinding name nameSpan vectorSpan span bindingItems bodyItems bindings body result? inner
          operator steps =>
          have each : ∀ entry ∈ bindingNodes bindingItems ++ bodyItems.map fun node => (none, node),
              Checked entry.2 ∧ Agrees fieldKinds slots fields entry.2 := by
            intro entry member
            have fine := checked_let operator checked entry member
            refine ⟨fine, smaller entry.2 ?_ fine⟩
            rcases mem_letNodes member with bound | inBody
            · exact Nat.lt_trans (Node.size_of_vector_item bound)
                (Node.size_of_item (List.mem_cons_of_mem _ List.mem_cons_self))
            · exact Node.size_of_item (List.mem_cons_of_mem _ (List.mem_cons_of_mem _ inBody))
          obtain ⟨extended, _, _, _⟩ := steps_regular steps
            (fun entry _ => regular fieldKinds entry.2) context.orderly.push
          rw [extended.pop context.orderly.framed] at room
          have stepsAgree := steps_agree fieldsConform none steps each context.push room
          conv_lhs => unfold meaning
          simp only [operator]
          refine (meaning_let (paired_of_let operator checked) environment store.output
            bodyItems).trans ?_
          rw [stepsAgree, evaluate_localBinding]
          cases evaluateStatements fields none store (bindingSteps bindings body) <;> rfl

/-! Whole bodies. -/

theorem definition?_eq_some {node value : Node} {name : String}
    (found : definition? node = some (name, value)) : isDefinition node = true := by
  unfold definition? at found
  split at found
  · rename_i head other nameSpan item span
    by_cases named : head.symbolName? = some "def"
    · exact decide_eq_true named
    · rw [if_neg named] at found
      simp at found
  · simp at found

theorem statementNode_eq (statement : Node) :
    statementNode statement =
      match definition? statement with
      | some (name, node) => (some name, node)
      | none => (none, statement) := by
  unfold statementNode
  by_cases definition : isDefinition statement = true
  · rw [if_pos definition]
    unfold isDefinition Node.operatorName? at definition
    split
    · rename_i head name nameSpan value span
      have named : head.symbolName? = some "def" := of_decide_eq_true definition
      simp only [definition?, named, if_true]
    · rename_i irregular
      rw [definition?.eq_2 statement irregular]
  · rw [if_neg definition]
    cases found : definition? statement with
    | none => rfl
    | some entry => exact absurd (definition?_eq_some found) definition

theorem meaningStatements_eq (last? : Option Value) (environment : Environment) (output : String)
    (nodes : List Node) :
    meaningStatements last? environment output nodes =
      meaningSteps last? environment output (nodes.map statementNode) := by
  induction nodes generalizing last? environment output with
  | nil => rfl
  | cons statement rest inductionHypothesis =>
      rw [meaningStatements, List.map_cons, statementNode_eq]
      cases definition? statement with
      | none =>
          simp only [meaningSteps]
          congr 1
          funext result
          exact inductionHypothesis _ _ _
      | some defined =>
          simp only [meaningSteps]
          congr 1
          funext result
          exact inductionHypothesis _ _ _

end Nodes

end Resolution
end Lisp
end FragmentLisp
