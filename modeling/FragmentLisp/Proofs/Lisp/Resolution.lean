import FragmentLisp.Proofs.Lisp.Forms
import FragmentLisp.Proofs.Node

/-!
What resolution promises. An expression leaves the names in view as they were, its kind is the one that
its own form has, and everything in it has been resolved where the slots in use have the kinds that are
known of them.
-/

namespace FragmentLisp

namespace Lisp

/-- Looking a name up among views of values is viewing what is found. -/
theorem lookup_map {Value View : Type} (view : Value → View) (entries : List (String × Value))
    (name : String) :
    (entries.map fun entry => (entry.1, view entry.2)).lookup name =
      (entries.lookup name).map view := by
  induction entries with
  | nil => rfl
  | cons entry rest inductionHypothesis =>
      obtain ⟨own, found⟩ := entry
      by_cases same : name = own
      · subst same
        simp
      · have other : (name == own) = false := by simpa using same
        simp [List.lookup_cons, other, inductionHypothesis]

namespace Scope

def inView (scope : Scope) : List (String × Variable) :=
  scope.frames.flatMap Frame.locals

def raise (scope : Scope) (peak : Nat) : Scope :=
  { scope with peak }

theorem lookup?_eq (scope : Scope) (name : String) :
    scope.lookup? name = (scope.inView ++ scope.fields).lookup name := by
  rw [lookup?, inView, List.lookup_append]
  congr 1
  induction scope.frames with
  | nil => rfl
  | cons frame rest inductionHypothesis =>
      rw [List.findSome?_cons, List.flatMap_cons, List.lookup_append, inductionHypothesis]
      cases frame.locals.lookup name <;> rfl

/-- The slots in use are numbered in the order of their kinds, and names lead to slots in use and to
fields. -/
structure Orderly (fieldKinds kinds : List Kind) (scope : Scope) : Prop where
  framed : scope.frames ≠ []
  next : scope.nextSlot = kinds.length
  room : kinds.length ≤ scope.peak
  locals : ∀ entry ∈ scope.inView, ∃ slot,
    entry.2.place = .localSlot slot ∧ kinds[slot.toNat]? = some entry.2.kind
  fields : ∀ entry ∈ scope.fields, ∃ index,
    entry.2.place = .field index ∧ fieldKinds[index.toNat]? = some entry.2.kind

/-- Only the innermost frame has changed, and slots may have been used. -/
structure Extends (scope after : Scope) : Prop where
  frames : ∃ innermost outer locals, scope.frames = innermost :: outer ∧
    after.frames = { innermost with locals } :: outer
  fields : after.fields = scope.fields
  peak : scope.peak ≤ after.peak

section Frames

variable {fieldKinds kinds : List Kind} {scope middle after : Scope}

theorem Orderly.raise {peak : Nat} (orderly : Orderly fieldKinds kinds scope)
    (higher : scope.peak ≤ peak) : Orderly fieldKinds kinds (scope.raise peak) :=
  ⟨orderly.framed, orderly.next, Nat.le_trans orderly.room higher, orderly.locals, orderly.fields⟩

theorem Orderly.push (orderly : Orderly fieldKinds kinds scope) :
    Orderly fieldKinds kinds scope.push :=
  ⟨List.cons_ne_nil _ _, orderly.next, orderly.room, orderly.locals, orderly.fields⟩

theorem Orderly.lookup {name : String} {kind : Kind} (orderly : Orderly fieldKinds kinds scope)
    {place : Place} (found : scope.lookup? name = some ⟨place, kind⟩) :
    (∃ slot, place = .localSlot slot ∧ kinds[slot.toNat]? = some kind) ∨
      ∃ index, place = .field index ∧ fieldKinds[index.toNat]? = some kind := by
  rw [lookup?_eq] at found
  obtain ⟨before, behind, split, _⟩ := List.lookup_eq_some_iff.mp found
  have member : (name, (⟨place, kind⟩ : Variable)) ∈ scope.inView ++ scope.fields := by
    rw [split]
    exact List.mem_append_right _ List.mem_cons_self
  rcases List.mem_append.mp member with isLocal | isField
  · exact Or.inl (orderly.locals _ isLocal)
  · exact Or.inr (orderly.fields _ isField)

theorem declare?_eq {name : String} {kind : Kind} {slot : UInt16}
    (framed : scope.frames ≠ []) (declared : scope.declare? name kind = some (slot, after)) :
    slot.toNat = scope.nextSlot ∧ ∃ innermost outer, scope.frames = innermost :: outer ∧
      after =
        { scope with
          frames := { innermost with
            locals := (name, ⟨.localSlot slot, kind⟩) :: innermost.locals } :: outer
          nextSlot := scope.nextSlot + 1
          peak := max scope.peak (scope.nextSlot + 1) } := by
  unfold declare? at declared
  by_cases free : scope.nextSlot < slotCount
  · rw [if_pos free] at declared
    obtain ⟨rfl, rfl⟩ := Prod.mk.inj (Option.some.inj declared)
    refine ⟨UInt16.toNat_ofNat_of_lt' free, ?_⟩
    cases frames : scope.frames with
    | nil => exact absurd frames framed
    | cons innermost outer => exact ⟨innermost, outer, rfl, rfl⟩
  · rw [if_neg free] at declared
    simp at declared

theorem Orderly.declare {name : String} {kind : Kind} {slot : UInt16}
    (orderly : Orderly fieldKinds kinds scope)
    (declared : scope.declare? name kind = some (slot, after)) :
    Orderly fieldKinds (kinds ++ [kind]) after ∧ slot.toNat = kinds.length ∧
      Extends scope after ∧
      after.inView = (name, ⟨.localSlot slot, kind⟩) :: scope.inView := by
  obtain ⟨next, innermost, outer, frames, rfl⟩ := declare?_eq orderly.framed declared
  have place : slot.toNat = kinds.length := next.trans orderly.next
  have inView : ∀ (frames : List Frame) (nextSlot peak : Nat),
      ({ scope with frames, nextSlot, peak } : Scope).inView = frames.flatMap Frame.locals :=
    fun _ _ _ => rfl
  have more : ({ scope with
        frames := { innermost with
          locals := (name, ⟨.localSlot slot, kind⟩) :: innermost.locals } :: outer
        nextSlot := scope.nextSlot + 1
        peak := max scope.peak (scope.nextSlot + 1) } : Scope).inView =
      (name, ⟨.localSlot slot, kind⟩) :: scope.inView := by
    rw [inView, Scope.inView, frames]
    rfl
  refine ⟨⟨List.cons_ne_nil _ _, ?_, ?_, ?_, orderly.fields⟩, place,
    ⟨⟨innermost, outer, _, frames, rfl⟩, rfl, Nat.le_max_left _ _⟩, more⟩
  · rw [List.length_append, ← orderly.next]
    rfl
  · rw [List.length_append, ← orderly.next]
    exact Nat.le_max_right _ _
  · rw [more]
    intro entry member
    rcases List.mem_cons.mp member with rfl | earlier
    · exact ⟨slot, rfl, by simp [place]⟩
    · obtain ⟨other, isSlot, known⟩ := orderly.locals entry earlier
      have inside := (List.getElem?_eq_some_iff.mp known).1
      exact ⟨other, isSlot, by rw [List.getElem?_append_left inside, known]⟩

theorem Extends.refl (framed : scope.frames ≠ []) : Extends scope scope := by
  cases frames : scope.frames with
  | nil => exact absurd frames framed
  | cons innermost outer =>
      exact ⟨⟨innermost, outer, innermost.locals, frames, frames⟩, rfl, Nat.le_refl _⟩

theorem Extends.trans (first : Extends scope middle) (second : Extends middle after) :
    Extends scope after := by
  obtain ⟨⟨innermost, outer, locals, before, between⟩, fields, peak⟩ := first
  obtain ⟨⟨other, others, more, again, behind⟩, fieldsAfter, peakAfter⟩ := second
  rw [between] at again
  obtain ⟨rfl, rfl⟩ := List.cons.inj again
  exact ⟨⟨innermost, outer, more, before, behind⟩, fieldsAfter.trans fields,
    Nat.le_trans peak peakAfter⟩

theorem Extends.raise {peak : Nat} (framed : scope.frames ≠ []) (higher : scope.peak ≤ peak) :
    Extends scope (scope.raise peak) := by
  obtain ⟨frames, _, _⟩ := Extends.refl framed
  exact ⟨frames, rfl, higher⟩

/-- Closing a frame leaves the names as they were before it was opened. -/
theorem Extends.pop (framed : scope.frames ≠ []) (extended : Extends scope.push after) :
    after.pop = scope.raise after.peak := by
  obtain ⟨⟨innermost, outer, locals, before, behind⟩, fields, _⟩ := extended
  obtain ⟨rfl, rfl⟩ := List.cons.inj before
  cases frames : scope.frames with
  | nil => exact absurd frames framed
  | cons first rest =>
      rw [frames] at behind
      unfold Scope.pop
      rw [behind]
      simp only [Scope.raise, Scope.mk.injEq, frames, and_true]
      exact fields

end Frames

end Scope

namespace Resolution

open Scope (Orderly Extends)
open Occurrence (inTurn inSequence Settled Fine Occurs)

/-- A node whose resolution leaves the scope as it was and finds the kind of its expression. -/
def Regular (fieldKinds : List Kind) (node : Node) : Prop :=
  ∀ scope kinds expr kind after, Orderly fieldKinds kinds scope →
    resolve scope node = .ok (expr, kind, after) →
      kind = expr.kind fieldKinds kinds ∧ scope.peak ≤ after.peak ∧ after = scope.raise after.peak

theorem Regular.orderly {fieldKinds kinds : List Kind} {node : Node} {scope after : Scope}
    {expr : Expr} {kind : Kind} (regular : Regular fieldKinds node)
    (orderly : Orderly fieldKinds kinds scope) (resolved : resolve scope node = .ok (expr, kind, after)) :
    Orderly fieldKinds kinds after := by
  obtain ⟨_, higher, raised⟩ := regular _ _ _ _ _ orderly resolved
  rw [raised]
  exact orderly.raise higher

def Source (fieldKinds : List Kind) (peak : Nat) (node : Node) (occurrence : Occurrence) : Prop :=
  ∃ scope after, Orderly fieldKinds occurrence.kinds scope ∧
    resolve scope node = .ok (occurrence.expr, occurrence.kind fieldKinds, after) ∧
    scope.peak ≤ after.peak ∧ after.peak ≤ peak

section Lists

variable {fieldKinds kinds : List Kind} {scope after : Scope}

theorem operands_regular {wanted? : Option Kind} {nodes : List Node} {exprs : List Expr}
    (operands : Operands wanted? scope nodes exprs after)
    (each : ∀ node ∈ nodes, Regular fieldKinds node) (orderly : Orderly fieldKinds kinds scope) :
    scope.peak ≤ after.peak ∧ after = scope.raise after.peak ∧
      ∀ expr ∈ exprs, ∃ node ∈ nodes, ∀ base,
        Source fieldKinds after.peak node ⟨kinds, base, expr⟩ ∧
          ∀ wanted, wanted? = some wanted → (expr.kind fieldKinds kinds).admits wanted = true := by
  induction operands with
  | nil scope => exact ⟨Nat.le_refl _, rfl, by simp⟩
  | @cons scope middle after node rest expr exprs kind head fits tail inductionHypothesis =>
      obtain ⟨rfl, higher, raised⟩ := each node List.mem_cons_self _ _ _ _ _ orderly head
      have orderlyMiddle := (each _ List.mem_cons_self).orderly orderly head
      obtain ⟨higherLater, raisedLater, others⟩ := inductionHypothesis
        (fun other member => each other (List.mem_cons_of_mem _ member)) orderlyMiddle
      refine ⟨Nat.le_trans higher higherLater, ?_, ?_⟩
      · rw [raisedLater, raised]
        rfl
      · intro other member
        rcases List.mem_cons.mp member with rfl | later
        · exact ⟨node, List.mem_cons_self, fun base =>
            ⟨⟨scope, middle, orderly, head, higher, higherLater⟩, fits⟩⟩
        · obtain ⟨found, inRest, known⟩ := others other later
          exact ⟨found, List.mem_cons_of_mem _ inRest, known⟩

theorem Source.more {peak more : Nat} {node : Node} {occurrence : Occurrence}
    (source : Source fieldKinds peak node occurrence) (le : peak ≤ more) :
    Source fieldKinds more node occurrence := by
  obtain ⟨scope, after, orderly, resolved, higher, below⟩ := source
  exact ⟨scope, after, orderly, resolved, higher, Nat.le_trans below le⟩

theorem steps_regular {last? result? : Option Kind} {nodes : List NamedNode}
    {statements : List Statement} (steps : Steps scope last? nodes statements result? after)
    (each : ∀ entry ∈ nodes, Regular fieldKinds entry.2)
    (orderly : Orderly fieldKinds kinds scope) :
    Extends scope after ∧ result? = resultKind? fieldKinds kinds last? statements ∧
      Numbered after.peak kinds.length statements ∧
      ∀ base, ∀ child ∈ inSequence fieldKinds kinds base statements, ∃ entry ∈ nodes,
        Source fieldKinds after.peak entry.2 child := by
  induction steps generalizing kinds with
  | nil scope last? => exact ⟨Extends.refl orderly.framed, rfl, trivial, by simp [inSequence]⟩
  | @definition scope middle next after last? result? name node rest slot value kind statements
      head declared tail inductionHypothesis =>
      obtain ⟨rfl, higher, raised⟩ := each _ List.mem_cons_self _ _ _ _ _ orderly head
      have orderlyMiddle := (each _ List.mem_cons_self).orderly orderly head
      have extendsMiddle : Extends scope middle := by
        rw [raised]
        exact Extends.raise orderly.framed higher
      obtain ⟨orderlyNext, place, extendsNext, _⟩ := orderlyMiddle.declare declared
      obtain ⟨extendsAfter, result, numbered, children⟩ := inductionHypothesis
        (fun other member => each other (List.mem_cons_of_mem _ member)) orderlyNext
      have room := Nat.le_trans orderlyNext.room extendsAfter.peak
      rw [List.length_append, List.length_singleton] at room numbered
      refine ⟨extendsMiddle.trans (extendsNext.trans extendsAfter), result,
        ⟨place, room, numbered⟩, ?_⟩
      intro base child member
      rcases List.mem_cons.mp member with rfl | later
      · exact ⟨_, List.mem_cons_self, scope, middle, orderly, head, higher,
          Nat.le_trans extendsNext.peak extendsAfter.peak⟩
      · obtain ⟨entry, inRest, source⟩ := children _ child later
        exact ⟨entry, List.mem_cons_of_mem _ inRest, source⟩
  | @expression scope middle after last? result? node rest value kind statements head tail
      inductionHypothesis =>
      obtain ⟨rfl, higher, raised⟩ := each _ List.mem_cons_self _ _ _ _ _ orderly head
      have orderlyMiddle := (each _ List.mem_cons_self).orderly orderly head
      have extendsMiddle : Extends scope middle := by
        rw [raised]
        exact Extends.raise orderly.framed higher
      obtain ⟨extendsAfter, result, numbered, children⟩ := inductionHypothesis
        (fun other member => each other (List.mem_cons_of_mem _ member)) orderlyMiddle
      refine ⟨extendsMiddle.trans extendsAfter, result, numbered, ?_⟩
      intro base child member
      rcases List.mem_cons.mp member with rfl | later
      · exact ⟨_, List.mem_cons_self, scope, middle, orderly, head, higher, extendsAfter.peak⟩
      · obtain ⟨entry, inRest, source⟩ := children _ child later
        exact ⟨entry, List.mem_cons_of_mem _ inRest, source⟩

end Lists

/-! Every node is regular. -/

theorem resolveName_kind {fieldKinds kinds : List Kind} {scope : Scope} {name : String}
    {span : Span} {expr : Expr} {kind : Kind} (orderly : Orderly fieldKinds kinds scope)
    (found : resolveName scope name span = .ok (expr, kind)) :
    kind = expr.kind fieldKinds kinds := by
  cases denotes_of_ok found with
  | true | false | nil => rfl
  | localSlot _ looked =>
      rcases orderly.lookup looked with ⟨other, same, kindKnown⟩ | ⟨index, same, _⟩
      · obtain rfl := Place.localSlot.inj same
        simp [Expr.kind, kindKnown]
      · simp at same
  | field _ looked =>
      rcases orderly.lookup looked with ⟨slot, same, _⟩ | ⟨other, same, kindKnown⟩
      · simp at same
      · obtain rfl := Place.field.inj same
        simp [Expr.kind, kindKnown]

theorem form_kind {operator : Operator} {expr : Expr} {kind : Kind}
    (form : Form operator expr kind) (fieldKinds kinds : List Kind) :
    kind = expr.kind fieldKinds kinds := by
  cases form <;> rfl

theorem mem_bindingNodes {items : List Node} {entry : NamedNode}
    (member : entry ∈ bindingNodes items) : entry.2 ∈ items := by
  induction items using bindingNodes.induct with
  | case1 name nameSpan value rest inductionHypothesis =>
      rcases List.mem_cons.mp member with rfl | later
      · exact List.mem_cons_of_mem _ List.mem_cons_self
      · exact List.mem_cons_of_mem _ (List.mem_cons_of_mem _ (inductionHypothesis later))
  | case2 items irregular =>
      rw [bindingNodes.eq_2 items irregular] at member
      exact absurd member List.not_mem_nil

theorem mem_letNodes {bindingItems bodyItems : List Node} {entry : NamedNode}
    (member : entry ∈ bindingNodes bindingItems ++ bodyItems.map fun node => (none, node)) :
    entry.2 ∈ bindingItems ∨ entry.2 ∈ bodyItems := by
  rcases List.mem_append.mp member with bound | inBody
  · exact Or.inl (mem_bindingNodes bound)
  · obtain ⟨node, nodeMember, rfl⟩ := List.mem_map.mp inBody
    exact Or.inr nodeMember

theorem regular (fieldKinds : List Kind) (node : Node) : Regular fieldKinds node := by
  induction node using Node.sizeInduction with
  | step node smaller =>
      intro scope kinds expr kind after orderly succeeded
      cases resolved_of_ok succeeded with
      | number value span => exact ⟨rfl, Nat.le_refl _, rfl⟩
      | string value span => exact ⟨rfl, Nat.le_refl _, rfl⟩
      | symbol found => exact ⟨resolveName_kind orderly found, Nat.le_refl _, rfl⟩
      | nil span => exact ⟨rfl, Nat.le_refl _, rfl⟩
      | form form operands =>
          obtain ⟨higher, raised, _⟩ := operands_regular operands (fun argument member =>
            smaller argument (Node.size_of_item (List.mem_cons_of_mem _ member))) orderly
          exact ⟨form_kind form fieldKinds kinds, higher, raised⟩
      | conditional operator testResolved chosenResolved otherResolved =>
          have testRegular := smaller _ (Node.size_of_item (List.mem_cons_of_mem _
            List.mem_cons_self))
          have chosenRegular := smaller _ (Node.size_of_item (List.mem_cons_of_mem _
            (List.mem_cons_of_mem _ List.mem_cons_self)))
          have otherRegular := smaller _ (Node.size_of_item (List.mem_cons_of_mem _
            (List.mem_cons_of_mem _ (List.mem_cons_of_mem _ List.mem_cons_self))))
          have orderlyFirst := testRegular.orderly orderly testResolved
          have orderlySecond := chosenRegular.orderly orderlyFirst chosenResolved
          obtain ⟨_, first, testRaised⟩ := testRegular _ _ _ _ _ orderly testResolved
          obtain ⟨rfl, second, chosenRaised⟩ :=
            chosenRegular _ _ _ _ _ orderlyFirst chosenResolved
          obtain ⟨rfl, third, otherRaised⟩ := otherRegular _ _ _ _ _ orderlySecond otherResolved
          refine ⟨rfl, Nat.le_trans first (Nat.le_trans second third), ?_⟩
          rw [otherRaised, chosenRaised, testRaised]
          rfl
      | localBinding operator steps =>
          obtain ⟨extended, result, _, _⟩ := steps_regular steps (fun entry member => by
            rcases mem_letNodes member with bound | inBody
            · exact smaller _ (Nat.lt_trans (Node.size_of_vector_item bound)
                (Node.size_of_item (List.mem_cons_of_mem _ List.mem_cons_self)))
            · exact smaller _ (Node.size_of_item (List.mem_cons_of_mem _
                (List.mem_cons_of_mem _ inBody)))) orderly.push
          rw [kind_localBinding, ← result, extended.pop orderly.framed]
          exact ⟨rfl, extended.peak, rfl⟩

end Resolution

end Lisp
end FragmentLisp
