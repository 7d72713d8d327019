import FragmentLisp.Proofs.Node
import Mathlib.Data.Nat.Pairing

/-!
Nodes with other spans. Two nodes that differ in their spans only are one node whose spans are replaced
in two ways, and a path leads to the same place of both.
-/

namespace FragmentLisp
namespace Node

variable {place : Span → Span}

@[simp] theorem span_respan (node : Node) : (node.respan place).span = place node.span := by
  cases node <;> simp [respan, span]

@[simp] theorem items_respan (node : Node) :
    (node.respan place).items = node.items.map (respan place) := by
  cases node <;> simp [respan, items, respanAll_eq_map]

@[simp] theorem operatorName?_respan (node : Node) :
    (node.respan place).operatorName? = node.operatorName? := by
  cases node with
  | list items span =>
      cases items with
      | nil => rfl
      | cons head rest => cases head <;> simp [respan, respanAll, operatorName?, symbolName?]
  | _ => simp [respan, operatorName?]

theorem respan_list (items : List Node) (span : Span) :
    (list items span).respan place = list (items.map (respan place)) (place span) := by
  rw [respan, respanAll_eq_map]

theorem respan_vector (items : List Node) (span : Span) :
    (vector items span).respan place = vector (items.map (respan place)) (place span) := by
  rw [respan, respanAll_eq_map]

theorem size_lt_of_items {item node : Node} (member : item ∈ node.items) : item.size < node.size := by
  cases node with
  | list items span => exact size_of_item member
  | vector items span => exact size_of_vector_item member
  | _ => cases member

theorem bare_respan (node : Node) : (node.respan place).bare = node.bare := by
  induction node using sizeInduction with
  | step node smaller =>
      cases node with
      | list items span =>
          have each : ∀ item ∈ items, (item.respan place).bare = item.bare :=
            fun item member => smaller item (size_of_item member)
          rw [respan_list, bare, respan_list, respan_list, List.map_map]
          exact congrArg (list · ⟨0, 0⟩) (List.map_congr_left each)
      | vector items span =>
          have each : ∀ item ∈ items, (item.respan place).bare = item.bare :=
            fun item member => smaller item (size_of_vector_item member)
          rw [respan_vector, bare, respan_vector, respan_vector, List.map_map]
          exact congrArg (vector · ⟨0, 0⟩) (List.map_congr_left each)
      | _ => simp [bare, respan]

theorem respan_eq_self {node : Node}
    (stays : ∀ inner, node.Contains inner → place inner.span = inner.span) :
    node.respan place = node := by
  induction node using sizeInduction with
  | step node smaller =>
      have own := stays node .self
      have each : ∀ item ∈ node.items, item.respan place = item := by
        intro item member
        exact smaller item (size_lt_of_items member) fun inner within =>
          stays inner (contains_iff.mpr (.inr ⟨item, member, within⟩))
      have items := (List.map_congr_left each).trans (List.map_id' _)
      cases node with
      | list _ span =>
          rw [respan_list]
          exact congrArg₂ list items own
      | vector _ span =>
          rw [respan_vector]
          exact congrArg₂ vector items own
      | number value span => exact congrArg (number value) own
      | string value span => exact congrArg (string value) own
      | symbol name span => exact congrArg (symbol name) own

/-! Paths. -/

/-- The node at the end of a path, which tells at each node which of its items comes next. -/
def at? : List Nat → Node → Option Node
  | [], node => some node
  | index :: path, node => node.items[index]?.bind (at? path)

theorem at?_respan (path : List Nat) (node : Node) :
    at? path (node.respan place) = (at? path node).map (respan place) := by
  induction path generalizing node with
  | nil => rfl
  | cons index path inductionHypothesis =>
      rw [at?, at?, items_respan, List.getElem?_map]
      cases node.items[index]? with
      | none => rfl
      | some item => exact inductionHypothesis item

theorem exists_path_of_contains {root node : Node} (within : root.Contains node) :
    ∃ path, at? path root = some node := by
  induction root using sizeInduction with
  | step root smaller =>
      rcases contains_iff.mp within with rfl | ⟨item, member, inner⟩
      · exact ⟨[], rfl⟩
      · obtain ⟨path, reached⟩ := smaller item (size_lt_of_items member) inner
        obtain ⟨index, found⟩ := List.mem_iff_getElem?.mp member
        exact ⟨index :: path, by rw [at?, found]; exact reached⟩

theorem contains_of_at? {path : List Nat} {root node : Node} (found : at? path root = some node) :
    root.Contains node := by
  induction path generalizing root with
  | nil =>
      obtain rfl := Option.some.inj found
      exact .self
  | cons index path inductionHypothesis =>
      obtain ⟨item, first, later⟩ := Option.bind_eq_some_iff.mp found
      exact contains_iff.mpr (.inr ⟨item, List.mem_of_getElem? first, inductionHypothesis later⟩)

/-! Two nodes as one. -/

def joinSpans (left right : Span) : Span :=
  ⟨Nat.pair left.start right.start, Nat.pair left.length right.length⟩

def leftSpan (span : Span) : Span :=
  ⟨(Nat.unpair span.start).1, (Nat.unpair span.length).1⟩

def rightSpan (span : Span) : Span :=
  ⟨(Nat.unpair span.start).2, (Nat.unpair span.length).2⟩

@[simp] theorem leftSpan_joinSpans (left right : Span) : leftSpan (joinSpans left right) = left := by
  simp [leftSpan, joinSpans]

@[simp] theorem rightSpan_joinSpans (left right : Span) : rightSpan (joinSpans left right) = right := by
  simp [rightSpan, joinSpans]

def Joins (left right node : Node) : Prop :=
  node.respan leftSpan = left ∧ node.respan rightSpan = right

theorem joins_of_items {left right : List Node} (same : left.map bare = right.map bare)
    (each : ∀ item ∈ left, ∀ other, item.bare = other.bare → ∃ node, Joins item other node) :
    ∃ nodes : List Node, nodes.map (respan leftSpan) = left ∧ nodes.map (respan rightSpan) = right := by
  induction left generalizing right with
  | nil =>
      obtain rfl := List.map_eq_nil_iff.mp same.symm
      exact ⟨[], rfl, rfl⟩
  | cons item rest inductionHypothesis =>
      cases right with
      | nil => simp at same
      | cons other others =>
          obtain ⟨first, later⟩ := List.cons.inj same
          obtain ⟨node, toItem, toOther⟩ := each item List.mem_cons_self other first
          obtain ⟨nodes, toRest, toOthers⟩ := inductionHypothesis later fun next member =>
            each next (List.mem_cons_of_mem _ member)
          refine ⟨node :: nodes, ?_, ?_⟩
          · rw [List.map_cons, toItem, toRest]
          · rw [List.map_cons, toOther, toOthers]

theorem exists_joins {left right : Node} (same : left.bare = right.bare) :
    ∃ node, Joins left right node := by
  induction left using sizeInduction generalizing right with
  | step left smaller =>
      cases left with
      | list items span =>
          cases right with
          | list others otherSpan =>
              rw [bare, respan_list, respan_list] at same
              obtain ⟨nodes, toLeft, toRight⟩ := joins_of_items (Node.list.inj same).1
                fun item member other => @smaller item (size_of_item member) other
              refine ⟨list nodes (joinSpans span otherSpan), ?_, ?_⟩
              · rw [respan_list, toLeft, leftSpan_joinSpans]
              · rw [respan_list, toRight, rightSpan_joinSpans]
          | _ => simp [bare, respan] at same
      | vector items span =>
          cases right with
          | vector others otherSpan =>
              rw [bare, respan_vector, respan_vector] at same
              obtain ⟨nodes, toLeft, toRight⟩ := joins_of_items (Node.vector.inj same).1
                fun item member other => @smaller item (size_of_vector_item member) other
              refine ⟨vector nodes (joinSpans span otherSpan), ?_, ?_⟩
              · rw [respan_vector, toLeft, leftSpan_joinSpans]
              · rw [respan_vector, toRight, rightSpan_joinSpans]
          | _ => simp [bare, respan] at same
      | number value span =>
          cases right with
          | number other otherSpan =>
              obtain rfl : value = other := by simpa [bare, respan] using same
              exact ⟨number value (joinSpans span otherSpan), by simp [Joins, respan]⟩
          | _ => simp [bare, respan] at same
      | string value span =>
          cases right with
          | string other otherSpan =>
              obtain rfl : value = other := by simpa [bare, respan] using same
              exact ⟨string value (joinSpans span otherSpan), by simp [Joins, respan]⟩
          | _ => simp [bare, respan] at same
      | symbol name span =>
          cases right with
          | symbol other otherSpan =>
              obtain rfl : name = other := by simpa [bare, respan] using same
              exact ⟨symbol name (joinSpans span otherSpan), by simp [Joins, respan]⟩
          | _ => simp [bare, respan] at same

/-- Nodes that differ in their spans only are nodes whose spans are replaced in two ways. -/
theorem exists_common {left right : List Node} (same : left.map bare = right.map bare) :
    ∃ nodes : List Node, nodes.map (respan leftSpan) = left ∧ nodes.map (respan rightSpan) = right :=
  joins_of_items same fun _ _ _ => exists_joins

end Node
end FragmentLisp
