import FragmentLisp.Node
import Mathlib.Algebra.GroupWithZero.Nat

/-!
Nodes as trees: what stands in a node, how deep a node is, and nodes that differ in their spans only.
-/

namespace FragmentLisp
namespace Node

theorem size_le_sizeAll {item : Node} {items : List Node} (member : item ∈ items) :
    item.size ≤ sizeAll items := by
  induction items with
  | nil => simp at member
  | cons first rest inductionHypothesis =>
      rw [sizeAll]
      rcases List.mem_cons.mp member with rfl | later
      · exact Nat.le_add_right _ _
      · exact Nat.le_trans (inductionHypothesis later) (Nat.le_add_left _ _)

theorem size_of_item {item : Node} {items : List Node} {span : Span} (member : item ∈ items) :
    item.size < (list items span).size := by
  have below := size_le_sizeAll member
  rw [size]
  omega

theorem size_of_vector_item {item : Node} {items : List Node} {span : Span}
    (member : item ∈ items) : item.size < (vector items span).size := by
  have below := size_le_sizeAll member
  rw [size]
  omega

/-- What holds of a node whenever it holds of all smaller ones holds of all nodes. -/
theorem sizeInduction {motive : Node → Prop}
    (step : ∀ node, (∀ smaller, smaller.size < node.size → motive smaller) → motive node)
    (node : Node) : motive node :=
  step node fun smaller _ => sizeInduction step smaller
termination_by node.size

inductive Contains (root : Node) : Node → Prop
  | self : Contains root root
  | list {items : List Node} {span : Span} {item : Node} (within : Contains root (.list items span))
      (member : item ∈ items) : Contains root item
  | vector {items : List Node} {span : Span} {item : Node}
      (within : Contains root (.vector items span)) (member : item ∈ items) : Contains root item

theorem Contains.trans {outer middle inner : Node} (first : outer.Contains middle)
    (second : middle.Contains inner) : outer.Contains inner := by
  induction second with
  | self => exact first
  | list within member inductionHypothesis => exact .list inductionHypothesis member
  | vector within member inductionHypothesis => exact .vector inductionHypothesis member

def items : Node → List Node
  | list items _ => items
  | vector items _ => items
  | _ => []

theorem contains_iff {root node : Node} :
    root.Contains node ↔ node = root ∨ ∃ item ∈ root.items, item.Contains node := by
  constructor
  · intro within
    induction within with
    | self => exact .inl rfl
    | list within member inductionHypothesis =>
        rcases inductionHypothesis with rfl | ⟨item, outer, inner⟩
        · exact .inr ⟨_, member, .self⟩
        · exact .inr ⟨item, outer, .list inner member⟩
    | vector within member inductionHypothesis =>
        rcases inductionHypothesis with rfl | ⟨item, outer, inner⟩
        · exact .inr ⟨_, member, .self⟩
        · exact .inr ⟨item, outer, .vector inner member⟩
  · rintro (rfl | ⟨item, member, inner⟩)
    · exact .self
    · cases root with
      | list items span => exact (Contains.list .self member).trans inner
      | vector items span => exact (Contains.vector .self member).trans inner
      | number value span => cases member
      | string value span => cases member
      | symbol name span => cases member

theorem form_of_operatorName? {node : Node} {name : String}
    (operator : node.operatorName? = some name) :
    ∃ nameSpan arguments span, node = list (symbol name nameSpan :: arguments) span := by
  unfold operatorName? at operator
  split at operator
  · rename_i head arguments span
    cases head with
    | symbol other nameSpan =>
        obtain rfl : other = name := by simpa [symbolName?] using operator
        exact ⟨nameSpan, arguments, span, rfl⟩
    | _ => simp [symbolName?] at operator
  · simp at operator

/-! How deep lists and vectors nest, by the structure of a node. -/

mutual
/-- How many lists and vectors stand around the deepest leaf of a node. -/
def nesting : Node → Nat
  | list items _ => nestingAll items + 1
  | vector items _ => nestingAll items + 1
  | number _ _ => 0
  | string _ _ => 0
  | symbol _ _ => 0

def nestingAll : List Node → Nat
  | [] => 0
  | node :: rest => max node.nesting (nestingAll rest)
end

theorem nestingAll_le_iff {items : List Node} {bound : Nat} :
    nestingAll items ≤ bound ↔ ∀ item ∈ items, item.nesting ≤ bound := by
  induction items with
  | nil => simp [nestingAll]
  | cons item rest inductionHypothesis =>
      rw [nestingAll, Nat.max_le, inductionHypothesis, List.forall_mem_cons]

theorem nesting_le_nestingAll {item : Node} {items : List Node} (member : item ∈ items) :
    item.nesting ≤ nestingAll items :=
  nestingAll_le_iff.mp (Nat.le_refl _) item member

def ReachesAtMost (bound : Nat) (entry : Node × Nat) : Prop :=
  0 < entry.1.nesting → entry.2 + entry.1.nesting ≤ bound + 1

theorem reachesAtMost_atLevel {bound level : Nat} {items : List Node} (below : level ≤ bound) :
    (∀ entry ∈ atLevel (level + 1) items, ReachesAtMost bound entry) ↔
      level + nestingAll items ≤ bound := by
  have each : ∀ item : Node, ReachesAtMost bound (item, level + 1) ↔
      item.nesting ≤ bound - level := by
    intro item
    simp only [ReachesAtMost]
    omega
  have all := @nestingAll_le_iff items (bound - level)
  simp only [atLevel, List.forall_mem_map, each]
  rw [← all]
  omega

/-- A container of the work list may be replaced by its items one level further in, once its own level
is counted. -/
theorem deepest_open (entry : Node × Nat) {items : List Node}
    (shape : entry.1.nesting = nestingAll items + 1) (pending : List (Node × Nat))
    (best bound : Nat) :
    (max best entry.2 ≤ bound ∧
        ∀ other ∈ atLevel (entry.2 + 1) items ++ pending, ReachesAtMost bound other) ↔
      best ≤ bound ∧ ∀ other ∈ entry :: pending, ReachesAtMost bound other := by
  have reach : ReachesAtMost bound entry ↔ entry.2 + nestingAll items ≤ bound := by
    rw [ReachesAtMost, shape]
    omega
  rw [Nat.max_le, List.forall_mem_append, List.forall_mem_cons, reach]
  constructor
  · rintro ⟨⟨bestBelow, level⟩, inside, outside⟩
    exact ⟨bestBelow, (reachesAtMost_atLevel level).mp inside, outside⟩
  · rintro ⟨bestBelow, deep, outside⟩
    have level : entry.2 ≤ bound := Nat.le_trans (Nat.le_add_right _ _) deep
    exact ⟨⟨bestBelow, level⟩, (reachesAtMost_atLevel level).mpr deep, outside⟩

theorem deepest_le_iff (pending : List (Node × Nat)) (best bound : Nat) :
    deepest pending best ≤ bound ↔
      best ≤ bound ∧ ∀ entry ∈ pending, ReachesAtMost bound entry := by
  induction pending, best using deepest.induct with
  | case1 best => simp [deepest]
  | case2 items span level pending best inductionHypothesis =>
      rw [deepest, inductionHypothesis]
      exact deepest_open (list items span, level) (by rw [nesting]) pending best bound
  | case3 items span level pending best inductionHypothesis =>
      rw [deepest, inductionHypothesis]
      exact deepest_open (vector items span, level) (by rw [nesting]) pending best bound
  | case4 value span level pending best inductionHypothesis =>
      rw [deepest, inductionHypothesis, List.forall_mem_cons]
      simp [ReachesAtMost, nesting]
  | case5 value span level pending best inductionHypothesis =>
      rw [deepest, inductionHypothesis, List.forall_mem_cons]
      simp [ReachesAtMost, nesting]
  | case6 name span level pending best inductionHypothesis =>
      rw [deepest, inductionHypothesis, List.forall_mem_cons]
      simp [ReachesAtMost, nesting]

/-- The walk along a work list measures what the recursion over the tree does. -/
theorem depth_eq_nesting (node : Node) : node.depth = node.nesting := by
  refine Nat.le_antisymm ?_ ?_
  · refine (deepest_le_iff [(node, 1)] 0 node.nesting).mpr ⟨Nat.zero_le _, ?_⟩
    simp only [List.forall_mem_singleton, ReachesAtMost]
    omega
  · have reaches := ((deepest_le_iff [(node, 1)] 0 node.depth).mp (Nat.le_refl _)).2
    simp only [List.forall_mem_singleton, ReachesAtMost] at reaches
    omega

/-! Nodes that differ in their spans only. -/

mutual
def respan (place : Span → Span) : Node → Node
  | list items span => list (respanAll place items) (place span)
  | vector items span => vector (respanAll place items) (place span)
  | number value span => number value (place span)
  | string value span => string value (place span)
  | symbol name span => symbol name (place span)

def respanAll (place : Span → Span) : List Node → List Node
  | [] => []
  | node :: rest => node.respan place :: respanAll place rest
end

/-- A node as if it were read somewhere else: all of its spans begin `distance` bytes later. -/
def shift (distance : Nat) : Node → Node :=
  respan fun span => ⟨span.start + distance, span.length⟩

def bare : Node → Node :=
  respan fun _ => ⟨0, 0⟩

theorem respanAll_eq_map (place : Span → Span) (nodes : List Node) :
    respanAll place nodes = nodes.map (respan place) := by
  induction nodes with
  | nil => rfl
  | cons node rest inductionHypothesis => rw [respanAll, inductionHypothesis, List.map_cons]

mutual
@[simp] theorem nesting_respan (place : Span → Span) (node : Node) :
    (node.respan place).nesting = node.nesting := by
  cases node with
  | list items span => rw [respan, nesting, nesting, nestingAll_respanAll]
  | vector items span => rw [respan, nesting, nesting, nestingAll_respanAll]
  | number value span => simp [respan, nesting]
  | string value span => simp [respan, nesting]
  | symbol name span => simp [respan, nesting]

theorem nestingAll_respanAll (place : Span → Span) (nodes : List Node) :
    nestingAll (respanAll place nodes) = nestingAll nodes := by
  cases nodes with
  | nil => rfl
  | cons node rest =>
      rw [respanAll, nestingAll, nestingAll, nesting_respan, nestingAll_respanAll]
end

@[simp] theorem nesting_shift (distance : Nat) (node : Node) :
    (node.shift distance).nesting = node.nesting :=
  nesting_respan _ node

/-- Nodes that differ in their spans only are equally deep. -/
theorem depth_of_bare {left right : Node} (same : left.bare = right.bare) :
    left.depth = right.depth := by
  rw [depth_eq_nesting, depth_eq_nesting, ← nesting_respan (fun _ => ⟨0, 0⟩) left,
    ← nesting_respan (fun _ => ⟨0, 0⟩) right]
  exact congrArg nesting same

theorem nesting_of_contains {root node : Node} (within : root.Contains node) :
    node.nesting ≤ root.nesting := by
  induction within with
  | self => exact Nat.le_refl _
  | list within member inductionHypothesis =>
      rw [nesting] at inductionHypothesis
      have below := nesting_le_nestingAll member
      omega
  | vector within member inductionHypothesis =>
      rw [nesting] at inductionHypothesis
      have below := nesting_le_nestingAll member
      omega

end Node
end FragmentLisp
