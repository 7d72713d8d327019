/-!
Forms of the language as data. A node remembers the bytes of the source that it was read from; nodes
that no source was read for carry the empty span at the start.
-/

namespace FragmentLisp

/-- A range of bytes in a source text. -/
structure Span where
  start : Nat
  length : Nat
deriving DecidableEq, Inhabited

inductive Node where
  | list (items : List Node) (span : Span)
  | vector (items : List Node) (span : Span)
  | number (value : Int64) (span : Span)
  | string (value : String) (span : Span)
  | symbol (name : String) (span : Span)
deriving Inhabited

namespace Node

def span : Node → Span
  | list _ span => span
  | vector _ span => span
  | number _ span => span
  | string _ span => span
  | symbol _ span => span

def symbolName? : Node → Option String
  | symbol name _ => some name
  | _ => none

def operatorName? : Node → Option String
  | list (head :: _) _ => head.symbolName?
  | _ => none

mutual
def size : Node → Nat
  | list items _ => 1 + sizeAll items
  | vector items _ => 1 + sizeAll items
  | _ => 1

def sizeAll : List Node → Nat
  | [] => 0
  | node :: rest => node.size + sizeAll rest
end

def pendingSize : List (Node × Nat) → Nat
  | [] => 0
  | (node, _) :: pending => node.size + pendingSize pending

theorem pendingSize_append (left right : List (Node × Nat)) :
    pendingSize (left ++ right) = pendingSize left + pendingSize right := by
  induction left with
  | nil => simp [pendingSize]
  | cons entry rest inductionHypothesis =>
      simp [pendingSize, inductionHypothesis, Nat.add_assoc]

def atLevel (level : Nat) (items : List Node) : List (Node × Nat) :=
  items.map fun item => (item, level)

theorem pendingSize_atLevel (level : Nat) (items : List Node) :
    pendingSize (atLevel level items) = sizeAll items := by
  induction items with
  | nil => rfl
  | cons item rest inductionHypothesis =>
      rw [atLevel, List.map_cons, pendingSize, sizeAll, ← inductionHypothesis]
      rfl

/-- The deepest level at which a list or vector stands in a work list of nodes with their levels. An
explicit work list lets trees of any depth be measured. -/
def deepest : List (Node × Nat) → Nat → Nat
  | [], best => best
  | (list items _, level) :: pending, best =>
      deepest (atLevel (level + 1) items ++ pending) (max best level)
  | (vector items _, level) :: pending, best =>
      deepest (atLevel (level + 1) items ++ pending) (max best level)
  | (number _ _, _) :: pending, best => deepest pending best
  | (string _ _, _) :: pending, best => deepest pending best
  | (symbol _ _, _) :: pending, best => deepest pending best
termination_by pending => pendingSize pending
decreasing_by
  all_goals simp only [pendingSize, size, pendingSize_append, pendingSize_atLevel]
  all_goals omega

/-- How many lists and vectors nest, down to the deepest leaf; an atom nests none. -/
def depth (node : Node) : Nat :=
  deepest [(node, 1)] 0

end Node
end FragmentLisp
