import FragmentLisp.FrontEnd
import FragmentLisp.Node

/-!
Fragments of the language: sequences of forms. A single `do` form at the top stands for the forms in it.
-/

namespace FragmentLisp
namespace Lisp

abbrev Fragment := List Node

namespace Fragment

/-- The statements that make up the body: the forms in a `do` that stands alone, and otherwise the
forms themselves. -/
def statements (fragment : Fragment) : List Node :=
  match fragment with
  | [.list (.symbol "do" _ :: items) _] => items
  | nodes => nodes

def isDeclaration (node : Node) : Bool :=
  match node.operatorName? with
  | some "defn" => true
  | some "defmacro" => true
  | some "ns" => true
  | _ => false

def shape (fragment : Fragment) : Shape :=
  if fragment.isEmpty then .empty
  else if fragment.statements.any isDeclaration then .declaration
  else
    match fragment with
    | [single] =>
        match single.operatorName? with
        | some "do" => .block fragment.statements.length
        | some "def" => .statement
        | _ => .expression
    | nodes => .block nodes.length

def origin (fragment : Fragment) : Nat :=
  match fragment with
  | [] => 0
  | first :: _ => first.span.start

def depth (fragment : Fragment) : Nat :=
  fragment.foldl (fun deepest node => max deepest node.depth) 0

def overview (fragment : Fragment) : Overview :=
  { shape := fragment.shape, origin := fragment.origin, depth := fragment.depth }

end Fragment
end Lisp
end FragmentLisp
