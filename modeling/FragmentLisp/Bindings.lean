import FragmentLisp.Value

/-!
Names that the host gives to a fragment, in the order in which they were first given. A name given again
takes the new value and keeps its place.
-/

namespace FragmentLisp

structure Bindings where
  entries : List (String × Value)
deriving DecidableEq, Inhabited

namespace Bindings

def empty : Bindings :=
  { entries := [] }

def size (bindings : Bindings) : Nat :=
  bindings.entries.length

def isEmpty (bindings : Bindings) : Bool :=
  bindings.entries.isEmpty

/-- Give a name its value among entries, or a place behind them. -/
def insertEntry (name : String) (value : Value) : List (String × Value) → List (String × Value)
  | [] => [(name, value)]
  | (earlier, old) :: rest =>
      if earlier = name then (earlier, value) :: rest
      else (earlier, old) :: insertEntry name value rest

def insert (bindings : Bindings) (name : String) (value : Value) : Bindings :=
  { entries := insertEntry name value bindings.entries }

def get? (bindings : Bindings) (name : String) : Option Value :=
  bindings.entries.lookup name

end Bindings
end FragmentLisp
