import FragmentLisp.FrontEnd

/-!
The names that are visible at a point of a fragment. Locals stand in frames, and each has a slot of its
own for as long as its frame is open; closing a frame gives the slots back. A local hides any earlier
one of its name, and locals hide the fields that hold host bindings.
-/

namespace FragmentLisp
namespace Lisp

inductive Place where
  | localSlot (slot : UInt16)
  | field (index : UInt16)
deriving DecidableEq

structure Variable where
  place : Place
  kind : Kind
deriving DecidableEq

structure Frame where
  /-- The locals of the frame, the latest one first. -/
  locals : List (String × Variable)
  /-- The first slot that a local of the frame may take. -/
  base : Nat

structure Scope where
  /-- The fields, the last one first. -/
  fields : List (String × Variable)
  /-- The open frames, the innermost one first. -/
  frames : List Frame
  nextSlot : Nat
  /-- The largest number of slots that were in use at once. -/
  peak : Nat

namespace Scope

/-- Slots and field numbers are 16-bit words. -/
def slotCount : Nat := 65536

def fieldVariables (fields : List Field) : List (String × Variable) :=
  (fields.zipIdx.map fun (field, index) =>
    (field.name, ⟨.field (UInt16.ofNat index), Kind.ofValue field.value⟩)).reverse

/-- The scope of a whole body, if every field can be numbered. -/
def ofFields? (fields : List Field) : Option Scope :=
  if fields.length ≤ slotCount then
    some
      { fields := fieldVariables fields
        frames := [{ locals := [], base := 0 }]
        nextSlot := 0
        peak := 0 }
  else
    none

def push (scope : Scope) : Scope :=
  { scope with frames := { locals := [], base := scope.nextSlot } :: scope.frames }

/-- Close the innermost frame; the frame of the whole body stays open. -/
def pop (scope : Scope) : Scope :=
  match scope.frames with
  | innermost :: outer :: rest =>
      { scope with frames := outer :: rest, nextSlot := innermost.base }
  | _ => scope

/-- Add a local to the innermost frame and give its slot, if there is one left. -/
def declare? (scope : Scope) (name : String) (kind : Kind) : Option (UInt16 × Scope) :=
  if scope.nextSlot < slotCount then
    let slot := UInt16.ofNat scope.nextSlot
    let frames :=
      match scope.frames with
      | [] => []
      | innermost :: outer =>
          { innermost with
            locals := (name, ⟨.localSlot slot, kind⟩) :: innermost.locals } :: outer
    some
      (slot,
        { scope with
          frames
          nextSlot := scope.nextSlot + 1
          peak := max scope.peak (scope.nextSlot + 1) })
  else
    none

/-- What a name stands for: the innermost local, and otherwise the last field. -/
def lookup? (scope : Scope) (name : String) : Option Variable :=
  (scope.frames.findSome? fun frame => frame.locals.lookup name).or (scope.fields.lookup name)

end Scope
end Lisp
end FragmentLisp
