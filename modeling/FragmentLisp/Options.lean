import FragmentLisp.Reader

/-!
What the host of an evaluation may choose.
-/

namespace FragmentLisp

structure Options where
  /-- What the names of generated types begin with. -/
  typeNamePrefix : String := "Fragment"
  entryMethod : String := "run"
  /-- Whether a fragment may have several statements. -/
  allowBlocks : Bool := false
  /-- How high the operand stack of a method may grow. -/
  stackLimit : Nat := 1024
  /-- How many lists and vectors of a fragment may nest. -/
  nestingLimit : Nat := Reader.defaultLimit
deriving DecidableEq, Inhabited

end FragmentLisp
