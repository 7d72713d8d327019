/-!
The range of machine integers.
-/

namespace FragmentLisp

def int64? (value : Int) : Option Int64 :=
  if Int64.minValue.toInt ≤ value ∧ value ≤ Int64.maxValue.toInt then some (Int64.ofInt value)
  else none

end FragmentLisp
