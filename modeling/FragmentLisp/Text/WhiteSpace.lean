/-!
The Unicode property White_Space, and text without it at its ends.
-/

namespace FragmentLisp
namespace WhiteSpace

/-- The ranges of the property, with their first and last code points. -/
def ranges : List (Nat × Nat) :=
  [(0x0009, 0x000d), (0x0020, 0x0020), (0x0085, 0x0085), (0x00a0, 0x00a0), (0x1680, 0x1680),
    (0x2000, 0x200a), (0x2028, 0x2029), (0x202f, 0x202f), (0x205f, 0x205f), (0x3000, 0x3000)]

def contains (character : Char) : Bool :=
  ranges.any fun (first, last) => first ≤ character.toNat && character.toNat ≤ last

def trim (text : String) : String :=
  String.ofList
    (((text.toList.dropWhile contains).reverse.dropWhile contains).reverse)

end WhiteSpace
end FragmentLisp
