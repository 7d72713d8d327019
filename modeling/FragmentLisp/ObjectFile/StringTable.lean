/-!
String tables of object files. Each name ends in a zero byte and is found by its offset; offset 0 is the
empty name. The names stand in descending order of their reversed bytes. So a name that ends like
another one follows a name that it is the tail of, and shares its bytes.
-/

namespace FragmentLisp

structure StringTable where
  bytes : List UInt8
  offsets : List (List UInt8 × Nat)

namespace StringTable

def arrange (names : List (List UInt8)) : List (List UInt8) :=
  (names.filter fun name => !name.isEmpty).mergeSort fun left right =>
    decide (right.reverse ≤ left.reverse)

/-- Place names behind the bytes written so far, which stand last first. The last name written ends
just before the final zero byte. -/
def place (written : List UInt8) (size : Nat) (last : List UInt8)
    (offsets : List (List UInt8 × Nat)) : List (List UInt8) → StringTable
  | [] => { bytes := written.reverse, offsets := offsets.reverse }
  | name :: names =>
      if name.isSuffixOf last then
        place written size last ((name, size - 1 - name.length) :: offsets) names
      else
        place (0 :: name.reverseAux written) (size + name.length + 1) name
          ((name, size) :: offsets) names

def ofNames (names : List (List UInt8)) : StringTable :=
  place [0] 1 [] [] (arrange names)

def offset (table : StringTable) (name : List UInt8) : Nat :=
  (table.offsets.lookup name).getD 0

/-- The name at an offset of the bytes of a table; none when no zero byte ends it. -/
def nameAt? (bytes : List UInt8) (offset : Nat) : Option (List UInt8) :=
  let (name, rest) := (bytes.drop offset).span fun byte => byte != 0
  if rest.isEmpty then none else some name

end StringTable
end FragmentLisp
