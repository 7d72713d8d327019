import FragmentLisp.Integer
import FragmentLisp.Node

/-!
Atoms: runs of characters that are neither blank nor a delimiter. What an atom means is decided by its
text alone. An optional sign and decimal digits are an integer, and everything else is a symbol. An
integer that 64 bits cannot hold is refused, but with a plus sign in front it is a symbol.
-/

namespace FragmentLisp
namespace Reader

/-- White space here is the ASCII space, tab, line feed, form feed and carriage return. -/
def isWhiteSpace (character : Char) : Bool :=
  character = ' ' || character = '\t' || character = '\n' || character = '\x0c' || character = '\r'

/-- Commas separate forms as white space does. -/
def isBlank (character : Char) : Bool :=
  isWhiteSpace character || character = ','

def isDelimiter (character : Char) : Bool :=
  isBlank character || character = '(' || character = ')' || character = '[' || character = ']' ||
    character = '"' || character = ';'

inductive Atom where
  | number (value : Int64)
  | symbol (name : String)
  | outOfRange (literal : String)

def digitsValue (digits : List Char) : Nat :=
  digits.foldl (fun value digit => 10 * value + (digit.toNat - '0'.toNat)) 0

def natural? (digits : List Char) : Option Nat :=
  if digits.isEmpty || !digits.all Char.isDigit then none else some (digitsValue digits)

/-- The integer that an optional sign and digits spell, of any size. -/
def integer? : List Char → Option Int
  | '-' :: digits => (natural? digits).map fun value => -(value : Int)
  | '+' :: digits => (natural? digits).map fun value => (value : Int)
  | digits => (natural? digits).map fun value => (value : Int)

def Atom.ofText (text : List Char) : Atom :=
  match integer? text with
  | none => .symbol (String.ofList text)
  | some value =>
      match int64? value with
      | some fitting => .number fitting
      | none =>
          if text.head? = some '+' then .symbol (String.ofList text)
          else .outOfRange (String.ofList text)

end Reader
end FragmentLisp
