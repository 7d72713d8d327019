import FragmentLisp.Proofs.Node
import FragmentLisp.Reader
import Mathlib.Data.String.Basic

/-!
The notation of forms, as a grammar that says nothing about how a reader goes through it. A text spells
nodes from an offset on when the nodes stand in it one after another, each with the range of bytes that
it covers, and with nothing between them but blanks and comments.
-/

open String (utf8Len)

namespace FragmentLisp

namespace Bracket

def opening : Bracket → Char
  | round => '('
  | square => '['

def closing : Bracket → Char
  | round => ')'
  | square => ']'

def node : Bracket → List Node → Span → Node
  | round => .list
  | square => .vector

@[simp] theorem utf8Size_opening (bracket : Bracket) : bracket.opening.utf8Size = 1 := by
  cases bracket <;> rfl

@[simp] theorem utf8Size_closing (bracket : Bracket) : bracket.closing.utf8Size = 1 := by
  cases bracket <;> rfl

@[simp] theorem nesting_node (bracket : Bracket) (items : List Node) (span : Span) :
    (bracket.node items span).nesting = Node.nestingAll items + 1 := by
  cases bracket <;> simp [node, Node.nesting]

@[simp] theorem span_node (bracket : Bracket) (items : List Node) (span : Span) :
    (bracket.node items span).span = span := by
  cases bracket <;> rfl

@[simp] theorem respan_node (place : Span → Span) (bracket : Bracket) (items : List Node)
    (span : Span) :
    (bracket.node items span).respan place =
      bracket.node (items.map (Node.respan place)) (place span) := by
  cases bracket <;> simp [node, Node.respan, Node.respanAll_eq_map]

end Bracket

namespace Reader

def blanks : List Char := [' ', '\t', '\n', '\x0c', '\r', ',']

def delimiters : List Char := blanks ++ ['(', ')', '[', ']', '"', ';']

theorem delimiter_of_blank {character : Char} (blank : character ∈ blanks) :
    character ∈ delimiters :=
  List.mem_append_left _ blank

theorem utf8Size_of_delimiter {character : Char} (delimiter : character ∈ delimiters) :
    character.utf8Size = 1 := by
  have all : (delimiters.all fun known => known.utf8Size == 1) = true := by decide
  exact beq_iff_eq.mp (List.all_eq_true.mp all character delimiter)

theorem closing_mem_delimiters (bracket : Bracket) : bracket.closing ∈ delimiters := by
  cases bracket <;> decide

def Digits (text : List Char) : Prop :=
  text ≠ [] ∧ ∀ character ∈ text, character.isDigit = true

inductive Decimal : List Char → Int → Prop
  | unsigned {digits : List Char} (spelled : Digits digits) :
      Decimal digits (Nat.ofDigitChars 10 digits 0)
  | positive {digits : List Char} (spelled : Digits digits) :
      Decimal ('+' :: digits) (Nat.ofDigitChars 10 digits 0)
  | negative {digits : List Char} (spelled : Digits digits) :
      Decimal ('-' :: digits) (-(Nat.ofDigitChars 10 digits 0 : Int))

/-- A text that is the name of a symbol: it holds no delimiter, and it cannot be taken for a number, not
even for one that is out of range. -/
structure Symbolic (text : List Char) : Prop where
  nonempty : text ≠ []
  plain : ∀ character ∈ text, character ∉ delimiters
  noInteger : ∀ value : Int64, ¬Decimal text value.toInt
  noDigits : ¬Digits text
  noNegative : ∀ digits, text = '-' :: digits → ¬Digits digits

inductive Atomic (text : List Char) (span : Span) : Node → Prop
  | number {value : Int64} (decimal : Decimal text value.toInt) :
      Atomic text span (.number value span)
  | symbol (symbolic : Symbolic text) : Atomic text span (.symbol (String.ofList text) span)

theorem plain_of_isDigit {character : Char} (digit : character.isDigit = true) :
    character ∉ delimiters := by
  have none : (delimiters.all fun delimiter => !delimiter.isDigit) = true := by decide
  intro delimiter
  have noDigit := List.all_eq_true.mp none character delimiter
  rw [digit] at noDigit
  cases noDigit

theorem Digits.plain {digits : List Char} (spelled : Digits digits) :
    ∀ character ∈ digits, character ∉ delimiters :=
  fun character member => plain_of_isDigit (spelled.2 character member)

theorem Decimal.plain {text : List Char} {value : Int} (decimal : Decimal text value) :
    ∀ character ∈ text, character ∉ delimiters := by
  rcases decimal with spelled | spelled | spelled
  · exact spelled.plain
  · exact List.forall_mem_cons.mpr ⟨by decide, spelled.plain⟩
  · exact List.forall_mem_cons.mpr ⟨by decide, spelled.plain⟩

theorem Decimal.nonempty {text : List Char} {value : Int} (decimal : Decimal text value) :
    text ≠ [] := by
  rcases decimal with spelled | spelled | spelled
  · exact spelled.1
  · exact List.cons_ne_nil _ _
  · exact List.cons_ne_nil _ _

section
variable {text : List Char} {span : Span} {node : Node}

theorem Atomic.plain (atomic : Atomic text span node) :
    ∀ character ∈ text, character ∉ delimiters := by
  cases atomic with
  | number decimal => exact decimal.plain
  | symbol symbolic => exact symbolic.plain

theorem Atomic.nonempty (atomic : Atomic text span node) : text ≠ [] := by
  cases atomic with
  | number decimal => exact decimal.nonempty
  | symbol symbolic => exact symbolic.nonempty

theorem Atomic.span_eq (atomic : Atomic text span node) : node.span = span := by
  cases atomic <;> rfl

theorem Atomic.nesting_eq (atomic : Atomic text span node) : node.nesting = 0 := by
  cases atomic <;> simp [Node.nesting]

end

/-- The characters that an escape stands for, with the character after the backslash. -/
inductive Escape : Char → Char → Prop
  | newline : Escape '\n' 'n'
  | tab : Escape '\t' 't'
  | carriageReturn : Escape '\r' 'r'
  | quote : Escape '"' '"'
  | backslash : Escape '\\' '\\'

inductive Quoted : List Char → List Char → Prop
  | nothing : Quoted [] []
  | plain {character : Char} {meant written : List Char} (noQuote : character ≠ '"')
      (noBackslash : character ≠ '\\') (tail : Quoted meant written) :
      Quoted (character :: meant) (character :: written)
  | escaped {character mark : Char} {meant written : List Char} (escape : Escape character mark)
      (tail : Quoted meant written) :
      Quoted (character :: meant) ('\\' :: mark :: written)

def Ends (rest : List Char) : Prop :=
  ∀ character ∈ rest.head?, character ∈ delimiters

theorem Ends.nil : Ends [] := by
  rintro character ⟨⟩

theorem Ends.cons {character : Char} {rest : List Char} (delimiter : character ∈ delimiters) :
    Ends (character :: rest) := by
  rintro _ ⟨⟩
  exact delimiter

theorem Ends.append {rest after : List Char} (left : Ends rest) (right : Ends after) :
    Ends (rest ++ after) := by
  cases rest with
  | nil => exact right
  | cons character rest => exact .cons (left character rfl)

theorem Ends.of_append {rest after : List Char} (both : Ends (rest ++ after)) : Ends rest := by
  cases rest with
  | nil => exact .nil
  | cons character rest => exact .cons (both character rfl)

theorem utf8Len_of_blank {character : Char} (blank : character ∈ blanks) (rest : List Char) :
    utf8Len (character :: rest) = utf8Len rest + 1 := by
  rw [String.utf8Len_cons, utf8Size_of_delimiter (delimiter_of_blank blank)]

section
variable {left right : Char} (leftSize : left.utf8Size = 1) (rightSize : right.utf8Size = 1)
include leftSize rightSize

theorem utf8Len_enclosed (inside : List Char) :
    utf8Len (left :: (inside ++ [right])) = utf8Len inside + 2 := by
  rw [String.utf8Len_cons, String.utf8Len_append, String.utf8Len_cons, leftSize, rightSize]
  rfl

theorem utf8Len_enclosed_append (inside rest : List Char) :
    utf8Len (left :: (inside ++ right :: rest)) = utf8Len inside + 2 + utf8Len rest := by
  rw [← utf8Len_enclosed leftSize rightSize, ← String.utf8Len_append, List.cons_append,
    List.append_assoc, List.singleton_append]

end

/-- A text that begins at an offset spells nodes, each with the range of bytes at which it stands. -/
inductive Spells : Nat → List Char → List Node → Prop
  | nothing {start : Nat} : Spells start [] []
  | blank {start : Nat} {character : Char} {rest : List Char} {nodes : List Node}
      (blank : character ∈ blanks) (tail : Spells (start + 1) rest nodes) :
      Spells start (character :: rest) nodes
  | comment {start : Nat} {body rest : List Char} {nodes : List Node} (line : '\n' ∉ body)
      (tail : Spells (start + (utf8Len body + 2)) rest nodes) :
      Spells start (';' :: (body ++ '\n' :: rest)) nodes
  | atom {start : Nat} {text rest : List Char} {node : Node} {nodes : List Node}
      (atomic : Atomic text ⟨start, utf8Len text⟩ node) (ends : Ends rest)
      (tail : Spells (start + utf8Len text) rest nodes) :
      Spells start (text ++ rest) (node :: nodes)
  | string {start : Nat} {meant written rest : List Char} {nodes : List Node}
      (quoted : Quoted meant written) (tail : Spells (start + (utf8Len written + 2)) rest nodes) :
      Spells start ('"' :: (written ++ '"' :: rest))
        (.string (String.ofList meant) ⟨start, utf8Len written + 2⟩ :: nodes)
  | form {start : Nat} (bracket : Bracket) {inside rest : List Char} {items nodes : List Node}
      (within : Spells (start + 1) inside items)
      (tail : Spells (start + (utf8Len inside + 2)) rest nodes) :
      Spells start (bracket.opening :: (inside ++ bracket.closing :: rest))
        (bracket.node items ⟨start, utf8Len inside + 2⟩ :: nodes)

/-- What may follow the forms of a source: a comment that no line feed ends, or nothing. -/
def LastComment (ending : List Char) : Prop :=
  ending = [] ∨ ∃ body, ending = ';' :: body ∧ '\n' ∉ body

inductive Written (start : Nat) : List Char → Node → Prop
  | atom {text : List Char} {node : Node} (atomic : Atomic text ⟨start, utf8Len text⟩ node) :
      Written start text node
  | string {meant written : List Char} (quoted : Quoted meant written) :
      Written start ('"' :: (written ++ ['"']))
        (.string (String.ofList meant) ⟨start, utf8Len written + 2⟩)
  | form (bracket : Bracket) {inside : List Char} {items : List Node}
      (within : Spells (start + 1) inside items) :
      Written start (bracket.opening :: (inside ++ [bracket.closing]))
        (bracket.node items ⟨start, utf8Len inside + 2⟩)

namespace Written
variable {start : Nat} {token : List Char} {node : Node}

theorem span_eq (written : Written start token node) : node.span = ⟨start, utf8Len token⟩ := by
  cases written with
  | atom atomic => exact atomic.span_eq
  | @string meant written quoted =>
      rw [@utf8Len_enclosed '"' '"' rfl rfl, Node.span]
  | form bracket within =>
      rw [utf8Len_enclosed bracket.utf8Size_opening bracket.utf8Size_closing, Bracket.span_node]

/-- A node may be written before a text, if an atom may end there. -/
theorem prepend (written : Written start token node) {rest : List Char} {nodes : List Node}
    (ends : Ends rest) (tail : Spells (start + utf8Len token) rest nodes) :
    Spells start (token ++ rest) (node :: nodes) := by
  cases written with
  | atom atomic => exact .atom atomic ends tail
  | string quoted =>
      rw [@utf8Len_enclosed '"' '"' rfl rfl] at tail
      rw [List.cons_append, List.append_assoc]
      exact .string quoted tail
  | form bracket within =>
      rw [utf8Len_enclosed bracket.utf8Size_opening bracket.utf8Size_closing] at tail
      rw [List.cons_append, List.append_assoc]
      exact .form bracket within tail

theorem spells (written : Written start token node) : Spells start token [node] := by
  rw [← List.append_nil token]
  exact written.prepend .nil .nothing

theorem inside_form {bracket : Bracket} {items : List Node} {span : Span}
    (written : Written start token (bracket.node items span)) :
    ∃ inside, token = bracket.opening :: (inside ++ [bracket.closing]) ∧
      Spells (start + 1) inside items := by
  generalize form : bracket.node items span = node at written
  cases written with
  | atom atomic => cases atomic <;> cases bracket <;> cases form
  | string quoted => cases bracket <;> cases form
  | form other within =>
      cases bracket <;> cases other <;> cases form
      · exact ⟨_, rfl, within⟩
      · exact ⟨_, rfl, within⟩

end Written

end Reader
end FragmentLisp
