import FragmentLisp.Reader.Atom

/-!
Reading forms from source text, one character at a time. The reader holds the forms it has read at the
innermost open level, the open levels around it, and the token it is in the middle of. Offsets count
UTF-8 bytes and always lie between two characters, because the reader moves by whole characters.

A refused character stays to be read, apart from a bracket that opens one level too many. So reading
can go on after an error, at the depth that the abandoned levels have reached.
-/

namespace FragmentLisp

inductive Bracket where
  | round
  | square
deriving DecidableEq

namespace ReadError

inductive Cause where
  | unexpectedClosing (bracket : Bracket)
  | tooDeep (limit : Nat)
  | unclosed
  | unknownEscape
  | unterminatedString
  | integerOutOfRange (literal : String)
deriving DecidableEq

def Cause.message : Cause → String
  | unexpectedClosing .round => "Unexpected closing parenthesis"
  | unexpectedClosing .square => "Unexpected closing bracket"
  | tooDeep limit => String.join ["Nesting deeper than ", toString limit, " levels"]
  | unclosed => "Unclosed container"
  | unknownEscape => "Unknown escape sequence"
  | unterminatedString => "Unterminated string literal"
  | integerOutOfRange literal => String.join ["Integer literal '", literal, "' out of range"]

end ReadError

structure ReadError where
  cause : ReadError.Cause
  offset : Nat
deriving DecidableEq

namespace ReadError

def message (error : ReadError) : String :=
  error.cause.message

def display (error : ReadError) : String :=
  String.join [error.message, " at offset ", toString error.offset]

end ReadError

structure Reader where
  ahead : List Char
  offset : Nat
  depth : Nat
  limit : Nat

namespace Reader

def defaultLimit : Nat := 128

def ofSource (source : String) (limit : Nat) : Reader :=
  { ahead := source.toList, offset := 0, depth := 0, limit }

/-- The token that the characters read so far have begun; its characters stand last first. -/
inductive Pending where
  | nothing
  | comment
  | atom (start : Nat) (characters : List Char)
  | string (start : Nat) (characters : List Char)
  | escape (start : Nat) (characters : List Char)

/-- A list or vector whose closing bracket is still ahead, with the forms before it at its level, last
first. -/
structure OpenForm where
  bracket : Bracket
  start : Nat
  before : List Node

structure Progress where
  offset : Nat
  depth : Nat
  /-- The forms read at the innermost open level, last first. -/
  level : List Node
  enclosing : List OpenForm
  pending : Pending

namespace Progress

def push (progress : Progress) (node : Node) : Progress :=
  { progress with level := node :: progress.level, pending := .nothing }

def advance (progress : Progress) (character : Char) : Progress :=
  { progress with offset := progress.offset + character.utf8Size }

/-- Turn a begun atom into a form; the character after it is not read yet. -/
def finishAtom (progress : Progress) : Except ReadError Progress :=
  match progress.pending with
  | .atom start characters =>
      match Atom.ofText characters.reverse with
      | .number value => .ok (progress.push (.number value ⟨start, progress.offset - start⟩))
      | .symbol name => .ok (progress.push (.symbol name ⟨start, progress.offset - start⟩))
      | .outOfRange literal => .error ⟨.integerOutOfRange literal, start⟩
  | _ => .ok progress

def openForm (limit : Nat) (bracket : Bracket) (progress : Progress) : Except ReadError Progress :=
  if limit ≤ progress.depth then
    .error ⟨.tooDeep limit, progress.offset⟩
  else
    .ok
      { progress with
        depth := progress.depth + 1
        level := []
        enclosing := ⟨bracket, progress.offset, progress.level⟩ :: progress.enclosing }

def closeForm (bracket : Bracket) (progress : Progress) : Except ReadError Progress :=
  match progress.enclosing with
  | [] => .error ⟨.unexpectedClosing bracket, progress.offset⟩
  | innermost :: enclosing =>
      if innermost.bracket = bracket then
        let span := ⟨innermost.start, progress.offset + 1 - innermost.start⟩
        let node :=
          match bracket with
          | .round => Node.list progress.level.reverse span
          | .square => Node.vector progress.level.reverse span
        .ok
          { progress with
            depth := progress.depth - 1
            level := node :: innermost.before
            enclosing }
      else
        .error ⟨.unexpectedClosing bracket, progress.offset⟩

def begin (limit : Nat) (progress : Progress) (character : Char) : Except ReadError Progress :=
  if isBlank character then .ok (progress.advance character)
  else if character = ';' then .ok ({ progress with pending := .comment }.advance character)
  else if character = '(' then (progress.openForm limit .round).map (·.advance character)
  else if character = '[' then (progress.openForm limit .square).map (·.advance character)
  else if character = ')' then (progress.closeForm .round).map (·.advance character)
  else if character = ']' then (progress.closeForm .square).map (·.advance character)
  else if character = '"' then
    .ok ({ progress with pending := .string progress.offset [] }.advance character)
  else
    .ok ({ progress with pending := .atom progress.offset [character] }.advance character)

def escaped? : Char → Option Char
  | 'n' => some '\n'
  | 't' => some '\t'
  | 'r' => some '\r'
  | '"' => some '"'
  | '\\' => some '\\'
  | _ => none

def step (limit : Nat) (progress : Progress) (character : Char) : Except ReadError Progress :=
  match progress.pending with
  | .nothing => progress.begin limit character
  | .comment =>
      if character = '\n' then
        .ok ({ progress with pending := .nothing }.advance character)
      else
        .ok (progress.advance character)
  | .atom start characters =>
      if isDelimiter character then
        progress.finishAtom.bind fun finished => finished.begin limit character
      else
        .ok ({ progress with pending := .atom start (character :: characters) }.advance character)
  | .string start characters =>
      if character = '\\' then
        .ok ({ progress with pending := .escape start characters }.advance character)
      else if character = '"' then
        let span := ⟨start, progress.offset + 1 - start⟩
        .ok ((progress.push (.string (String.ofList characters.reverse) span)).advance character)
      else
        .ok ({ progress with pending := .string start (character :: characters) }.advance character)
  | .escape start characters =>
      match escaped? character with
      | some meant =>
          .ok ({ progress with pending := .string start (meant :: characters) }.advance character)
      | none => .error ⟨.unknownEscape, progress.offset - 1⟩

def finish (progress : Progress) : Except ReadError (List Node) :=
  match progress.pending with
  | .string start _ => .error ⟨.unterminatedString, start⟩
  | .escape start _ => .error ⟨.unterminatedString, start⟩
  | _ =>
      progress.finishAtom.bind fun finished =>
        match finished.enclosing with
        | [] => .ok finished.level.reverse
        | innermost :: _ => .error ⟨.unclosed, innermost.start⟩

end Progress

def stop (limit : Nat) (progress : Progress) (character : Char) (rest : List Char)
    (error : ReadError) : Except ReadError (List Node) × Reader :=
  match error.cause with
  | .tooDeep _ =>
      (.error error,
        { ahead := rest
          offset := progress.offset + character.utf8Size
          depth := progress.depth
          limit })
  | _ =>
      (.error error,
        { ahead := character :: rest, offset := progress.offset, depth := progress.depth, limit })

def run (limit : Nat) (progress : Progress) : List Char → Except ReadError (List Node) × Reader
  | [] =>
      (progress.finish, { ahead := [], offset := progress.offset, depth := progress.depth, limit })
  | character :: rest =>
      match progress.step limit character with
      | .ok next => run limit next rest
      | .error error => stop limit progress character rest error

def readAll (reader : Reader) : Except ReadError (List Node) × Reader :=
  run reader.limit
    { offset := reader.offset
      depth := reader.depth
      level := []
      enclosing := []
      pending := .nothing }
    reader.ahead

/-- The forms of a source text in which at most `limit` lists and vectors nest. -/
def read (source : String) (limit : Nat) : Except ReadError (List Node) :=
  (Reader.ofSource source limit).readAll.1

end Reader
end FragmentLisp
