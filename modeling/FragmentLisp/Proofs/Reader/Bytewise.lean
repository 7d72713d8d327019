import FragmentLisp.Proofs.Bytes
import FragmentLisp.Proofs.Reader.Resumption

/-!
Reading byte by byte. A scan looks at single bytes, moves by one byte at a time and remembers of a token
only where it begins. The text of a token is sliced out of the source when it ends, and a slice that does
not lie between two characters gives no answer at all. The reader of characters comes to the same results,
so every slice of every call is one between two characters.
-/

open String (utf8Len)

namespace FragmentLisp

namespace Bytes

theorem utf8_append (left right : String) : utf8 (left ++ right) = utf8 left ++ utf8 right := by
  simp [utf8]

theorem utf8_cons (character : Char) (rest : List Char) :
    utf8 (String.ofList (character :: rest)) =
      String.utf8EncodeChar character ++ utf8 (String.ofList rest) := by
  have split : String.ofList (character :: rest) = String.ofList [character] ++ String.ofList rest := by
    rw [← String.ofList_append]
    rfl
  rw [split, utf8_append]
  congr 1
  simp [utf8, List.utf8Encode_singleton]

theorem utf8_ofList_length (text : List Char) : (utf8 (String.ofList text)).length = utf8Len text := by
  rw [utf8_length, String.utf8ByteSize_ofList]

theorem foreign_of_utf8Size {character : Char} (wide : character.utf8Size ≠ 1) :
    ∀ byte ∈ String.utf8EncodeChar character, 128 ≤ byte.toNat := by
  have above : ¬ character.val.toNat ≤ 127 := by
    intro narrow
    exact wide (Char.utf8Size_eq_one_iff.mpr (UInt32.le_iff_toNat_le.mpr narrow))
  unfold String.utf8EncodeChar
  simp only [if_neg above]
  split
  · intro byte member
    simp only [List.mem_cons, List.not_mem_nil, or_false] at member
    rcases member with rfl | rfl <;> simp <;> omega
  · split
    · intro byte member
      simp only [List.mem_cons, List.not_mem_nil, or_false] at member
      rcases member with rfl | rfl | rfl <;> simp <;> omega
    · intro byte member
      simp only [List.mem_cons, List.not_mem_nil, or_false] at member
      rcases member with rfl | rfl | rfl | rfl <;> simp <;> omega

theorem ascii_of_utf8Size {character : Char} (narrow : character.utf8Size = 1) :
    String.utf8EncodeChar character = [character.toUInt8] ∧
      Char.ofUInt8 character.toUInt8 = character := by
  refine ⟨String.utf8EncodeChar_eq_singleton narrow, ?_⟩
  have below := UInt32.le_iff_toNat_le.mp (Char.utf8Size_eq_one_iff.mp narrow)
  apply Char.ext
  apply UInt32.toNat_inj.mp
  have low : (Char.ofUInt8 character.toUInt8).val.toNat = character.val.toNat % 256 := rfl
  rw [low, Nat.mod_eq_of_lt (Nat.lt_of_le_of_lt below (by decide))]

end Bytes

namespace Reader

/-- The text between two offsets of a source. There is none unless both lie between two characters. -/
def slice? (source : String) (start stop : Nat) : Option (List Char) :=
  if start ≤ stop ∧ String.Pos.Raw.IsValid source ⟨start⟩ ∧ String.Pos.Raw.IsValid source ⟨stop⟩ then
    (Bytes.text? (((Bytes.utf8 source).drop start).take (stop - start))).map String.toList
  else none

theorem isValid_of_split {source : String} {front back : List Char}
    (split : source.toList = front ++ back) : String.Pos.Raw.IsValid source ⟨utf8Len front⟩ := by
  refine String.Pos.Raw.isValid_iff_exists_append.mpr ⟨String.ofList front, String.ofList back, ?_, ?_⟩
  · rw [← String.ofList_append, ← split, String.ofList_toList]
  · rw [String.rawEndPos, String.utf8ByteSize_ofList]

theorem slice?_of_split {source : String} {front text back : List Char}
    (split : source.toList = front ++ (text ++ back)) :
    slice? source (utf8Len front) (utf8Len front + utf8Len text) = some text := by
  have start := isValid_of_split split
  have stop := isValid_of_split (split.trans (List.append_assoc front text back).symm)
  rw [String.utf8Len_append] at stop
  have shape : source = String.ofList front ++ (String.ofList text ++ String.ofList back) := by
    rw [← String.ofList_append, ← String.ofList_append, ← split, String.ofList_toList]
  have bytes : ((Bytes.utf8 source).drop (utf8Len front)).take (utf8Len text) =
      Bytes.utf8 (String.ofList text) := by
    rw [shape, Bytes.utf8_append, Bytes.utf8_append, ← Bytes.utf8_ofList_length front,
      List.drop_left, ← Bytes.utf8_ofList_length text, List.take_left]
  rw [slice?, if_pos ⟨Nat.le_add_right _ _, start, stop⟩, Nat.add_sub_cancel_left, bytes,
    Bytes.text_utf8]
  simp

/-- The token that a scan is in the middle of. Of a string it also knows where the piece behind the last
escape begins, and the text before it. -/
inductive Token where
  | nothing
  | comment
  | atom (start : Nat)
  | string (start piece : Nat) (buffer : List Char)
  | escape (start : Nat) (buffer : List Char)

structure Scan where
  offset : Nat
  depth : Nat
  level : List Node
  enclosing : List OpenForm
  token : Token

namespace Scan

def progress (scan : Scan) (pending : Pending) : Progress :=
  { offset := scan.offset
    depth := scan.depth
    level := scan.level
    enclosing := scan.enclosing
    pending }

def begun (offset : Nat) : Pending → Token
  | .nothing => .nothing
  | .comment => .comment
  | .atom start _ => .atom start
  | .string start _ => .string start offset []
  | .escape start _ => .escape start []

/-- Scan a byte between two tokens. A byte that is no ASCII character begins an atom. -/
def begin (limit : Nat) (progress : Progress) (byte : UInt8) : Except ReadError Scan :=
  (progress.begin limit (Char.ofUInt8 byte)).map fun next =>
    { offset := progress.offset + 1
      depth := next.depth
      level := next.level
      enclosing := next.enclosing
      token := begun (progress.offset + 1) next.pending }

def step (source : String) (limit : Nat) (scan : Scan) (byte : UInt8) :
    Option (Except ReadError Scan) :=
  match scan.token with
  | .nothing => some (begin limit (scan.progress .nothing) byte)
  | .comment =>
      some (.ok
        { scan with
          offset := scan.offset + 1
          token := if Char.ofUInt8 byte = '\n' then .nothing else .comment })
  | .atom start =>
      if isDelimiter (Char.ofUInt8 byte) then
        (slice? source start scan.offset).map fun text =>
          (scan.progress (.atom start text.reverse)).finishAtom.bind fun finished =>
            begin limit finished byte
      else some (.ok { scan with offset := scan.offset + 1 })
  | .string start piece buffer =>
      if Char.ofUInt8 byte = '\\' then
        (slice? source piece scan.offset).map fun text =>
          .ok { scan with offset := scan.offset + 1, token := .escape start (buffer ++ text) }
      else if Char.ofUInt8 byte = '"' then
        (slice? source piece scan.offset).map fun text =>
          .ok
            { scan with
              offset := scan.offset + 1
              level := .string (String.ofList (buffer ++ text)) ⟨start, scan.offset + 1 - start⟩ ::
                scan.level
              token := .nothing }
      else some (.ok { scan with offset := scan.offset + 1 })
  | .escape start buffer =>
      match Progress.escaped? (Char.ofUInt8 byte) with
      | some meant =>
          some (.ok
            { scan with
              offset := scan.offset + 1
              token := .string start (scan.offset + 1) (buffer ++ [meant]) })
      | none => some (.error ⟨.unknownEscape, scan.offset - 1⟩)

def finish (source : String) (scan : Scan) : Option (Except ReadError (List Node)) :=
  match scan.token with
  | .nothing => some (scan.progress .nothing).finish
  | .comment => some (scan.progress .comment).finish
  | .atom start =>
      (slice? source start scan.offset).map fun text =>
        (scan.progress (.atom start text.reverse)).finish
  | .string start _ _ => some (.error ⟨.unterminatedString, start⟩)
  | .escape start _ => some (.error ⟨.unterminatedString, start⟩)

/-- Where a scan has come to at an error: the bracket that opens one level too many is behind it. -/
def stop (scan : Scan) (error : ReadError) : Nat :=
  match error.cause with
  | .tooDeep _ => scan.offset + 1
  | _ => scan.offset

/-- Scan the bytes that are ahead. It ends with a result, an offset and a depth, unless a slice of the
source is none. -/
def run (source : String) (limit : Nat) (scan : Scan) :
    List UInt8 → Option (Except ReadError (List Node) × Nat × Nat)
  | [] => (scan.finish source).map fun result => (result, scan.offset, scan.depth)
  | byte :: rest =>
      match scan.step source limit byte with
      | none => none
      | some (.error error) => some (.error error, scan.stop error, scan.depth)
      | some (.ok next) => run source limit next rest

end Scan

def scanAll (source : String) (limit offset depth : Nat) :
    Option (Except ReadError (List Node) × Nat × Nat) :=
  Scan.run source limit { offset, depth, level := [], enclosing := [], token := .nothing }
    ((Bytes.utf8 source).drop offset)

/-! A scan and a reader of characters that have come to the same place. -/

inductive Mirrors (behind : List Char) : Pending → Token → Prop
  | nothing : Mirrors behind .nothing .nothing
  | comment : Mirrors behind .comment .comment
  | atom {front characters : List Char} (split : behind = front ++ characters.reverse) :
      Mirrors behind (.atom (utf8Len front) characters) (.atom (utf8Len front))
  | string {start : Nat} {front text buffer characters : List Char} (split : behind = front ++ text)
      (held : characters.reverse = buffer ++ text) :
      Mirrors behind (.string start characters) (.string start (utf8Len front) buffer)
  | escape {start : Nat} {characters : List Char} :
      Mirrors behind (.escape start characters) (.escape start characters.reverse)

def Progress.scan (progress : Progress) (token : Token) : Scan :=
  { offset := progress.offset
    depth := progress.depth
    level := progress.level
    enclosing := progress.enclosing
    token }

inductive Agrees (behind : List Char) : Except ReadError Progress → Option (Except ReadError Scan) → Prop
  | ok {next : Progress} {token : Token} (place : next.offset = utf8Len behind)
      (mirrors : Mirrors behind next.pending token) :
      Agrees behind (.ok next) (some (.ok (next.scan token)))
  | error {error : ReadError} : Agrees behind (.error error) (some (.error error))

section Steps

variable {source : String} {limit : Nat} {behind : List Char} {progress : Progress} {token : Token}
variable {character : Char}

theorem utf8Len_concat (behind : List Char) (narrow : character.utf8Size = 1) :
    utf8Len behind + 1 = utf8Len (behind ++ [character]) := by
  rw [String.utf8Len_append, String.utf8Len_cons, String.utf8Len_nil, narrow]

theorem agrees_next {depth : Nat} {level : List Node} {enclosing : List OpenForm} {pending : Pending}
    (narrow : character.utf8Size = 1) (mirrors : Mirrors (behind ++ [character]) pending token) :
    Agrees (behind ++ [character])
      (.ok ⟨utf8Len behind + character.utf8Size, depth, level, enclosing, pending⟩)
      (some (.ok ⟨utf8Len behind + 1, depth, level, enclosing, token⟩)) := by
  rw [narrow]
  exact .ok (utf8Len_concat behind narrow) mirrors

/-- Between two tokens an ASCII character is one byte. -/
theorem begin_agrees (place : progress.offset = utf8Len behind) (between : progress.pending = .nothing)
    (narrow : character.utf8Size = 1) :
    Agrees (behind ++ [character]) (progress.begin limit character)
      (some (Scan.begin limit progress character.toUInt8)) := by
  obtain ⟨offset, depth, level, enclosing, pending⟩ := progress
  obtain rfl : pending = .nothing := between
  obtain rfl : offset = utf8Len behind := place
  rw [Scan.begin, (Bytes.ascii_of_utf8Size narrow).2]
  have begun := begins limit ⟨utf8Len behind, depth, level, enclosing, .nothing⟩ character
  generalize Progress.begin limit ⟨utf8Len behind, depth, level, enclosing, .nothing⟩ character = result
    at begun ⊢
  cases begun with
  | blank blank => exact agrees_next narrow .nothing
  | comment => exact agrees_next narrow .comment
  | string =>
      refine agrees_next narrow ?_
      have mirrors : Mirrors (behind ++ ['"']) (.string (utf8Len behind) [])
          (.string (utf8Len behind) (utf8Len (behind ++ ['"'])) []) := .string (by simp) rfl
      rwa [← utf8Len_concat behind narrow] at mirrors
  | opening bracket =>
      by_cases deep : limit ≤ depth
      · simp only [Progress.openForm, if_pos deep]
        exact .error
      · simp only [Progress.openForm, if_neg deep]
        exact agrees_next narrow .nothing
  | closing bracket =>
      cases enclosing with
      | nil => exact .error
      | cons innermost enclosing =>
          by_cases same : innermost.bracket = bracket
          · simp only [Progress.closeForm, if_pos same]
            exact agrees_next narrow .nothing
          · simp only [Progress.closeForm, if_neg same]
            exact .error
  | atom plain => exact agrees_next narrow (.atom (by simp))

/-- A step over an ASCII character is a step over its byte. -/
theorem step_agrees {rest : List Char} (split : source.toList = behind ++ character :: rest)
    (place : progress.offset = utf8Len behind) (mirrors : Mirrors behind progress.pending token)
    (narrow : character.utf8Size = 1) :
    Agrees (behind ++ [character]) (progress.step limit character)
      ((progress.scan token).step source limit character.toUInt8) := by
  obtain ⟨offset, depth, level, enclosing, pending⟩ := progress
  obtain rfl : offset = utf8Len behind := place
  have ascii := (Bytes.ascii_of_utf8Size narrow).2
  cases mirrors with
  | nothing => exact begin_agrees rfl rfl narrow
  | comment =>
      simp only [Progress.step, Scan.step, Progress.scan, ascii]
      by_cases line : character = '\n'
      · simp only [if_pos line]
        exact agrees_next narrow .nothing
      · simp only [if_neg line]
        exact agrees_next narrow .comment
  | @atom front characters shape =>
      simp only [Progress.step, Scan.step, Progress.scan, ascii]
      by_cases delimiter : isDelimiter character = true
      · have sliced := @slice?_of_split source front characters.reverse (character :: rest)
          (by simpa [shape] using split)
        rw [← String.utf8Len_append, ← shape] at sliced
        simp only [if_pos delimiter, sliced, Option.map_some, Scan.progress, List.reverse_reverse]
        rcases Progress.finishAtom_cases
            ⟨utf8Len behind, depth, level, enclosing, .atom (utf8Len front) characters⟩ rfl with
          ⟨node, finished⟩ | ⟨literal, failed⟩
        · rw [finished]
          exact begin_agrees rfl rfl narrow
        · rw [failed]
          exact .error
      · simp only [if_neg delimiter]
        exact agrees_next narrow (.atom (by simp [shape]))
  | @string start front text buffer characters shape held =>
      simp only [Progress.step, Scan.step, Progress.scan, ascii]
      have sliced := @slice?_of_split source front text (character :: rest)
        (by simpa [shape] using split)
      rw [← String.utf8Len_append, ← shape] at sliced
      by_cases backslash : character = '\\'
      · simp only [if_pos backslash, sliced, Option.map_some, ← held]
        exact agrees_next narrow .escape
      · by_cases quote : character = '"'
        · simp only [if_neg backslash, if_pos quote, sliced, Option.map_some, ← held]
          exact agrees_next narrow .nothing
        · simp only [if_neg backslash, if_neg quote]
          have longer : behind ++ [character] = front ++ (text ++ [character]) := by simp [shape]
          exact agrees_next narrow (.string longer (by simp [held]))
  | @escape start characters =>
      simp only [Progress.step, Scan.step, Progress.scan, ascii]
      cases Progress.escaped? character with
      | none => exact .error
      | some meant =>
          refine agrees_next narrow ?_
          have mirrors : Mirrors (behind ++ [character]) (.string start (meant :: characters))
              (.string start (utf8Len (behind ++ [character])) (characters.reverse ++ [meant])) :=
            .string (List.append_nil _).symm (by simp)
          rwa [← utf8Len_concat behind narrow] at mirrors

/-! Characters of several bytes. -/

/-- A character beyond ASCII neither ends a token nor begins one other than an atom. -/
theorem plain_of_foreign (foreign : 128 ≤ character.toNat) :
    character ∉ delimiters ∧ character ≠ '\n' ∧ character ≠ '"' ∧ character ≠ '\\' ∧
      Progress.escaped? character = none := by
  have narrow : ((delimiters ++ ['\\', 'n', 't', 'r']).all fun known =>
      decide (known.toNat < 128)) = true := by decide
  have apart : character ∉ delimiters ++ ['\\', 'n', 't', 'r'] := fun member =>
    Nat.not_lt.mpr foreign (of_decide_eq_true (List.all_eq_true.mp narrow character member))
  refine ⟨fun member => apart (List.mem_append_left _ member), ?_, ?_, ?_, ?_⟩
  · rintro rfl
    exact apart (by decide)
  · rintro rfl
    exact apart (by decide)
  · rintro rfl
    exact apart (by decide)
  · cases meaning : Progress.escaped? character with
    | none => rfl
    | some meant =>
        cases escaped?_eq_some_iff.mp meaning <;> exact absurd (by decide) apart

theorem foreign_of_wide (wide : character.utf8Size ≠ 1) : 128 ≤ character.toNat := by
  by_contra narrow
  refine wide (Char.utf8Size_eq_one_iff.mpr (UInt32.le_iff_toNat_le.mpr ?_))
  exact Nat.le_of_lt_succ (Nat.not_le.mp narrow)

def Token.Steady : Token → Prop
  | .comment => True
  | .atom _ => True
  | .string _ _ _ => True
  | _ => False

theorem step_foreign {scan : Scan} {byte : UInt8} (steady : scan.token.Steady)
    (foreign : 128 ≤ byte.toNat) :
    scan.step source limit byte = some (.ok { scan with offset := scan.offset + 1 }) := by
  obtain ⟨plain, line, quote, backslash, -⟩ := @plain_of_foreign (Char.ofUInt8 byte) foreign
  obtain ⟨offset, depth, level, enclosing, token⟩ := scan
  cases token with
  | nothing => exact steady.elim
  | comment => simp only [Scan.step, if_neg line]
  | atom start => simp only [Scan.step, if_neg (mt isDelimiter_iff.mp plain)]
  | string start piece buffer => simp only [Scan.step, if_neg backslash, if_neg quote]
  | escape start buffer => exact steady.elim

theorem run_foreign {scan : Scan} {bytes : List UInt8} (steady : scan.token.Steady)
    (foreign : ∀ byte ∈ bytes, 128 ≤ byte.toNat) (rest : List UInt8) :
    Scan.run source limit scan (bytes ++ rest) =
      Scan.run source limit { scan with offset := scan.offset + bytes.length } rest := by
  induction bytes generalizing scan with
  | nil => rfl
  | cons byte bytes inductionHypothesis =>
      obtain ⟨first, others⟩ := List.forall_mem_cons.mp foreign
      have later := @inductionHypothesis { scan with offset := scan.offset + 1 } steady others
      rw [List.cons_append, Scan.run, step_foreign steady first]
      simp only [later, List.length_cons, Nat.add_assoc, Nat.add_comm 1]

def GoesOver (source : String) (limit : Nat) (behind : List Char) (character : Char)
    (progress : Progress) (token : Token) : Except ReadError Progress → Prop
  | .ok next =>
      next.offset = utf8Len (behind ++ [character]) ∧
        ∃ nextToken, Mirrors (behind ++ [character]) next.pending nextToken ∧
          ∀ rest, Scan.run source limit (progress.scan token)
              (String.utf8EncodeChar character ++ rest) =
            Scan.run source limit (next.scan nextToken) rest
  | .error error =>
      ∀ rest, Scan.run source limit (progress.scan token)
          (String.utf8EncodeChar character ++ rest) =
        some (.error error, (progress.scan token).stop error, progress.depth)

theorem goesOver_ascii {rest : List Char} (split : source.toList = behind ++ character :: rest)
    (place : progress.offset = utf8Len behind) (mirrors : Mirrors behind progress.pending token)
    (narrow : character.utf8Size = 1) :
    GoesOver source limit behind character progress token (progress.step limit character) := by
  have agrees := @step_agrees source limit behind progress token character rest split place mirrors
    narrow
  have bytes := (Bytes.ascii_of_utf8Size narrow).1
  generalize progress.step limit character = result at agrees ⊢
  generalize scanned : (progress.scan token).step source limit character.toUInt8 = other at agrees
  cases agrees with
  | ok placed mirrored =>
      refine ⟨placed, _, mirrored, fun rest => ?_⟩
      rw [bytes, List.singleton_append, Scan.run, scanned]
  | error =>
      intro rest
      rw [bytes, List.singleton_append, Scan.run, scanned]
      rfl

/-- In a comment, an atom or a string all bytes of the character are passed over. -/
theorem goesOver_steady {depth : Nat} {level : List Node} {enclosing : List OpenForm}
    {pending next : Pending} (wide : character.utf8Size ≠ 1) (steady : token.Steady)
    (mirrors : Mirrors (behind ++ [character]) next token) :
    GoesOver source limit behind character ⟨utf8Len behind, depth, level, enclosing, pending⟩ token
      (.ok ⟨utf8Len behind + character.utf8Size, depth, level, enclosing, next⟩) := by
  refine ⟨?_, token, mirrors, fun rest => ?_⟩
  · rw [String.utf8Len_append, String.utf8Len_cons, String.utf8Len_nil, Nat.zero_add]
  · rw [run_foreign steady (Bytes.foreign_of_utf8Size wide) rest, String.length_utf8EncodeChar]
    rfl

theorem goesOver_wide (place : progress.offset = utf8Len behind)
    (mirrors : Mirrors behind progress.pending token) (wide : character.utf8Size ≠ 1) :
    GoesOver source limit behind character progress token (progress.step limit character) := by
  obtain ⟨plain, line, quote, backslash, unescaped⟩ := plain_of_foreign (foreign_of_wide wide)
  have foreign := Bytes.foreign_of_utf8Size wide
  have delimiter := mt isDelimiter_iff.mp plain
  obtain ⟨offset, depth, level, enclosing, pending⟩ := progress
  obtain rfl : offset = utf8Len behind := place
  cases mirrors with
  | nothing =>
      rw [Progress.step, begin_plain plain]
      refine ⟨?_, .atom (utf8Len behind), .atom (by simp), fun rest => ?_⟩
      · simp [Progress.advance, String.utf8Len_append]
      · obtain ⟨byte, bytes, encoded⟩ := List.exists_cons_of_ne_nil String.utf8EncodeChar_ne_nil
        have length := String.length_utf8EncodeChar character
        rw [encoded] at foreign length ⊢
        obtain ⟨first, others⟩ := List.forall_mem_cons.mp foreign
        have begun : Scan.begin limit ⟨utf8Len behind, depth, level, enclosing, .nothing⟩ byte =
            .ok ⟨utf8Len behind + 1, depth, level, enclosing, .atom (utf8Len behind)⟩ := by
          rw [Scan.begin, begin_plain (@plain_of_foreign (Char.ofUInt8 byte) first).1]
          rfl
        have size : utf8Len behind + 1 + bytes.length = utf8Len behind + character.utf8Size := by
          rw [← length, List.length_cons]
          omega
        rw [List.cons_append, Scan.run]
        simp only [Scan.step, Progress.scan, Scan.progress, begun]
        have steady : (Token.atom (utf8Len behind)).Steady := trivial
        rw [@run_foreign source limit
          ⟨utf8Len behind + 1, depth, level, enclosing, .atom (utf8Len behind)⟩ bytes steady others rest]
        simp only [size]
        rfl
  | comment =>
      simp only [Progress.step, if_neg line]
      exact goesOver_steady wide trivial .comment
  | atom shape =>
      simp only [Progress.step, if_neg delimiter]
      exact goesOver_steady wide trivial (.atom (by simp [shape]))
  | @string start front text buffer characters shape held =>
      simp only [Progress.step, if_neg backslash, if_neg quote]
      have longer : behind ++ [character] = front ++ (text ++ [character]) := by simp [shape]
      exact goesOver_steady wide trivial (.string longer (by simp [held]))
  | escape =>
      simp only [Progress.step, unescaped]
      intro rest
      obtain ⟨byte, bytes, encoded⟩ := List.exists_cons_of_ne_nil String.utf8EncodeChar_ne_nil
      rw [encoded] at foreign ⊢
      have unknown := (@plain_of_foreign (Char.ofUInt8 byte) (foreign byte List.mem_cons_self)).2.2.2.2
      simp [Scan.run, Scan.step, Progress.scan, unknown]

/-- A scan goes over the bytes of a character as the reader goes over the character. -/
theorem goesOver {rest : List Char} (split : source.toList = behind ++ character :: rest)
    (place : progress.offset = utf8Len behind) (mirrors : Mirrors behind progress.pending token) :
    GoesOver source limit behind character progress token (progress.step limit character) := by
  by_cases narrow : character.utf8Size = 1
  · exact goesOver_ascii split place mirrors narrow
  · exact goesOver_wide place mirrors narrow

/-- At the end of the source the scan finishes as the reader does. -/
theorem finish_mirrors (split : source.toList = behind) (place : progress.offset = utf8Len behind)
    (mirrors : Mirrors behind progress.pending token) :
    (progress.scan token).finish source = some progress.finish := by
  obtain ⟨offset, depth, level, enclosing, pending⟩ := progress
  obtain rfl : offset = utf8Len behind := place
  cases mirrors with
  | nothing | comment | string | escape => rfl
  | @atom front characters shape =>
      have sliced := @slice?_of_split source front characters.reverse [] (by simpa [shape] using split)
      rw [← String.utf8Len_append, ← shape] at sliced
      simp [Scan.finish, Progress.scan, Scan.progress, sliced]

end Steps

theorem stop_mirrors {limit : Nat} {progress : Progress} {token : Token} {character : Char}
    {error : ReadError} (failed : progress.step limit character = .error error) (rest : List Char) :
    (stop limit progress character rest error).1 = .error error ∧
      (stop limit progress character rest error).2.offset = (progress.scan token).stop error ∧
      (stop limit progress character rest error).2.depth = progress.depth := by
  obtain ⟨cause, place⟩ := error
  cases cause with
  | tooDeep most =>
      obtain ⟨bracket, rfl⟩ := bracket_of_step failed rfl
      refine ⟨rfl, ?_, rfl⟩
      simp only [stop, Bracket.utf8Size_opening]
      rfl
  | _ => exact ⟨rfl, rfl, rfl⟩

/-- Scanning byte by byte comes to the same result, the same offset and the same depth. -/
theorem run_mirrors {source : String} {limit : Nat} {behind ahead : List Char} {progress : Progress}
    {token : Token} (split : source.toList = behind ++ ahead)
    (place : progress.offset = utf8Len behind) (mirrors : Mirrors behind progress.pending token) :
    Scan.run source limit (progress.scan token) (Bytes.utf8 (String.ofList ahead)) =
      some ((run limit progress ahead).1, (run limit progress ahead).2.offset,
        (run limit progress ahead).2.depth) := by
  induction ahead generalizing behind progress token with
  | nil =>
      have finished := @finish_mirrors source behind progress token (by simpa using split) place mirrors
      have nothing : Bytes.utf8 (String.ofList []) = [] := rfl
      rw [nothing, Scan.run, finished]
      rfl
  | cons character rest inductionHypothesis =>
      have goes := @goesOver source limit behind progress token character rest split place mirrors
      rw [Bytes.utf8_cons]
      cases stepped : progress.step limit character with
      | ok next =>
          rw [stepped] at goes
          obtain ⟨placed, nextToken, mirrored, same⟩ := goes
          rw [same, run_of_step stepped]
          exact inductionHypothesis (by simpa using split) placed mirrored
      | error error =>
          rw [stepped] at goes
          obtain ⟨result, place, depth⟩ := @stop_mirrors limit progress token character error stepped rest
          rw [goes, run_of_error stepped, result, place, depth]

/-- A call reads as a scan of the bytes that are ahead does, so none of its slices is missing. -/
theorem Reads.scanned {source : String} {most : Nat} {reader : Reader}
    (reads : Reads source most reader) :
    scanAll source most reader.offset reader.depth =
      some (reader.readAll.1, reader.readAll.2.offset, reader.readAll.2.depth) := by
  obtain ⟨behind, split, place⟩ := reads.split
  have ahead : (Bytes.utf8 source).drop reader.offset = Bytes.utf8 (String.ofList reader.ahead) := by
    have shape : source = String.ofList behind ++ String.ofList reader.ahead := by
      rw [← String.ofList_append, ← split, String.ofList_toList]
    rw [shape, Bytes.utf8_append, place, ← Bytes.utf8_ofList_length behind, List.drop_left]
  rw [scanAll, ahead, readAll, reads.limit]
  exact @run_mirrors source most behind reader.ahead ⟨reader.offset, reader.depth, [], [], .nothing⟩
    .nothing split place .nothing

theorem Within.isValid {source : String} {behind text after : List Char} {offset : Nat}
    (within : Within (utf8Len behind) text offset)
    (split : source.toList = behind ++ (text ++ after)) :
    String.Pos.Raw.IsValid source ⟨offset⟩ := by
  obtain ⟨front, back, rfl, rfl⟩ := within
  rw [← String.utf8Len_append]
  have apart : source.toList = (behind ++ front) ++ (back ++ after) := by simpa using split
  exact isValid_of_split apart

/-- What makes the next call of a reader safe. It comes to an end, and all its slices are between
characters of the source. -/
structure SafeCall (source : String) (limit : Nat) (reader : Reader) : Prop where
  sliced : scanAll source limit reader.offset reader.depth =
    some (reader.readAll.1, reader.readAll.2.offset, reader.readAll.2.depth)
  forward : reader.offset ≤ reader.readAll.2.offset
  inside : reader.readAll.2.offset ≤ source.utf8ByteSize
  atCharacter : String.Pos.Raw.IsValid source ⟨reader.readAll.2.offset⟩
  bounded : reader.readAll.2.depth ≤ limit
  unchanged : ∀ nodes, reader.readAll.1 = .ok nodes → reader.readAll.2.depth = reader.depth
  errorInside : ∀ error, reader.readAll.1 = .error error →
    error.offset ≤ source.utf8ByteSize ∧ String.Pos.Raw.IsValid source ⟨error.offset⟩
  /-- The depth grows by the brackets that the call has entered and not closed. -/
  grown : ∀ error, reader.readAll.1 = .error error →
    ∃ behind entered refused,
      source.toList = behind ++ (entered ++ (refused ++ reader.readAll.2.ahead)) ∧
      reader.offset = utf8Len behind ∧
      reader.readAll.2.offset = utf8Len behind + utf8Len (entered ++ refused) ∧
      Refused error.cause refused ∧
      reader.readAll.2.depth = reader.depth + (lex entered).unclosed

/-- The reader is safe on every source and after any number of calls, whether these have returned forms or
ended in errors. -/
theorem reader_is_safe (source : String) (limit calls : Nat) :
    SafeCall source limit ((ofSource source limit).afterCalls calls) := by
  have reads := reads_afterCalls source limit calls
  generalize (ofSource source limit).afterCalls calls = reader at reads
  obtain ⟨behind, split, place⟩ := reads.split
  obtain ⟨passed, splitAfter, placeAfter⟩ := reads.next.split
  have returned := reads.returns
  have valid : String.Pos.Raw.IsValid source ⟨reader.readAll.2.offset⟩ :=
    placeAfter ▸ isValid_of_split splitAfter
  refine ⟨reads.scanned, returned.forward, valid.le_rawEndPos, valid, reads.next.bounded,
    fun nodes => returned.depth_of_ok, fun error failed => ?_, fun error failed => ?_⟩
  all_goals
    obtain ⟨entered, refused, consumed, within, reached, depth, left⟩ := returned.of_error failed
    rw [consumed] at split
    rw [place] at within reached
  · have validError := within.isValid split
    exact ⟨validError.le_rawEndPos, validError⟩
  · exact ⟨behind, entered, refused, split, place, reached, left, depth⟩

/-- The first call enters a list and refuses the vector in it, the second one reads on behind its bracket. -/
example :
    ((ofSource "([é" 1).afterCalls 1).offset = 2 ∧ ((ofSource "([é" 1).afterCalls 1).depth = 1 ∧
      ((ofSource "([é" 1).afterCalls 2).offset = 4 := by decide

end Reader
end FragmentLisp
