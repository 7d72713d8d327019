import FragmentLisp.Proofs.Reader.Steps

/-!
Calls of one reader, one after another, whatever the calls before have left. A call walks over a part of
what is ahead of it, and the depth it leaves is told by the brackets in that part. What is a bracket there,
and what a character of a comment or a string, is found by reading the part alone.
-/

open String (utf8Len)

namespace FragmentLisp
namespace Reader

/-- What a character can stand in. An atom holds no character that means anything between two tokens. -/
inductive Zone where
  | between
  | comment
  | string
  | escape
deriving DecidableEq

/-- A text as far as brackets go: what its next character stands in, and how many brackets are open. -/
structure Lexed where
  zone : Zone
  unclosed : Nat

def Lexed.next (lexed : Lexed) (character : Char) : Lexed :=
  match lexed.zone with
  | .between =>
      if character = '(' ∨ character = '[' then { lexed with unclosed := lexed.unclosed + 1 }
      else if character = ')' ∨ character = ']' then { lexed with unclosed := lexed.unclosed - 1 }
      else if character = ';' then { lexed with zone := .comment }
      else if character = '"' then { lexed with zone := .string }
      else lexed
  | .comment => { lexed with zone := if character = '\n' then .between else .comment }
  | .string =>
      { lexed with
        zone := if character = '\\' then .escape else if character = '"' then .between else .string }
  | .escape => { lexed with zone := .string }

def lex (text : List Char) : Lexed :=
  text.foldl Lexed.next ⟨.between, 0⟩

theorem lex_concat (text : List Char) (character : Char) :
    lex (text ++ [character]) = (lex text).next character :=
  List.foldl_concat ..

/-- An offset in a text that begins at `start` lies between two of its characters, or at one end. -/
def Within (start : Nat) (text : List Char) (offset : Nat) : Prop :=
  ∃ front back, text = front ++ back ∧ offset = start + utf8Len front

namespace Within

variable {start offset : Nat} {text more : List Char}

theorem last (start : Nat) (text : List Char) : Within start text (start + utf8Len text) :=
  ⟨text, [], by simp, rfl⟩

theorem extend (within : Within start text offset) : Within start (text ++ more) offset := by
  obtain ⟨front, back, rfl, place⟩ := within
  exact ⟨front, back ++ more, by simp, place⟩

theorem bounds (within : Within start text offset) :
    start ≤ offset ∧ offset ≤ start + utf8Len text := by
  obtain ⟨front, back, rfl, rfl⟩ := within
  rw [String.utf8Len_append]
  omega

end Within

def Pending.zone : Pending → Zone
  | nothing => .between
  | comment => .comment
  | atom _ _ => .between
  | string _ _ => .string
  | escape _ _ => .escape

def Pending.Begun (start : Nat) (text : List Char) : Pending → Prop
  | nothing => True
  | comment => True
  | atom offset _ => Within start text offset
  | string offset _ => Within start text offset
  | escape offset _ => Within start text offset ∧ Within start text (start + utf8Len text - 1)

structure Walk (limit start base : Nat) (text : List Char) (progress : Progress) : Prop where
  offset : progress.offset = start + utf8Len text
  zone : (lex text).zone = progress.pending.zone
  unclosed : (lex text).unclosed = progress.enclosing.length
  depth : progress.depth = base + progress.enclosing.length
  bounded : progress.depth ≤ limit
  forms : ∀ form ∈ progress.enclosing, Within start text form.start
  begun : progress.pending.Begun start text

namespace Walk

variable {limit start base : Nat} {text : List Char} {progress next : Progress} {character : Char}
variable {error : ReadError}

theorem first (bounded : base ≤ limit) : Walk limit start base [] ⟨start, base, [], [], .nothing⟩ :=
  ⟨rfl, rfl, rfl, rfl, bounded, by simp, trivial⟩

theorem depth_eq (walk : Walk limit start base text progress) :
    progress.depth = base + (lex text).unclosed := by
  rw [walk.depth, walk.unclosed]

/-- One more character that leaves the open forms as they are. -/
theorem go (walk : Walk limit start base text progress) {level : List Node} {pending : Pending}
    (lexed : (lex text).next character = ⟨pending.zone, (lex text).unclosed⟩)
    (begun : pending.Begun start (text ++ [character])) :
    Walk limit start base (text ++ [character])
      ⟨progress.offset + character.utf8Size, progress.depth, level, progress.enclosing, pending⟩ where
  offset := by
    simp only [String.utf8Len_append, String.utf8Len_cons, String.utf8Len_nil, walk.offset]
    omega
  zone := by rw [lex_concat, lexed]
  unclosed := by rw [lex_concat, lexed, walk.unclosed]
  depth := walk.depth
  bounded := walk.bounded
  forms := fun form member => (walk.forms form member).extend
  begun := begun

theorem enter (walk : Walk limit start base text progress) (between : progress.pending = .nothing)
    (bracket : Bracket) (room : progress.depth < limit) :
    Walk limit start base (text ++ [bracket.opening])
      ⟨progress.offset + 1, progress.depth + 1, [],
        ⟨bracket, progress.offset, progress.level⟩ :: progress.enclosing, .nothing⟩ := by
  have zone : (lex text).zone = .between := by rw [walk.zone, between]; rfl
  have lexed : (lex text).next bracket.opening = ⟨.between, (lex text).unclosed + 1⟩ := by
    cases bracket <;> simp [Lexed.next, zone, Bracket.opening]
  have place := walk.offset
  exact {
    offset := by
      simp only [String.utf8Len_append, String.utf8Len_cons, String.utf8Len_nil,
        Bracket.utf8Size_opening, walk.offset]
      omega
    zone := by rw [lex_concat, lexed]; rfl
    unclosed := by rw [lex_concat, lexed, walk.unclosed, List.length_cons]
    depth := by
      simp only [List.length_cons, walk.depth]
      omega
    bounded := room
    forms := by
      intro form member
      rcases List.mem_cons.mp member with rfl | outer
      · simp only [walk.offset]
        exact (Within.last start text).extend
      · exact (walk.forms form outer).extend
    begun := trivial }

theorem close (walk : Walk limit start base text progress) (between : progress.pending = .nothing)
    (bracket : Bracket) {innermost : OpenForm} {enclosing : List OpenForm}
    (opened : progress.enclosing = innermost :: enclosing) (level : List Node) :
    Walk limit start base (text ++ [bracket.closing])
      ⟨progress.offset + 1, progress.depth - 1, level, enclosing, .nothing⟩ := by
  have zone : (lex text).zone = .between := by rw [walk.zone, between]; rfl
  have lexed : (lex text).next bracket.closing = ⟨.between, (lex text).unclosed - 1⟩ := by
    cases bracket <;> simp [Lexed.next, zone, Bracket.closing]
  have depth := walk.depth
  have bounded := walk.bounded
  rw [opened, List.length_cons] at depth
  exact {
    offset := by
      simp only [String.utf8Len_append, String.utf8Len_cons, String.utf8Len_nil,
        Bracket.utf8Size_closing, walk.offset]
      omega
    zone := by rw [lex_concat, lexed]; rfl
    unclosed := by rw [lex_concat, lexed, walk.unclosed, opened, List.length_cons,
      Nat.add_sub_cancel]
    depth := by simp only; omega
    bounded := by simp only; omega
    forms := fun form outer => (walk.forms form (opened ▸ List.mem_cons_of_mem _ outer)).extend
    begun := trivial }

/-- A form that has been read changes nothing that can be seen in the text. -/
theorem push (walk : Walk limit start base text progress)
    (between : progress.pending.zone = .between) (node : Node) :
    Walk limit start base text (progress.push node) :=
  ⟨walk.offset, walk.zone.trans between, walk.unclosed, walk.depth, walk.bounded, walk.forms, trivial⟩

end Walk

/-- At the end of an atom there is a form, or the whole atom is refused. -/
theorem Progress.finishAtom_cases (progress : Progress) {tokenStart : Nat} {characters : List Char}
    (atom : progress.pending = .atom tokenStart characters) :
    (∃ node, progress.finishAtom = .ok (progress.push node)) ∨
      ∃ literal, progress.finishAtom = .error ⟨.integerOutOfRange literal, tokenStart⟩ := by
  simp only [Progress.finishAtom, atom]
  cases Atom.ofText characters.reverse with
  | number value => exact .inl ⟨_, rfl⟩
  | symbol name => exact .inl ⟨_, rfl⟩
  | outOfRange literal => exact .inr ⟨literal, rfl⟩

theorem run_of_error {limit : Nat} {progress : Progress} {character : Char} {error : ReadError}
    {rest : List Char} (failed : progress.step limit character = .error error) :
    run limit progress (character :: rest) = stop limit progress character rest error := by
  rw [run, failed]

theorem error_of_stop (limit : Nat) (progress : Progress) (character : Char) (rest : List Char)
    (error : ReadError) : (stop limit progress character rest error).1 = .error error := by
  unfold stop
  split <;> rfl

/-- Only an opening bracket is refused for its depth. -/
theorem bracket_of_begin {limit most : Nat} {progress : Progress} {character : Char}
    {error : ReadError} (failed : progress.begin limit character = .error error)
    (deep : error.cause = .tooDeep most) : ∃ bracket : Bracket, character = bracket.opening := by
  have begun := begins limit progress character
  generalize progress.begin limit character = result at begun failed
  cases begun with
  | blank | comment | string | atom => cases failed
  | opening bracket => exact ⟨bracket, rfl⟩
  | closing bracket =>
      unfold Progress.closeForm at failed
      split at failed
      · obtain rfl := Except.error.inj failed
        cases deep
      · split at failed
        · cases failed
        · obtain rfl := Except.error.inj failed
          cases deep

theorem bracket_of_step {limit most : Nat} {progress : Progress} {character : Char}
    {error : ReadError} (failed : progress.step limit character = .error error)
    (deep : error.cause = .tooDeep most) : ∃ bracket : Bracket, character = bracket.opening := by
  obtain ⟨offset, depth, level, enclosing, pending⟩ := progress
  cases pending with
  | nothing => exact bracket_of_begin failed deep
  | comment =>
      simp only [Progress.step] at failed
      split at failed <;> cases failed
  | atom start characters =>
      simp only [Progress.step] at failed
      split at failed
      · rcases Progress.finishAtom_cases ⟨offset, depth, level, enclosing, .atom start characters⟩
          rfl with ⟨node, finished⟩ | ⟨literal, refused⟩
        · rw [finished] at failed
          exact bracket_of_begin failed deep
        · rw [refused] at failed
          obtain rfl := Except.error.inj failed
          cases deep
      · cases failed
  | string start characters =>
      simp only [Progress.step] at failed
      split at failed
      · cases failed
      · split at failed <;> cases failed
  | escape start characters =>
      simp only [Progress.step] at failed
      split at failed
      · cases failed
      · obtain rfl := Except.error.inj failed
        cases deep

def Finished (start : Nat) (text : List Char) (enclosing : List OpenForm) :
    Except ReadError (List Node) → Prop
  | .ok _ => enclosing = []
  | .error error => Within start text error.offset ∧ ∀ most, error.cause ≠ .tooDeep most

def Stepped (limit start base : Nat) (text : List Char) (character : Char) :
    Except ReadError Progress → Prop
  | .ok next => Walk limit start base (text ++ [character]) next
  | .error error => Within start text error.offset

namespace Walk

variable {limit start base : Nat} {text : List Char} {progress : Progress}

theorem next_plain {character : Char} {lexed : Lexed} (between : lexed.zone = .between)
    (plain : character ∈ blanks ∨ character ∉ delimiters) :
    lexed.next character = ⟨.between, lexed.unclosed⟩ := by
  have others : character ∉ ['(', ')', '[', ']', '"', ';'] := by
    intro other
    rcases plain with blank | plain
    · have apart : (blanks.all fun known => !(['(', ')', '[', ']', '"', ';'].contains known)) =
          true := by decide
      have absent := List.all_eq_true.mp apart character blank
      rw [List.contains_iff_mem.mpr other] at absent
      exact absurd absent Bool.false_ne_true
    · exact plain (List.mem_append_right _ other)
  simp only [List.mem_cons, List.not_mem_nil, or_false, not_or] at others
  obtain ⟨zone, unclosed⟩ := lexed
  obtain rfl : zone = .between := between
  simp [Lexed.next, others]

theorem begin (walk : Walk limit start base text progress) (between : progress.pending = .nothing)
    (character : Char) : Stepped limit start base text character (progress.begin limit character) := by
  obtain ⟨offset, depth, level, enclosing, pending⟩ := progress
  obtain rfl : pending = .nothing := between
  have zone : (lex text).zone = .between := walk.zone
  have here : Within start text offset := by
    rw [show offset = start + utf8Len text from walk.offset]
    exact Within.last start text
  have begun := begins limit ⟨offset, depth, level, enclosing, .nothing⟩ character
  generalize Progress.begin limit ⟨offset, depth, level, enclosing, .nothing⟩ character = result at begun ⊢
  cases begun with
  | blank blank =>
      exact walk.go (next_plain zone (.inl blank)) trivial
  | comment => exact walk.go (by simp [Lexed.next, zone, Pending.zone]) trivial
  | string => exact walk.go (by simp [Lexed.next, zone, Pending.zone]) here.extend
  | opening bracket =>
      by_cases deep : limit ≤ depth
      · rw [Progress.openForm, if_pos deep]
        exact here
      · rw [Progress.openForm, if_neg deep]
        have entered := walk.enter rfl bracket (Nat.not_le.mp deep)
        simpa [Stepped, Except.map, Progress.advance] using entered
  | closing bracket =>
      cases enclosing with
      | nil => exact here
      | cons innermost enclosing =>
          by_cases same : innermost.bracket = bracket
          · simp only [Progress.closeForm, if_pos same, Except.map, Progress.advance,
              Bracket.utf8Size_closing]
            exact walk.close rfl bracket rfl _
          · simp only [Progress.closeForm, if_neg same]
            exact here
  | atom plain =>
      exact walk.go (next_plain zone (.inr plain)) here.extend

/-- One step walks over its character, or it stops. -/
theorem step (walk : Walk limit start base text progress) (character : Char) :
    Stepped limit start base text character (progress.step limit character) := by
  obtain ⟨offset, depth, level, enclosing, pending⟩ := progress
  have zone : (lex text).zone = pending.zone := walk.zone
  have begun := walk.begun
  cases pending with
  | nothing => exact walk.begin rfl character
  | comment =>
      by_cases line : character = '\n'
      · subst line
        exact walk.go (by simp [Lexed.next, zone, Pending.zone]) trivial
      · rw [Progress.step]
        simp only [if_neg line]
        exact walk.go (by simp [Lexed.next, zone, Pending.zone, line]) trivial
  | atom tokenStart characters =>
      by_cases delimiter : isDelimiter character = true
      · simp only [Progress.step, if_pos delimiter]
        rcases Progress.finishAtom_cases ⟨offset, depth, level, enclosing, .atom tokenStart characters⟩
            rfl with
          ⟨node, finished⟩ | ⟨literal, failed⟩
        · rw [finished]
          exact (walk.push rfl node).begin rfl character
        · rw [failed]
          exact begun
      · simp only [Progress.step, if_neg delimiter]
        have plain := mt isDelimiter_iff.mpr delimiter
        exact walk.go (next_plain zone (.inr plain)) begun.extend
  | string tokenStart characters =>
      by_cases backslash : character = '\\'
      · subst backslash
        refine walk.go (by simp [Lexed.next, zone, Pending.zone]) ⟨Within.extend begun, ?_⟩
        have behind : start + utf8Len (text ++ ['\\']) - 1 = start + utf8Len text := by
          rw [String.utf8Len_append]
          rfl
        rw [behind]
        exact (Within.last start text).extend
      · by_cases quote : character = '"'
        · subst quote
          exact walk.go (by simp [Lexed.next, zone, Pending.zone, Progress.push]) trivial
        · simp only [Progress.step, if_neg backslash, if_neg quote]
          exact walk.go (by simp [Lexed.next, zone, Pending.zone, backslash, quote])
            (Within.extend begun)
  | escape tokenStart characters =>
      simp only [Progress.step]
      cases Progress.escaped? character with
      | some meant => exact walk.go (by simp [Lexed.next, zone, Pending.zone]) begun.1.extend
      | none =>
          have place : offset = start + utf8Len text := walk.offset
          exact place ▸ begun.2

theorem finish (walk : Walk limit start base text progress) :
    Finished start text progress.enclosing progress.finish := by
  have closes : ∀ level : List Node,
      Finished start text progress.enclosing
        (Progress.finish { progress with level, pending := .nothing }) := by
    intro level
    simp only [Progress.finish, Progress.finishAtom, Except.bind]
    cases opened : progress.enclosing with
    | nil => exact rfl
    | cons innermost enclosing =>
        exact ⟨walk.forms innermost (opened ▸ List.mem_cons_self), by simp⟩
  obtain ⟨offset, depth, level, enclosing, pending⟩ := progress
  cases pending with
  | nothing => exact closes level
  | comment => exact closes level
  | atom tokenStart characters =>
      rcases Progress.finishAtom_cases ⟨offset, depth, level, enclosing, .atom tokenStart characters⟩
        rfl with ⟨node, finished⟩ | ⟨literal, failed⟩
      · simp only [Progress.finish, finished]
        exact closes (node :: level)
      · simp only [Progress.finish, failed]
        exact ⟨walk.begun, by simp⟩
  | string tokenStart characters => exact ⟨walk.begun, by simp⟩
  | escape tokenStart characters => exact ⟨walk.begun.1, by simp⟩

end Walk

/-- What an error has taken from the source without entering it: the bracket that opens one level too many,
and nothing else. -/
def Refused (cause : ReadError.Cause) (refused : List Char) : Prop :=
  (∃ bracket : Bracket, ∃ most, refused = [bracket.opening] ∧ cause = .tooDeep most) ∨
    (refused = [] ∧ ∀ most, cause ≠ .tooDeep most)

/-- What a call may return and leave, if it began at an offset and a depth with this text ahead. It has
entered a part of the text, and it may have refused one more bracket. -/
inductive Returns (limit start base : Nat) (ahead : List Char) :
    Except ReadError (List Node) → Reader → Prop
  | ok {nodes : List Node} (unclosed : (lex ahead).unclosed = 0) :
      Returns limit start base ahead (.ok nodes) ⟨[], start + utf8Len ahead, base, limit⟩
  | error {error : ReadError} {entered refused rest : List Char}
      (split : ahead = entered ++ (refused ++ rest)) (place : Within start entered error.offset)
      (bounded : base + (lex entered).unclosed ≤ limit) (left : Refused error.cause refused) :
      Returns limit start base ahead (.error error)
        ⟨rest, start + utf8Len (entered ++ refused), base + (lex entered).unclosed, limit⟩

namespace Returns

variable {limit start base : Nat} {ahead : List Char} {result : Except ReadError (List Node)}
variable {after : Reader}

theorem forward (returned : Returns limit start base ahead result after) : start ≤ after.offset := by
  cases returned <;> exact Nat.le_add_right _ _

theorem depth_of_ok (returned : Returns limit start base ahead result after) {nodes : List Node}
    (succeeded : result = .ok nodes) : after.depth = base := by
  cases returned with
  | ok unclosed => rfl
  | error split place bounded left => cases succeeded

theorem of_error (returned : Returns limit start base ahead result after) {error : ReadError}
    (failed : result = .error error) :
    ∃ entered refused, ahead = entered ++ (refused ++ after.ahead) ∧
      Within start entered error.offset ∧ after.offset = start + utf8Len (entered ++ refused) ∧
      after.depth = base + (lex entered).unclosed ∧ Refused error.cause refused := by
  cases returned with
  | ok unclosed => cases failed
  | error split place bounded left =>
      obtain rfl := Except.error.inj failed
      exact ⟨_, _, split, place, rfl, rfl, left⟩

end Returns

section

variable {limit start base : Nat} {text : List Char} {progress : Progress}

theorem returns_of_finish (walk : Walk limit start base text progress) :
    Returns limit start base text progress.finish ⟨[], progress.offset, progress.depth, limit⟩ := by
  have finished := walk.finish
  cases ended : progress.finish with
  | ok nodes =>
      rw [ended] at finished
      have closed : progress.enclosing.length = 0 := congrArg List.length finished
      have depth : progress.depth = base := walk.depth.trans (by rw [closed]; rfl)
      rw [walk.offset, depth]
      exact .ok (walk.unclosed.trans closed)
  | error error =>
      rw [ended] at finished
      have stopped : Returns limit start base text (.error error)
          ⟨[], start + utf8Len (text ++ []), base + (lex text).unclosed, limit⟩ :=
        .error (by simp) finished.1 (walk.depth_eq ▸ walk.bounded) (.inr ⟨rfl, finished.2⟩)
      rwa [List.append_nil, ← walk.offset, ← walk.depth_eq] at stopped

theorem returns_of_stop (walk : Walk limit start base text progress) {character : Char}
    {error : ReadError} (failed : progress.step limit character = .error error) (rest : List Char) :
    Returns limit start base (text ++ character :: rest) (stop limit progress character rest error).1
      (stop limit progress character rest error).2 := by
  have place : Within start text error.offset := by
    have stepped := walk.step character
    rwa [failed] at stepped
  have bounded := walk.depth_eq ▸ walk.bounded
  unfold stop
  split
  · rename_i most cause
    obtain ⟨bracket, rfl⟩ := bracket_of_step failed cause
    have stopped : Returns limit start base (text ++ bracket.opening :: rest) (.error error)
        ⟨rest, start + utf8Len (text ++ [bracket.opening]), base + (lex text).unclosed, limit⟩ :=
      .error rfl place bounded (.inl ⟨bracket, most, rfl, cause⟩)
    rw [String.utf8Len_append, ← Nat.add_assoc, ← walk.offset, ← walk.depth_eq] at stopped
    simpa using stopped
  · rename_i shallow
    have stopped : Returns limit start base (text ++ character :: rest) (.error error)
        ⟨character :: rest, start + utf8Len (text ++ []), base + (lex text).unclosed, limit⟩ :=
      .error rfl place bounded (.inr ⟨rfl, shallow⟩)
    rwa [List.append_nil, ← walk.offset, ← walk.depth_eq] at stopped

theorem returns_of_walk {ahead : List Char} (walk : Walk limit start base text progress) :
    Returns limit start base (text ++ ahead) (run limit progress ahead).1
      (run limit progress ahead).2 := by
  induction ahead generalizing text progress with
  | nil =>
      rw [List.append_nil]
      exact returns_of_finish walk
  | cons character rest inductionHypothesis =>
      cases once : progress.step limit character with
      | ok next =>
          have stepped := walk.step character
          rw [once] at stepped
          rw [run_of_step once]
          have later := inductionHypothesis stepped
          rwa [List.append_assoc] at later
      | error error =>
          rw [run_of_error once]
          exact returns_of_stop walk once rest

end

/-- What one call does, wherever the calls before have left the reader. -/
theorem returns_of_readAll {reader : Reader} (bounded : reader.depth ≤ reader.limit) :
    Returns reader.limit reader.offset reader.depth reader.ahead reader.readAll.1 reader.readAll.2 :=
  returns_of_walk (Walk.first bounded)

/-- The reader after so many calls, each of which may have ended in an error. -/
def afterCalls : Nat → Reader → Reader
  | 0, reader => reader
  | calls + 1, reader => (reader.afterCalls calls).readAll.2

/-- A reader of a source stands between two characters of it, within its limit. -/
structure Reads (source : String) (most : Nat) (reader : Reader) : Prop where
  split : ∃ behind, source.toList = behind ++ reader.ahead ∧ reader.offset = utf8Len behind
  limit : reader.limit = most
  bounded : reader.depth ≤ most

namespace Reads

variable {source : String} {most : Nat} {reader : Reader}

theorem returns (reads : Reads source most reader) :
    Returns most reader.offset reader.depth reader.ahead reader.readAll.1 reader.readAll.2 := by
  have returned := @returns_of_readAll reader (reads.limit ▸ reads.bounded)
  rwa [reads.limit] at returned

theorem next (reads : Reads source most reader) : Reads source most reader.readAll.2 := by
  obtain ⟨behind, split, place⟩ := reads.split
  have returned := reads.returns
  generalize reader.readAll.1 = result at returned
  generalize reader.readAll.2 = after at returned
  cases returned with
  | ok unclosed =>
      refine ⟨⟨behind ++ reader.ahead, by simpa using split, ?_⟩, rfl, reads.bounded⟩
      rw [String.utf8Len_append, place]
  | @error error entered refused rest consumed within bounded left =>
      refine ⟨⟨behind ++ (entered ++ refused), ?_, ?_⟩, rfl, bounded⟩
      · simpa [consumed] using split
      · rw [String.utf8Len_append behind, place]

end Reads

theorem reads_afterCalls (source : String) (limit calls : Nat) :
    Reads source limit ((ofSource source limit).afterCalls calls) := by
  induction calls with
  | zero => exact ⟨⟨[], rfl, rfl⟩, rfl, Nat.zero_le limit⟩
  | succ calls inductionHypothesis => exact inductionHypothesis.next

end Reader
end FragmentLisp
