import FragmentLisp.Proofs.Node.Respan
import FragmentLisp.Proofs.Reader.Resumption
import FragmentLisp.Proofs.Reader.Spans

/-!
A source with something before it. The reader does the same from a later offset on: each step comes out as
before, with all places moved, and so does a whole run. Blanks and comments before a source move its places
and do nothing else.
-/

open String (utf8Len)

namespace FragmentLisp

def ReadError.shift (distance : Nat) (error : ReadError) : ReadError :=
  { error with offset := error.offset + distance }

namespace Reader

def Pending.shift (distance : Nat) : Pending → Pending
  | nothing => nothing
  | comment => comment
  | atom start characters => atom (start + distance) characters
  | string start characters => string (start + distance) characters
  | escape start characters => escape (start + distance) characters

def OpenForm.shift (distance : Nat) (form : OpenForm) : OpenForm :=
  { bracket := form.bracket
    start := form.start + distance
    before := form.before.map (Node.shift distance) }

def Progress.shift (distance : Nat) (progress : Progress) : Progress :=
  { offset := progress.offset + distance
    depth := progress.depth
    level := progress.level.map (Node.shift distance)
    enclosing := progress.enclosing.map (OpenForm.shift distance)
    pending := progress.pending.shift distance }

def shiftOutcome {Result : Type} (move : Result → Result) (distance : Nat) :
    Except ReadError Result → Except ReadError Result
  | .ok result => .ok (move result)
  | .error error => .error (error.shift distance)

section
variable {limit distance : Nat}

namespace Progress

theorem advance_shift (progress : Progress) (character : Char) :
    (progress.shift distance).advance character = (progress.advance character).shift distance := by
  simp only [advance, shift, Nat.add_right_comm]

theorem shiftOutcome_advance (outcome : Except ReadError Progress) (character : Char) :
    (shiftOutcome (shift distance) distance outcome).map (·.advance character) =
      shiftOutcome (shift distance) distance (outcome.map (·.advance character)) := by
  cases outcome with
  | error error => rfl
  | ok progress => exact congrArg Except.ok (advance_shift progress character)

theorem push_shift (progress : Progress) (node : Node) :
    (progress.push node).shift distance = (progress.shift distance).push (node.shift distance) :=
  rfl

theorem finishAtom_shift (progress : Progress) :
    (progress.shift distance).finishAtom =
      shiftOutcome (shift distance) distance progress.finishAtom := by
  obtain ⟨offset, depth, level, enclosing, pending⟩ := progress
  cases pending with
  | atom start characters =>
      simp only [finishAtom, shift, Pending.shift]
      cases Atom.ofText characters.reverse with
      | outOfRange literal => rfl
      | number value =>
          simp [shiftOutcome, push, shift, Pending.shift, Node.shift, Node.respan,
            Nat.add_sub_add_right]
      | symbol name =>
          simp [shiftOutcome, push, shift, Pending.shift, Node.shift, Node.respan,
            Nat.add_sub_add_right]
  | _ => rfl

theorem openForm_shift (bracket : Bracket) (progress : Progress) :
    (progress.shift distance).openForm limit bracket =
      shiftOutcome (shift distance) distance (progress.openForm limit bracket) := by
  by_cases deep : limit ≤ progress.depth
  · simp [openForm, shift, deep, shiftOutcome, ReadError.shift]
  · simp [openForm, shift, deep, shiftOutcome, OpenForm.shift]

theorem closeForm_shift (bracket : Bracket) (progress : Progress) :
    (progress.shift distance).closeForm bracket =
      shiftOutcome (shift distance) distance (progress.closeForm bracket) := by
  obtain ⟨offset, depth, level, enclosing, pending⟩ := progress
  cases enclosing with
  | nil => rfl
  | cons innermost enclosing =>
      have length : offset + distance + 1 - (innermost.start + distance) =
          offset + 1 - innermost.start := by omega
      by_cases same : innermost.bracket = bracket
      · cases bracket <;>
          simp [closeForm, shift, OpenForm.shift, same, shiftOutcome, Node.shift, Node.respan_list,
            Node.respan_vector, length]
      · simp [closeForm, shift, OpenForm.shift, same, shiftOutcome, ReadError.shift]

theorem pending_shift (progress : Progress) (character : Char) (pending : Pending) :
    ({ progress.shift distance with pending := pending.shift distance }.advance character) =
      ({ progress with pending }.advance character).shift distance :=
  advance_shift { progress with pending } character

theorem begin_shift (progress : Progress) (character : Char) :
    (progress.shift distance).begin limit character =
      shiftOutcome (shift distance) distance (progress.begin limit character) := by
  have goOn := @pending_shift distance progress character
  unfold begin
  simp only [openForm_shift, closeForm_shift, shiftOutcome_advance]
  split_ifs
  · exact congrArg Except.ok (advance_shift progress character)
  · exact congrArg Except.ok (goOn .comment)
  · rfl
  · rfl
  · rfl
  · rfl
  · exact congrArg Except.ok (goOn (.string progress.offset []))
  · exact congrArg Except.ok (goOn (.atom progress.offset [character]))

/-- A step comes out the same as far into the source again. The backslash that an unknown escape is
reported at lies one byte back, so there has to be one. -/
theorem step_shift (progress : Progress) (behind : progress.pending.zone = .escape → 0 < progress.offset)
    (character : Char) :
    (progress.shift distance).step limit character =
      shiftOutcome (shift distance) distance (progress.step limit character) := by
  have goOn := @pending_shift distance progress character
  cases pending : progress.pending with
  | nothing =>
      have shifted : (progress.shift distance).pending = .nothing := congrArg (Pending.shift _) pending
      rw [step, step, pending, shifted]
      exact begin_shift progress character
  | comment =>
      have shifted : (progress.shift distance).pending = .comment := congrArg (Pending.shift _) pending
      rw [step, step, pending, shifted]
      simp only
      split
      · exact congrArg Except.ok (goOn .nothing)
      · exact congrArg Except.ok (advance_shift progress character)
  | atom start characters =>
      have shifted : (progress.shift distance).pending = .atom (start + distance) characters :=
        congrArg (Pending.shift _) pending
      rw [step, step, pending, shifted]
      simp only [finishAtom_shift]
      split
      · cases progress.finishAtom with
        | error error => rfl
        | ok finished => exact begin_shift finished character
      · exact congrArg Except.ok (goOn (.atom start (character :: characters)))
  | string start characters =>
      have shifted : (progress.shift distance).pending = .string (start + distance) characters :=
        congrArg (Pending.shift _) pending
      rw [step, step, pending, shifted]
      simp only
      split
      · exact congrArg Except.ok (goOn (.escape start characters))
      · split
        · have length : progress.offset + distance + 1 - (start + distance) =
              progress.offset + 1 - start := by omega
          refine congrArg Except.ok ?_
          rw [← advance_shift, push_shift, Node.shift, Node.respan, ← length]
          rfl
        · exact congrArg Except.ok (goOn (.string start (character :: characters)))
  | escape start characters =>
      have shifted : (progress.shift distance).pending = .escape (start + distance) characters :=
        congrArg (Pending.shift _) pending
      rw [step, step, pending, shifted]
      simp only
      cases escaped? character with
      | some meant => exact congrArg Except.ok (goOn (.string start (meant :: characters)))
      | none =>
          have back : progress.offset + distance - 1 = progress.offset - 1 + distance := by
            have here := behind (by rw [pending]; rfl)
            omega
          simp only [shiftOutcome, ReadError.shift, ← back]
          rfl

def closed (progress : Progress) : Except ReadError (List Node) :=
  match progress.enclosing with
  | [] => .ok progress.level.reverse
  | innermost :: _ => .error ⟨.unclosed, innermost.start⟩

theorem closed_shift (progress : Progress) :
    (progress.shift distance).closed =
      shiftOutcome (List.map (Node.shift distance)) distance progress.closed := by
  obtain ⟨offset, depth, level, enclosing, pending⟩ := progress
  cases enclosing with
  | nil => simp [closed, shift, shiftOutcome]
  | cons innermost enclosing => rfl

theorem finish_shift (progress : Progress) :
    (progress.shift distance).finish =
      shiftOutcome (List.map (Node.shift distance)) distance progress.finish := by
  obtain ⟨offset, depth, level, enclosing, pending⟩ := progress
  cases pending with
  | string start characters => rfl
  | escape start characters => rfl
  | nothing => exact closed_shift ⟨offset, depth, level, enclosing, .nothing⟩
  | comment => exact closed_shift ⟨offset, depth, level, enclosing, .comment⟩
  | atom start characters =>
      let progress : Progress := ⟨offset, depth, level, enclosing, .atom start characters⟩
      show (progress.shift distance).finishAtom.bind closed =
        shiftOutcome (List.map (Node.shift distance)) distance (progress.finishAtom.bind closed)
      rw [finishAtom_shift]
      cases progress.finishAtom with
      | error error => rfl
      | ok finished => exact closed_shift finished

end Progress

/-- An escape is only ever read behind its backslash. -/
theorem Walk.behind {start base : Nat} {text : List Char} {progress : Progress}
    (walk : Walk limit start base text progress) (escape : progress.pending.zone = .escape) :
    0 < progress.offset := by
  have zone := walk.zone.trans escape
  rw [walk.offset]
  cases text with
  | nil => cases zone
  | cons character text =>
      have positive := character.utf8Size_pos
      rw [String.utf8Len_cons]
      omega

theorem run_shift {start base : Nat} {text : List Char} {progress : Progress}
    (walk : Walk limit start base text progress) (ahead : List Char) :
    (run limit (progress.shift distance) ahead).1 =
      shiftOutcome (List.map (Node.shift distance)) distance (run limit progress ahead).1 := by
  induction ahead generalizing text progress with
  | nil => exact progress.finish_shift
  | cons character rest inductionHypothesis =>
      have moved := @Progress.step_shift limit distance progress walk.behind character
      have walked := walk.step character
      cases stepped : progress.step limit character with
      | ok next =>
          rw [stepped] at moved walked
          rw [run_of_step stepped, run_of_step moved]
          exact inductionHypothesis walked
      | error error =>
          rw [stepped] at moved
          rw [run_of_error stepped, run_of_error moved, error_of_stop, error_of_stop]
          rfl

/-- Blanks and comments change nothing but the offset. -/
theorem run_trivia {gap : List Char} (trivia : Trivia gap) {depth : Nat} {level : List Node}
    {enclosing : List OpenForm} (offset : Nat) (after : List Char) :
    run limit ⟨offset, depth, level, enclosing, .nothing⟩ (gap ++ after) =
      run limit ⟨offset + utf8Len gap, depth, level, enclosing, .nothing⟩ after := by
  induction trivia generalizing offset with
  | nothing => rfl
  | blank blank tail inductionHypothesis =>
      rw [List.cons_append, run_blank blank, inductionHypothesis, utf8Len_of_blank blank, Nat.add_assoc,
        Nat.add_comm 1]
  | @comment body rest line tail inductionHypothesis =>
      have stop : offset + 1 + utf8Len body + 1 = offset + (utf8Len body + 2) := by omega
      rw [List.cons_append, List.append_assoc, run_semicolon, run_comment line, List.cons_append,
        run_line_feed, inductionHypothesis, stop, @utf8Len_enclosed_append ';' '\n' rfl rfl,
        Nat.add_assoc offset]

end

/-- A source behind blanks and comments is read as it is without them, only later. -/
theorem read_behind_trivia {trivia : String} (blank : Trivia trivia.toList) (source : String)
    (limit : Nat) :
    read (trivia ++ source) limit =
      shiftOutcome (List.map (Node.shift trivia.utf8ByteSize)) trivia.utf8ByteSize
        (read source limit) := by
  have walk : Walk limit 0 0 [] beginning := Walk.first (Nat.zero_le limit)
  have through : run limit beginning (trivia.toList ++ source.toList) =
      run limit (beginning.shift trivia.utf8ByteSize) source.toList := by
    rw [beginning, run_trivia blank, String.utf8Len_toList]
    rfl
  rw [read_eq, read_eq, String.toList_append, through]
  exact run_shift walk source.toList

end Reader
end FragmentLisp
