import FragmentLisp.Proofs.Reader.Atom

/-!
What the reader does at one character: an equation for each token it can be in the middle of and each
kind of character that goes on with the token, ends it or begins the next one.
-/

open String (utf8Len)

namespace FragmentLisp
namespace Reader

theorem escaped?_eq_some_iff {mark meant : Char} :
    Progress.escaped? mark = some meant ↔ Escape meant mark := by
  constructor
  · intro known
    unfold Progress.escaped? at known
    split at known <;> cases known
    · exact .newline
    · exact .tab
    · exact .carriageReturn
    · exact .quote
    · exact .backslash
  · rintro (_ | _ | _ | _ | _) <;> rfl

theorem utf8Size_of_escape {mark meant : Char} (escape : Escape meant mark) : mark.utf8Size = 1 := by
  cases escape <;> rfl

def beginning : Progress :=
  ⟨0, 0, [], [], .nothing⟩

theorem read_eq (source : String) (limit : Nat) :
    read source limit = (run limit beginning source.toList).1 :=
  rfl

theorem character_cases (character : Char) :
    character ∈ blanks ∨ character = ';' ∨ character = '"' ∨
      (∃ bracket : Bracket, character = bracket.opening) ∨
      (∃ bracket : Bracket, character = bracket.closing) ∨ character ∉ delimiters := by
  by_cases delimiter : character ∈ delimiters
  · rcases List.mem_append.mp delimiter with blank | other
    · exact .inl blank
    · simp only [List.mem_cons, List.not_mem_nil, or_false] at other
      rcases other with rfl | rfl | rfl | rfl | rfl | rfl
      · exact .inr (.inr (.inr (.inl ⟨.round, rfl⟩)))
      · exact .inr (.inr (.inr (.inr (.inl ⟨.round, rfl⟩))))
      · exact .inr (.inr (.inr (.inl ⟨.square, rfl⟩)))
      · exact .inr (.inr (.inr (.inr (.inl ⟨.square, rfl⟩))))
      · exact .inr (.inr (.inl rfl))
      · exact .inr (.inl rfl)
  · exact .inr (.inr (.inr (.inr (.inr delimiter))))

theorem run_of_step {limit : Nat} {progress next : Progress} {character : Char} {rest : List Char}
    (stepped : progress.step limit character = .ok next) :
    run limit progress (character :: rest) = run limit next rest := by
  rw [run, stepped]

section
variable {limit offset depth start : Nat} {level : List Node} {enclosing : List OpenForm}
  {character : Char} {characters rest : List Char}

/-! Between two tokens. -/

theorem run_blank (blank : character ∈ blanks) :
    run limit ⟨offset, depth, level, enclosing, .nothing⟩ (character :: rest) =
      run limit ⟨offset + 1, depth, level, enclosing, .nothing⟩ rest := by
  refine run_of_step ?_
  have size := utf8Size_of_delimiter (delimiter_of_blank blank)
  simp only [Progress.step, Progress.begin, Progress.advance, isBlank_iff.mpr blank, size, if_true]

theorem run_semicolon :
    run limit ⟨offset, depth, level, enclosing, .nothing⟩ (';' :: rest) =
      run limit ⟨offset + 1, depth, level, enclosing, .comment⟩ rest :=
  rfl

theorem run_quote :
    run limit ⟨offset, depth, level, enclosing, .nothing⟩ ('"' :: rest) =
      run limit ⟨offset + 1, depth, level, enclosing, .string offset []⟩ rest :=
  rfl

theorem begin_plain (plain : character ∉ delimiters) (progress : Progress) :
    progress.begin limit character =
      .ok ({ progress with pending := .atom progress.offset [character] }.advance character) := by
  have noBlank : isBlank character = false := by
    rw [Bool.eq_false_iff]
    exact fun blank => plain (delimiter_of_blank (isBlank_iff.mp blank))
  simp only [delimiters, List.mem_append, List.mem_cons, List.not_mem_nil, or_false, not_or] at plain
  simp [Progress.begin, noBlank, plain]

theorem run_plain (plain : character ∉ delimiters) :
    run limit ⟨offset, depth, level, enclosing, .nothing⟩ (character :: rest) =
      run limit ⟨offset + character.utf8Size, depth, level, enclosing, .atom offset [character]⟩
        rest :=
  run_of_step (begin_plain plain _)

theorem step_opening (bracket : Bracket) (progress : Progress) (between : progress.pending = .nothing) :
    progress.step limit bracket.opening =
      (progress.openForm limit bracket).map (·.advance bracket.opening) := by
  rw [Progress.step, between]
  cases bracket <;> rfl

theorem step_closing (bracket : Bracket) (progress : Progress) (between : progress.pending = .nothing) :
    progress.step limit bracket.closing =
      (progress.closeForm bracket).map (·.advance bracket.closing) := by
  rw [Progress.step, between]
  cases bracket <;> rfl

theorem run_opening (bracket : Bracket) (room : depth < limit) :
    run limit ⟨offset, depth, level, enclosing, .nothing⟩ (bracket.opening :: rest) =
      run limit ⟨offset + 1, depth + 1, [], ⟨bracket, offset, level⟩ :: enclosing, .nothing⟩ rest := by
  refine run_of_step ?_
  rw [step_opening bracket _ rfl, Progress.openForm, if_neg (Nat.not_le.mpr room), Except.map,
    Progress.advance, Bracket.utf8Size_opening]

theorem run_closing (bracket : Bracket) (before : List Node) :
    run limit ⟨offset, depth, level, ⟨bracket, start, before⟩ :: enclosing, .nothing⟩
        (bracket.closing :: rest) =
      run limit ⟨offset + 1, depth - 1,
        bracket.node level.reverse ⟨start, offset + 1 - start⟩ :: before, enclosing, .nothing⟩
        rest := by
  cases bracket <;> rfl

inductive Begins (limit : Nat) (progress : Progress) : Char → Except ReadError Progress → Prop
  | blank {character : Char} (blank : character ∈ blanks) :
      Begins limit progress character (.ok (progress.advance character))
  | comment : Begins limit progress ';' (.ok ({ progress with pending := .comment }.advance ';'))
  | string : Begins limit progress '"'
      (.ok ({ progress with pending := .string progress.offset [] }.advance '"'))
  | opening (bracket : Bracket) : Begins limit progress bracket.opening
      ((progress.openForm limit bracket).map (·.advance bracket.opening))
  | closing (bracket : Bracket) : Begins limit progress bracket.closing
      ((progress.closeForm bracket).map (·.advance bracket.closing))
  | atom {character : Char} (plain : character ∉ delimiters) : Begins limit progress character
      (.ok ({ progress with pending := .atom progress.offset [character] }.advance character))

theorem begins (limit : Nat) (progress : Progress) (character : Char) :
    Begins limit progress character (progress.begin limit character) := by
  rcases character_cases character with
    blank | rfl | rfl | ⟨bracket, rfl⟩ | ⟨bracket, rfl⟩ | plain
  · rw [Progress.begin, if_pos (isBlank_iff.mpr blank)]
    exact .blank blank
  · exact .comment
  · exact .string
  · have opened : progress.begin limit bracket.opening =
        (progress.openForm limit bracket).map (·.advance bracket.opening) := by
      cases bracket <;> rfl
    rw [opened]
    exact .opening bracket
  · have closed : progress.begin limit bracket.closing =
        (progress.closeForm bracket).map (·.advance bracket.closing) := by
      cases bracket <;> rfl
    rw [closed]
    exact .closing bracket
  · rw [begin_plain plain]
    exact .atom plain

/-! Within a token. -/

theorem run_in_comment (line : character ≠ '\n') :
    run limit ⟨offset, depth, level, enclosing, .comment⟩ (character :: rest) =
      run limit ⟨offset + character.utf8Size, depth, level, enclosing, .comment⟩ rest :=
  run_of_step (if_neg line)

theorem run_line_feed :
    run limit ⟨offset, depth, level, enclosing, .comment⟩ ('\n' :: rest) =
      run limit ⟨offset + 1, depth, level, enclosing, .nothing⟩ rest :=
  rfl

theorem run_in_atom (plain : character ∉ delimiters) :
    run limit ⟨offset, depth, level, enclosing, .atom start characters⟩ (character :: rest) =
      run limit ⟨offset + character.utf8Size, depth, level, enclosing,
        .atom start (character :: characters)⟩ rest :=
  run_of_step (if_neg (mt isDelimiter_iff.mp plain))

theorem run_in_string (noQuote : character ≠ '"') (noBackslash : character ≠ '\\') :
    run limit ⟨offset, depth, level, enclosing, .string start characters⟩ (character :: rest) =
      run limit ⟨offset + character.utf8Size, depth, level, enclosing,
        .string start (character :: characters)⟩ rest :=
  run_of_step ((if_neg noBackslash).trans (if_neg noQuote))

theorem run_closing_quote :
    run limit ⟨offset, depth, level, enclosing, .string start characters⟩ ('"' :: rest) =
      run limit ⟨offset + 1, depth,
        .string (String.ofList characters.reverse) ⟨start, offset + 1 - start⟩ :: level, enclosing,
        .nothing⟩ rest :=
  rfl

theorem run_backslash :
    run limit ⟨offset, depth, level, enclosing, .string start characters⟩ ('\\' :: rest) =
      run limit ⟨offset + 1, depth, level, enclosing, .escape start characters⟩ rest :=
  rfl

theorem run_escape {meant : Char} (escape : Escape meant character) :
    run limit ⟨offset, depth, level, enclosing, .escape start characters⟩ (character :: rest) =
      run limit ⟨offset + 1, depth, level, enclosing, .string start (meant :: characters)⟩ rest := by
  cases escape <;> rfl

/-! At the end of an atom. -/

theorem finishAtom_of_node? {node : Node}
    (taken : (Atom.ofText characters.reverse).node? ⟨start, offset - start⟩ = some node) :
    Progress.finishAtom ⟨offset, depth, level, enclosing, .atom start characters⟩ =
      .ok ⟨offset, depth, node :: level, enclosing, .nothing⟩ := by
  rw [Progress.finishAtom]
  cases atom : Atom.ofText characters.reverse with
  | number value =>
      rw [atom] at taken
      cases taken
      simp only [atom]
      rfl
  | symbol name =>
      rw [atom] at taken
      cases taken
      simp only [atom]
      rfl
  | outOfRange literal =>
      rw [atom] at taken
      cases taken

/-- At the end of an atom, the reader goes on as if the atom's node had been read before. -/
theorem run_finishAtom {node : Node}
    (taken : (Atom.ofText characters.reverse).node? ⟨start, offset - start⟩ = some node)
    (ends : Ends rest) :
    run limit ⟨offset, depth, level, enclosing, .atom start characters⟩ rest =
      run limit ⟨offset, depth, node :: level, enclosing, .nothing⟩ rest := by
  have finished :
      Progress.finishAtom ⟨offset, depth, level, enclosing, .atom start characters⟩ =
        .ok ⟨offset, depth, node :: level, enclosing, .nothing⟩ :=
    finishAtom_of_node? taken
  cases rest with
  | nil =>
      rw [run, run, Progress.finish, finished]
      rfl
  | cons character rest =>
      have delimiter : isDelimiter character = true := isDelimiter_iff.mpr (ends character rfl)
      have same :
          Progress.step limit ⟨offset, depth, level, enclosing, .atom start characters⟩ character =
            Progress.step limit ⟨offset, depth, node :: level, enclosing, .nothing⟩ character := by
        -- The character that ends the atom is looked at again, as one between two tokens.
        refine (if_pos delimiter).trans ?_
        rw [finished]
        rfl
      rw [run, run, same]
      rfl

end

end Reader
end FragmentLisp
