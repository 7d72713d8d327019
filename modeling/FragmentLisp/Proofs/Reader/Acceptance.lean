import FragmentLisp.Proofs.Reader.Steps

/-!
The reader takes every text that spells nodes. From a point between two tokens, going through such a text
adds its nodes to the innermost open level and changes nothing else, whatever is open around it.
-/

open String (utf8Len)

namespace FragmentLisp
namespace Reader

section
variable {limit depth : Nat} {level : List Node} {enclosing : List OpenForm}

theorem run_comment {body : List Char} (line : '\n' ∉ body) (offset : Nat) (after : List Char) :
    run limit ⟨offset, depth, level, enclosing, .comment⟩ (body ++ after) =
      run limit ⟨offset + utf8Len body, depth, level, enclosing, .comment⟩ after := by
  induction body generalizing offset with
  | nil => rfl
  | cons character body inductionHypothesis =>
      obtain ⟨noLine, line⟩ := not_or.mp (mt List.mem_cons.mpr line)
      rw [List.cons_append, run_in_comment (Ne.symm noLine), inductionHypothesis line,
        String.utf8Len_cons, Nat.add_assoc, Nat.add_comm character.utf8Size]

theorem run_characters {text : List Char} (plain : ∀ character ∈ text, character ∉ delimiters)
    (offset start : Nat) (characters after : List Char) :
    run limit ⟨offset, depth, level, enclosing, .atom start characters⟩ (text ++ after) =
      run limit ⟨offset + utf8Len text, depth, level, enclosing,
        .atom start (text.reverse ++ characters)⟩ after := by
  induction text generalizing offset characters with
  | nil => rfl
  | cons character text inductionHypothesis =>
      obtain ⟨noDelimiter, plain⟩ := List.forall_mem_cons.mp plain
      rw [List.cons_append, run_in_atom noDelimiter, inductionHypothesis plain, String.utf8Len_cons,
        Nat.add_assoc, Nat.add_comm character.utf8Size, List.reverse_cons, List.append_assoc,
        List.singleton_append]

theorem run_text {text : List Char} (nonempty : text ≠ [])
    (plain : ∀ character ∈ text, character ∉ delimiters) (offset : Nat) (after : List Char) :
    run limit ⟨offset, depth, level, enclosing, .nothing⟩ (text ++ after) =
      run limit ⟨offset + utf8Len text, depth, level, enclosing, .atom offset text.reverse⟩ after := by
  obtain ⟨first, others, rfl⟩ := List.exists_cons_of_ne_nil nonempty
  obtain ⟨firstPlain, othersPlain⟩ := List.forall_mem_cons.mp plain
  have stop : offset + first.utf8Size + utf8Len others = offset + utf8Len (first :: others) := by
    rw [String.utf8Len_cons]
    omega
  rw [List.cons_append, run_plain firstPlain, run_characters othersPlain, stop, List.reverse_cons]

theorem run_atom {text : List Char} {offset : Nat} {node : Node}
    (atomic : Atomic text ⟨offset, utf8Len text⟩ node) {after : List Char} (ends : Ends after) :
    run limit ⟨offset, depth, level, enclosing, .nothing⟩ (text ++ after) =
      run limit ⟨offset + utf8Len text, depth, node :: level, enclosing, .nothing⟩ after := by
  rw [run_text atomic.nonempty atomic.plain]
  refine run_finishAtom ?_ ends
  rw [List.reverse_reverse, Nat.add_sub_cancel_left]
  exact node?_of_atomic atomic

theorem run_string {meant written : List Char} (quoted : Quoted meant written)
    (offset start : Nat) (characters after : List Char) :
    run limit ⟨offset, depth, level, enclosing, .string start characters⟩ (written ++ after) =
      run limit ⟨offset + utf8Len written, depth, level, enclosing,
        .string start (meant.reverse ++ characters)⟩ after := by
  induction quoted generalizing offset characters with
  | nothing => rfl
  | @plain character meant written noQuote noBackslash tail inductionHypothesis =>
      rw [List.cons_append, run_in_string noQuote noBackslash, inductionHypothesis,
        String.utf8Len_cons, Nat.add_assoc, Nat.add_comm character.utf8Size, List.reverse_cons,
        List.append_assoc, List.singleton_append]
  | @escaped character mark meant written escape tail inductionHypothesis =>
      have length : utf8Len ('\\' :: mark :: written) = utf8Len written + 1 + 1 := by
        rw [String.utf8Len_cons, String.utf8Len_cons, utf8Size_of_escape escape]
        rfl
      have stop : offset + 1 + 1 + utf8Len written = offset + (utf8Len written + 1 + 1) := by omega
      rw [List.cons_append, List.cons_append, run_backslash, run_escape escape, inductionHypothesis,
        length, stop, List.reverse_cons, List.append_assoc, List.singleton_append]

end

/-- From a point between two tokens, where it may have room for the nodes of a text, the reader goes
through the text and adds its nodes to the innermost open level. -/
theorem run_of_spells {limit start : Nat} {text : List Char} {nodes : List Node}
    (spells : Spells start text nodes) {depth : Nat}
    (shallow : ∀ node ∈ nodes, depth + node.nesting ≤ limit) (level : List Node)
    (enclosing : List OpenForm) {after : List Char} (ends : Ends after) :
    run limit ⟨start, depth, level, enclosing, .nothing⟩ (text ++ after) =
      run limit ⟨start + utf8Len text, depth, nodes.reverse ++ level, enclosing, .nothing⟩
        after := by
  -- Within a form the depth, the level and what is open are others, so all of them stay general.
  induction spells generalizing depth level enclosing after with
  | nothing => rfl
  | @blank start character rest nodes blank tail inductionHypothesis =>
      rw [List.cons_append, run_blank blank, inductionHypothesis shallow _ _ ends,
        utf8Len_of_blank blank, Nat.add_assoc, Nat.add_comm 1]
  | @comment start body rest nodes line tail inductionHypothesis =>
      have stop : start + 1 + utf8Len body + 1 = start + (utf8Len body + 2) := by omega
      have length := @utf8Len_enclosed_append ';' '\n' rfl rfl body rest
      rw [List.cons_append, List.append_assoc, run_semicolon, run_comment line, List.cons_append,
        run_line_feed, stop, inductionHypothesis shallow _ _ ends, length, Nat.add_assoc start]
  | @atom start text rest node nodes atomic separated tail inductionHypothesis =>
      obtain ⟨_, shallow⟩ := List.forall_mem_cons.mp shallow
      rw [List.append_assoc, run_atom atomic (separated.append ends),
        inductionHypothesis shallow _ _ ends, String.utf8Len_append, Nat.add_assoc,
        List.reverse_cons, List.append_assoc, List.singleton_append]
  | @string start meant written rest nodes quoted tail inductionHypothesis =>
      obtain ⟨_, shallow⟩ := List.forall_mem_cons.mp shallow
      have stop : start + 1 + utf8Len written + 1 = start + (utf8Len written + 2) := by omega
      have length := @utf8Len_enclosed_append '"' '"' rfl rfl written rest
      rw [List.cons_append, List.append_assoc, run_quote, run_string quoted, List.cons_append,
        run_closing_quote, stop, inductionHypothesis shallow _ _ ends, length, Nat.add_assoc start,
        Nat.add_sub_cancel_left, List.append_nil, List.reverse_reverse, List.reverse_cons,
        List.append_assoc, List.singleton_append]
  | @form start bracket inside rest items nodes within tail innerHypothesis outerHypothesis =>
      obtain ⟨below, shallow⟩ := List.forall_mem_cons.mp shallow
      rw [Bracket.nesting_node] at below
      have room : depth < limit := by omega
      have innerShallow : ∀ item ∈ items, depth + 1 + item.nesting ≤ limit := by
        intro item member
        have deep := Node.nesting_le_nestingAll member
        omega
      have stop : start + 1 + utf8Len inside + 1 = start + (utf8Len inside + 2) := by omega
      have length :=
        utf8Len_enclosed_append bracket.utf8Size_opening bracket.utf8Size_closing inside rest
      rw [List.cons_append, List.append_assoc, run_opening bracket room, List.cons_append,
        innerHypothesis innerShallow _ _ (.cons (closing_mem_delimiters bracket)), run_closing,
        stop, Nat.add_sub_cancel, Nat.add_sub_cancel_left,
        outerHypothesis shallow _ _ ends, length, Nat.add_assoc start, List.append_nil,
        List.reverse_reverse, List.reverse_cons, List.append_assoc, List.singleton_append]

theorem finish_of_lastComment {limit offset depth : Nat} {level : List Node} {ending : List Char}
    (last : LastComment ending) :
    (run limit ⟨offset, depth, level, [], .nothing⟩ ending).1 = .ok level.reverse := by
  rcases last with rfl | ⟨body, rfl, line⟩
  · rfl
  · rw [run_semicolon, ← List.append_nil body, run_comment line]
    rfl

theorem LastComment.ends {ending : List Char} (last : LastComment ending) : Ends ending := by
  rcases last with rfl | ⟨body, rfl, -⟩
  · exact .nil
  · exact .cons (by decide)

/-- A source that spells nodes, of which none is too deep, is read as these nodes. -/
theorem read_of_spells {source : String} {limit : Nat} {text ending : List Char} {nodes : List Node}
    (shape : source.toList = text ++ ending) (spells : Spells 0 text nodes)
    (last : LastComment ending) (shallow : ∀ node ∈ nodes, node.depth ≤ limit) :
    read source limit = .ok nodes := by
  have shallow : ∀ node ∈ nodes, 0 + node.nesting ≤ limit := by
    intro node member
    rw [Nat.zero_add, ← Node.depth_eq_nesting]
    exact shallow node member
  show (run limit ⟨0, 0, [], [], .nothing⟩ source.toList).1 = .ok nodes
  rw [shape, run_of_spells spells shallow [] [] last.ends, finish_of_lastComment last,
    List.append_nil, List.reverse_reverse]

end Reader
end FragmentLisp
