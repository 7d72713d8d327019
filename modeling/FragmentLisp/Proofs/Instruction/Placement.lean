import FragmentLisp.Proofs.Instruction.Codec

/-!
Runs of instructions in code. A run is placed at an offset when each of its instructions decodes where
the ones before it end. The encoding of a run holds it from the first byte on, and a listing without a
failure lists such a run.
-/

namespace FragmentLisp

@[simp] theorem codeSize_nil : codeSize [] = 0 := rfl

@[simp] theorem codeSize_cons (instruction : Instruction) (rest : List Instruction) :
    codeSize (instruction :: rest) = instruction.size + codeSize rest := rfl

@[simp] theorem codeSize_append (left right : List Instruction) :
    codeSize (left ++ right) = codeSize left + codeSize right := by
  induction left with
  | nil => simp
  | cons instruction rest inductionHypothesis =>
      rw [List.cons_append, codeSize_cons, inductionHypothesis, codeSize_cons, Nat.add_assoc]

namespace Instruction

theorem mem_successors {offset next : Nat} {instruction : Instruction} :
    next ∈ instruction.successors offset ↔
      (instruction.fallsThrough = true ∧ next = offset + instruction.size) ∨
        instruction.jumpTarget? = some next := by
  rw [successors, List.mem_append, Option.mem_toList]
  refine or_congr_left ?_
  split <;> simp_all

def placed (base : Nat) : List Instruction → List (Nat × Instruction)
  | [] => []
  | instruction :: rest => (base, instruction) :: placed (base + instruction.size) rest

@[simp] theorem placed_append (base : Nat) (left right : List Instruction) :
    placed base (left ++ right) = placed base left ++ placed (base + codeSize left) right := by
  induction left generalizing base with
  | nil => simp [placed]
  | cons instruction rest inductionHypothesis =>
      simp [placed, inductionHypothesis, Nat.add_assoc]

theorem placed_within {base : Nat} {instructions : List Instruction} {entry : Nat × Instruction}
    (member : entry ∈ placed base instructions) :
    base ≤ entry.1 ∧ entry.1 + entry.2.size ≤ base + codeSize instructions := by
  induction instructions generalizing base with
  | nil => simp [placed] at member
  | cons instruction rest inductionHypothesis =>
      rw [placed, List.mem_cons] at member
      rw [codeSize_cons]
      rcases member with rfl | later
      · exact ⟨Nat.le_refl _, by dsimp only; omega⟩
      · have bounds := inductionHypothesis later
        omega

theorem placed_next {base : Nat} {instructions : List Instruction} {entry : Nat × Instruction}
    (member : entry ∈ placed base instructions) :
    (∃ following, (entry.1 + entry.2.size, following) ∈ placed base instructions) ∨
      entry.1 + entry.2.size = base + codeSize instructions := by
  induction instructions generalizing base with
  | nil => simp [placed] at member
  | cons instruction rest inductionHypothesis =>
      rw [placed, List.mem_cons] at member
      rcases member with rfl | later
      · cases rest with
        | nil => right; simp
        | cons following others =>
            left
            exact ⟨following, by simp [placed]⟩
      · rcases inductionHypothesis later with ⟨following, found⟩ | last
        · exact Or.inl ⟨following, by rw [placed]; exact List.mem_cons_of_mem _ found⟩
        · right
          rw [last, codeSize_cons, Nat.add_assoc]

theorem getLast_of_placed {base : Nat} {instructions : List Instruction} {entry : Nat × Instruction}
    (member : entry ∈ placed base instructions)
    (ended : entry.1 + entry.2.size = base + codeSize instructions) :
    instructions.getLast? = some entry.2 := by
  induction instructions generalizing base with
  | nil => simp [placed] at member
  | cons instruction rest inductionHypothesis =>
      rw [placed, List.mem_cons] at member
      rw [codeSize_cons] at ended
      cases rest with
      | nil =>
          obtain rfl := member.resolve_right List.not_mem_nil
          rfl
      | cons following others =>
          have positive := following.size_positive
          rw [List.getLast?_cons_cons]
          rcases member with rfl | later
          · rw [codeSize_cons] at ended
            simp only at ended
            omega
          · exact inductionHypothesis later (by omega)

theorem mem_of_placed {base : Nat} {instructions : List Instruction} {entry : Nat × Instruction}
    (member : entry ∈ placed base instructions) : entry.2 ∈ instructions := by
  induction instructions generalizing base with
  | nil => simp [placed] at member
  | cons instruction rest inductionHypothesis =>
      rw [placed, List.mem_cons] at member
      rcases member with rfl | later
      · exact List.mem_cons_self
      · exact List.mem_cons_of_mem _ (inductionHypothesis later)

theorem placed_instructions (base : Nat) (instructions : List Instruction) :
    (placed base instructions).map Prod.snd = instructions := by
  induction instructions generalizing base with
  | nil => rfl
  | cons instruction rest inductionHypothesis =>
      rw [placed, List.map_cons, inductionHypothesis]

@[simp] theorem placed_length (base : Nat) (instructions : List Instruction) :
    (placed base instructions).length = instructions.length := by
  rw [← List.length_map Prod.snd, placed_instructions]

def Holds (code : Array UInt8) (base : Nat) (instructions : List Instruction) : Prop :=
  ∀ entry ∈ placed base instructions,
    entry.1 < code.size ∧ decodeAt code entry.1 = .ok entry.2

namespace Holds

theorem nil (code : Array UInt8) (base : Nat) : Holds code base [] := by
  intro entry member
  simp [placed] at member

theorem cons_iff {code : Array UInt8} {base : Nat} {instruction : Instruction}
    {rest : List Instruction} :
    Holds code base (instruction :: rest) ↔
      (base < code.size ∧ decodeAt code base = .ok instruction) ∧
        Holds code (base + instruction.size) rest := by
  simp [Holds, placed]

theorem append_iff {code : Array UInt8} {base : Nat} {left right : List Instruction} :
    Holds code base (left ++ right) ↔
      Holds code base left ∧ Holds code (base + codeSize left) right := by
  simp only [Holds, placed_append, List.mem_append]
  exact ⟨fun all => ⟨fun entry member => all entry (Or.inl member),
      fun entry member => all entry (Or.inr member)⟩,
    fun both entry member => member.elim (both.1 entry) (both.2 entry)⟩

end Holds

theorem encodeAll_cons (instruction : Instruction) (rest : List Instruction) :
    encodeAll (instruction :: rest) = instruction.encode ++ encodeAll rest := by
  simp [encodeAll]

theorem encodeAll_length (instructions : List Instruction) :
    (encodeAll instructions).length = codeSize instructions := by
  induction instructions with
  | nil => rfl
  | cons instruction rest inductionHypothesis =>
      rw [encodeAll_cons, List.length_append, encode_length, inductionHypothesis, codeSize_cons]

theorem decodeAt_of_split {code : Array UInt8} {before after : List UInt8}
    {instruction : Instruction} (split : code.toList = before ++ (instruction.encode ++ after)) :
    decodeAt code before.length = .ok instruction := by
  have window : (code.extract before.length (before.length + maxSize)).toList =
      instruction.encode ++ after.take (maxSize - instruction.size) := by
    rw [Array.toList_extract, split, List.extract_eq_take_drop, List.drop_left,
      Nat.add_sub_cancel_left, List.take_append, encode_length,
      List.take_of_length_le (by rw [encode_length]; exact size_le_maxSize instruction)]
  rw [decodeAt, window, decode_encode]

theorem holds_of_split {code : Array UInt8} {before after : List UInt8}
    {instructions : List Instruction}
    (split : code.toList = before ++ (encodeAll instructions ++ after)) :
    Holds code before.length instructions := by
  induction instructions generalizing before with
  | nil => exact Holds.nil code _
  | cons instruction rest inductionHypothesis =>
      rw [encodeAll_cons, List.append_assoc] at split
      have behind : Holds code (before ++ instruction.encode).length rest :=
        inductionHypothesis (by rw [split, List.append_assoc])
      rw [List.length_append, encode_length] at behind
      refine Holds.cons_iff.mpr ⟨⟨?_, decodeAt_of_split split⟩, behind⟩
      have total := congrArg List.length split
      have positive := instruction.size_positive
      simp only [Array.length_toList, List.length_append, encode_length] at total
      omega

theorem holds_encodeAll (instructions : List Instruction) :
    Holds (encodeAll instructions).toArray 0 instructions :=
  @holds_of_split _ [] [] instructions (by simp)

theorem size_encodeAll (instructions : List Instruction) :
    (encodeAll instructions).toArray.size = codeSize instructions := by
  rw [List.size_toArray, encodeAll_length]

theorem listing_go_of_holds {code : Array UInt8} {base : Nat} {instructions : List Instruction}
    (holds : Holds code base instructions) (complete : base + codeSize instructions = code.size)
    (read : List (Nat × Instruction)) :
    listingFrom.go code base read = (read.reverse ++ placed base instructions, none) := by
  induction instructions generalizing base read with
  | nil =>
      have ended : ¬ base < code.size := by simp at complete; omega
      rw [listingFrom.go, if_neg ended]
      simp [placed]
  | cons instruction rest inductionHypothesis =>
      obtain ⟨⟨inside, decoded⟩, behind⟩ := Holds.cons_iff.mp holds
      rw [codeSize_cons] at complete
      rw [listingFrom.go, if_pos inside, decoded]
      simp only
      rw [inductionHypothesis behind (by omega)]
      simp [placed]

theorem listing_encodeAll (instructions : List Instruction) :
    listing (encodeAll instructions).toArray = (placed 0 instructions, none) := by
  rw [listing, listingFrom, listing_go_of_holds (holds_encodeAll instructions)
    (by rw [size_encodeAll, Nat.zero_add])]
  rfl

theorem holds_of_listing_go {code : Array UInt8} {base : Nat}
    {read listed : List (Nat × Instruction)}
    (complete : listingFrom.go code base read = (listed, none)) :
    ∃ instructions, listed = read.reverse ++ placed base instructions ∧
      Holds code base instructions ∧ code.size ≤ base + codeSize instructions := by
  induction base, read using listingFrom.go.induct code with
  | case1 base read inside instruction decoded inductionHypothesis =>
      rw [listingFrom.go, if_pos inside, decoded] at complete
      obtain ⟨rest, listing, holds, reaches⟩ := inductionHypothesis complete
      refine ⟨instruction :: rest, ?_, Holds.cons_iff.mpr ⟨⟨inside, decoded⟩, holds⟩, ?_⟩
      · rw [listing, placed, List.reverse_cons, List.append_assoc]
        rfl
      · rw [codeSize_cons]
        omega
  | case2 base read inside error failed =>
      rw [listingFrom.go, if_pos inside, failed] at complete
      simp at complete
  | case3 base read ended =>
      rw [listingFrom.go, if_neg ended] at complete
      refine ⟨[], ?_, Holds.nil code base, by simp; omega⟩
      simp only [Prod.mk.injEq, and_true] at complete
      simp [placed, complete]

theorem holds_of_listing {code : Array UInt8} {listed : List (Nat × Instruction)}
    (complete : listing code = (listed, none)) :
    ∃ instructions, listed = placed 0 instructions ∧ Holds code 0 instructions ∧
      code.size ≤ codeSize instructions := by
  obtain ⟨instructions, listing, holds, reaches⟩ := holds_of_listing_go complete
  exact ⟨instructions, by simpa using listing, holds, by omega⟩

theorem holds_of_listing_placed {code : Array UInt8} {instructions : List Instruction}
    (listed : listing code = (placed 0 instructions, none)) :
    Holds code 0 instructions ∧ code.size ≤ codeSize instructions := by
  obtain ⟨others, same, holds, reaches⟩ := holds_of_listing listed
  have equal : instructions = others := by
    rw [← placed_instructions 0 instructions, same, placed_instructions]
  rw [equal]
  exact ⟨holds, reaches⟩

end Instruction
end FragmentLisp
