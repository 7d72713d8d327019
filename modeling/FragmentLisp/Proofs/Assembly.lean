import FragmentLisp.Proofs.Machine.Passes

/-!
Jumps that are pointed at their targets while the body still grows. The byte of a target is counted when the
jump is patched, and it stays the right one: edits put instructions behind the others or give a jump another
operand, and neither moves an instruction that has a number.
-/

namespace FragmentLisp

namespace Instruction

theorem mem_placed_of_getElem? {index : Nat} {instructions : List Instruction}
    {instruction : Instruction} (found : instructions[index]? = some instruction) (base : Nat) :
    (base + codeSize (instructions.take index), instruction) ∈ placed base instructions := by
  induction instructions generalizing base index with
  | nil => simp at found
  | cons first rest inductionHypothesis =>
      cases index with
      | zero =>
          obtain rfl : first = instruction := by simpa using found
          exact List.mem_cons_self
      | succ index =>
          have later := inductionHypothesis (by simpa using found) (base + first.size)
          rw [List.take_succ_cons, codeSize_cons, ← Nat.add_assoc]
          exact List.mem_cons_of_mem _ later

@[simp] theorem size_retarget (target : UInt32) (instruction : Instruction) :
    (instruction.retarget target).size = instruction.size := by
  cases instruction <;> rfl

end Instruction

theorem codeSize_eq_sum (instructions : List Instruction) :
    codeSize instructions = (instructions.map Instruction.size).sum := by
  induction instructions with
  | nil => rfl
  | cons instruction rest inductionHypothesis =>
      rw [codeSize_cons, inductionHypothesis, List.map_cons, List.sum_cons]

namespace Assembly

open Machine (Program State step perform)

inductive Edit where
  | add (instruction : Instruction)
  | extend (instructions : List Instruction)
  | patchJump (index target : Nat)

def edit (assembly : Assembly) : Edit → Assembly
  | .add instruction => assembly.add instruction
  | .extend instructions => assembly.extend instructions
  | .patchJump index target => assembly.patchJump index target

def edited (assembly : Assembly) (edits : List Edit) : Assembly :=
  edits.foldl edit assembly

/-- Only a jump may be patched, and only with a number that an instruction has or that the next one gets. -/
def Permits (assembly : Assembly) : Edit → Prop
  | .patchJump index target =>
      (∃ jump, assembly.instructions[index]? = some jump ∧ jump.jumpTarget?.isSome) ∧
        target ≤ assembly.next
  | _ => True

def PermitsAll (assembly : Assembly) : List Edit → Prop
  | [] => True
  | edit :: rest => assembly.Permits edit ∧ (assembly.edit edit).PermitsAll rest

def sizes (assembly : Assembly) : List Nat :=
  assembly.instructions.toList.map Instruction.size

variable {assembly : Assembly} {index target : Nat} {instruction : Instruction}

/-! Bytes. -/

theorem byteOffset_eq (assembly : Assembly) (index : Nat) :
    assembly.byteOffset index = (assembly.sizes.take index).sum := by
  rw [byteOffset, codeSize_eq_sum, sizes, List.map_take]

@[simp] theorem sizes_length (assembly : Assembly) : assembly.sizes.length = assembly.next := by
  simp [sizes, next]

theorem size_encode (assembly : Assembly) : assembly.encode.size = assembly.sizes.sum := by
  rw [encode, Instruction.size_encodeAll, codeSize_eq_sum, sizes]

theorem byteOffset_le_size (assembly : Assembly) (index : Nat) :
    assembly.byteOffset index ≤ assembly.encode.size := by
  rw [byteOffset_eq, size_encode]
  have whole := congrArg List.sum (List.take_append_drop index assembly.sizes)
  rw [List.sum_append] at whole
  omega

theorem byteOffset_succ (found : assembly.instructions[index]? = some instruction) :
    assembly.byteOffset (index + 1) = assembly.byteOffset index + instruction.size := by
  have size : assembly.sizes[index]? = some instruction.size := by
    simp [sizes, found]
  rw [byteOffset_eq, byteOffset_eq, List.take_add_one, size]
  simp

theorem held_at_byteOffset (found : assembly.instructions[index]? = some instruction) :
    assembly.byteOffset index < assembly.encode.size ∧
      Instruction.decodeAt assembly.encode (assembly.byteOffset index) = .ok instruction := by
  have listed : assembly.instructions.toList[index]? = some instruction := by simpa using found
  have placed := Instruction.mem_placed_of_getElem? listed 0
  rw [Nat.zero_add] at placed
  exact Instruction.holds_encodeAll assembly.instructions.toList _ placed

/-! What an edit leaves as it is. -/

theorem map_modify_of_kept {Item View : Type} {change : Item → Item} {view : Item → View}
    (kept : ∀ item, view (change item) = view item) (items : List Item) (index : Nat) :
    (items.modify index change).map view = items.map view := by
  induction items generalizing index with
  | nil => cases index <;> rfl
  | cons item rest inductionHypothesis =>
      cases index with
      | zero => simp [kept]
      | succ index => simp [inductionHypothesis]

/-- The instructions keep their sizes, and new ones come behind them. -/
theorem sizes_edit (assembly : Assembly) (edit : Edit) :
    assembly.sizes <+: (assembly.edit edit).sizes := by
  cases edit with
  | add instruction => simp [Assembly.edit, add, sizes]
  | extend instructions => simp [Assembly.edit, extend, sizes]
  | patchJump index target =>
      have kept := map_modify_of_kept (Instruction.size_retarget
        (UInt32.ofNat (assembly.byteOffset target))) assembly.instructions.toList index
      simp [Assembly.edit, patchJump, sizes, kept]

theorem sizes_edited (assembly : Assembly) (edits : List Edit) :
    assembly.sizes <+: (assembly.edited edits).sizes := by
  induction edits generalizing assembly with
  | nil => exact List.prefix_rfl
  | cons edit rest inductionHypothesis =>
      exact (sizes_edit assembly edit).trans (inductionHypothesis (assembly.edit edit))

theorem byteOffset_edited (known : index ≤ assembly.next) (edits : List Edit) :
    (assembly.edited edits).byteOffset index = assembly.byteOffset index := by
  obtain ⟨more, sizes⟩ := sizes_edited assembly edits
  rw [byteOffset_eq, byteOffset_eq, ← sizes, List.take_append_of_le_length (by simpa using known)]

theorem instruction_edit (found : assembly.instructions[index]? = some instruction) {edit : Edit}
    (spared : ∀ target, edit ≠ .patchJump index target) :
    (assembly.edit edit).instructions[index]? = some instruction := by
  obtain ⟨inside, _⟩ := Array.getElem?_eq_some_iff.mp found
  cases edit with
  | add other =>
      rw [Assembly.edit, add, Array.getElem?_push_lt inside, ← found, Array.getElem?_eq_getElem inside]
  | extend others =>
      rw [← Array.getElem?_toList] at found ⊢
      rw [Assembly.edit, extend, Array.toList_appendList, List.getElem?_append_left (by simpa using inside),
        found]
  | patchJump other target =>
      have apart : other ≠ index := by
        rintro rfl
        exact spared target rfl
      simp [Assembly.edit, patchJump, Array.getElem?_modify, apart, found]

theorem instruction_edited (found : assembly.instructions[index]? = some instruction)
    {edits : List Edit} (spared : ∀ target, Edit.patchJump index target ∉ edits) :
    (assembly.edited edits).instructions[index]? = some instruction := by
  induction edits generalizing assembly with
  | nil => exact found
  | cons edit rest inductionHypothesis =>
      refine inductionHypothesis (instruction_edit found fun target same => ?_) fun target later =>
        spared target (List.mem_cons_of_mem _ later)
      exact spared target (same ▸ List.mem_cons_self)

theorem instruction_patchJump (found : assembly.instructions[index]? = some instruction)
    (target : Nat) :
    (assembly.patchJump index target).instructions[index]? =
      some (instruction.retarget (UInt32.ofNat (assembly.byteOffset target))) := by
  simp [patchJump, Array.getElem?_modify, found]

/-! Bodies with more code behind them. -/

theorem eq_of_toList {first second : Assembly}
    (same : first.instructions.toList = second.instructions.toList) : first = second := by
  cases first
  cases second
  exact congrArg Assembly.mk (Array.toList_inj.mp same)

@[simp] theorem toList_extend (assembly : Assembly) (code : List Instruction) :
    (assembly.extend code).instructions.toList = assembly.instructions.toList ++ code :=
  Array.toList_appendList

theorem add_eq_extend (assembly : Assembly) (instruction : Instruction) :
    assembly.add instruction = assembly.extend [instruction] := by
  apply eq_of_toList
  rw [toList_extend]
  exact Array.toList_push

theorem extend_extend (assembly : Assembly) (code more : List Instruction) :
    (assembly.extend code).extend more = assembly.extend (code ++ more) := by
  apply eq_of_toList
  simp

theorem extend_nil (assembly : Assembly) : assembly.extend [] = assembly := by
  apply eq_of_toList
  simp

theorem next_extend (assembly : Assembly) (code : List Instruction) :
    (assembly.extend code).next = assembly.next + code.length := by
  simp [next, ← Array.length_toList]

theorem modify_append_cons {Item : Type} (change : Item → Item) (before after : List Item)
    (item : Item) :
    (before ++ item :: after).modify before.length change = before ++ change item :: after := by
  rw [List.modify_eq_take_cons_drop (by simp)]
  simp

/-- A jump is pointed at whatever will come next. -/
theorem patchJump_extend (assembly : Assembly) (before after : List Instruction)
    (jump : Instruction) :
    (assembly.extend (before ++ jump :: after)).patchJump (assembly.next + before.length)
        (assembly.next + (before ++ jump :: after).length) =
      assembly.extend (before ++ jump.retarget (UInt32.ofNat
        (codeSize assembly.instructions.toList + codeSize (before ++ jump :: after))) :: after) := by
  have finish : (assembly.extend (before ++ jump :: after)).byteOffset
      (assembly.next + (before ++ jump :: after).length) =
        codeSize assembly.instructions.toList + codeSize (before ++ jump :: after) := by
    rw [← next_extend, byteOffset, next, ← Array.length_toList, List.take_length, toList_extend,
      codeSize_append]
  have place : assembly.next + before.length = (assembly.instructions.toList ++ before).length := by
    simp [next]
  apply eq_of_toList
  rw [patchJump, finish, Array.toList_modify, toList_extend, toList_extend, place,
    ← List.append_assoc, modify_append_cons, List.append_assoc]

/-! Sequences of edits. -/

theorem edited_append (assembly : Assembly) (first second : List Edit) :
    assembly.edited (first ++ second) = (assembly.edited first).edited second :=
  List.foldl_append

theorem permits_of_permitsAll {earlier later : List Edit} {edit : Edit}
    (permitted : assembly.PermitsAll (earlier ++ edit :: later)) :
    (assembly.edited earlier).Permits edit := by
  induction earlier generalizing assembly with
  | nil => exact permitted.1
  | cons first rest inductionHypothesis => exact inductionHypothesis permitted.2

/-! Runs. -/

/-- A run of the body has come to the instruction with a number. -/
structure Reaches (assembly : Assembly) (index : Nat) (program : Program) (state : State) : Prop where
  code : program.code = assembly.encode
  offset : state.offset = assembly.byteOffset index

/-- The jump with a number names the byte of a target, and a run goes on there: always, or if the condition
on top of the stack is false, and otherwise behind the jump. -/
def LeadsTo (assembly : Assembly) (index target : Nat) : Instruction → Prop
  | .jump word =>
      word.toNat = assembly.byteOffset target ∧
        ∀ program state, assembly.Reaches index program state →
          ∃ next, step program state = .running next ∧ assembly.Reaches target program next
  | .jumpIfFalse word =>
      word.toNat = assembly.byteOffset target ∧
        ∀ program state, assembly.Reaches index program state →
          ∀ condition rest, state.stack.entries = condition :: rest →
            ∃ next, step program state = .running next ∧
              assembly.Reaches (if condition.isTruthy then index + 1 else target) program next
  | _ => False

theorem Reaches.step_eq_perform {program : Program} {state : State}
    (reaches : assembly.Reaches index program state)
    (found : assembly.instructions[index]? = some instruction) :
    step program state = perform program state instruction := by
  apply Machine.step_eq_perform
  rw [reaches.code, reaches.offset]
  exact held_at_byteOffset found

theorem leadsTo_retarget {word : UInt32} (isJump : instruction.jumpTarget?.isSome)
    (found : assembly.instructions[index]? = some (instruction.retarget word))
    (named : word.toNat = assembly.byteOffset target) :
    assembly.LeadsTo index target (instruction.retarget word) := by
  cases instruction with
  | jump old =>
      refine ⟨named, fun program state reaches => ?_⟩
      exact ⟨_, reaches.step_eq_perform found, reaches.code, named⟩
  | jumpIfFalse old =>
      refine ⟨named, fun program state reaches condition rest top => ?_⟩
      have stack : state.stack = .ofEntries (condition :: rest) := top ▸ state.stack.eq_ofEntries
      have stepped := reaches.step_eq_perform found
      simp only [Instruction.retarget, perform, stack, OperandStack.pop_ofEntries_cons, Machine.attempt]
        at stepped
      refine ⟨_, stepped, reaches.code, ?_⟩
      have behind := byteOffset_succ found
      by_cases truthy : condition.isTruthy
      · rw [if_pos truthy, if_pos truthy, behind, ← reaches.offset]
        rfl
      · rw [if_neg truthy, if_neg truthy, ← named]
  | _ => simp [Instruction.jumpTarget?] at isJump

/-- Whatever is added and patched in between, in the finished body each number stands for the byte at which
its instruction is read back and performed, and a jump leads to the instruction that it was pointed at last.
The number that comes next stands for whatever is added under it later. -/
theorem patched_jumps_stay_valid {start : Assembly} {edits : List Edit}
    (permitted : start.PermitsAll edits) (small : (start.edited edits).encode.size < 4294967296) :
    (∀ index instruction, (start.edited edits).instructions[index]? = some instruction →
      Instruction.decodeAt (start.edited edits).encode ((start.edited edits).byteOffset index) =
          .ok instruction ∧
        ∀ program state, (start.edited edits).Reaches index program state →
          step program state = perform program state instruction) ∧
    ∀ earlier index target later, edits = earlier ++ .patchJump index target :: later →
      (∀ other, Edit.patchJump index other ∉ later) →
      ∃ jump, (start.edited edits).instructions[index]? = some jump ∧
        (start.edited edits).LeadsTo index target jump := by
  refine ⟨fun index instruction found => ⟨(held_at_byteOffset found).2, fun program state reaches =>
    reaches.step_eq_perform found⟩, ?_⟩
  rintro earlier index target later rfl last
  obtain ⟨⟨jump, found, isJump⟩, known⟩ := permits_of_permitsAll permitted
  let patching := start.edited earlier
  have final : start.edited (earlier ++ .patchJump index target :: later) =
      (patching.patchJump index target).edited later := edited_append start earlier _
  rw [final] at small ⊢
  have kept := instruction_edited (instruction_patchJump found target) last
  refine ⟨_, kept, leadsTo_retarget isJump kept ?_⟩
  -- The byte was counted before the later edits, and they have not moved it.
  have stays : ((patching.patchJump index target).edited later).byteOffset target =
      patching.byteOffset target :=
    byteOffset_edited known (.patchJump index target :: later)
  have bound := byteOffset_le_size ((patching.patchJump index target).edited later) target
  rw [stays] at bound ⊢
  exact UInt32.toNat_ofNat_of_lt' (Nat.lt_of_le_of_lt bound small)

def branchEdits : List Edit :=
  [.add (.pushBoolean true), .add (.jumpIfFalse 0), .patchJump 1 2, .extend [.pushInteger 1, .return],
    .patchJump 1 4, .extend [.pushNil, .return]]

theorem branch_is_patched :
    empty.PermitsAll branchEdits ∧ (empty.edited branchEdits).encode.size < 4294967296 ∧
      (empty.edited branchEdits).byteOffset 4 = 17 ∧
      ∃ jump, (empty.edited branchEdits).instructions[1]? = some jump ∧
        (empty.edited branchEdits).LeadsTo 1 4 jump := by
  have permitted : empty.PermitsAll branchEdits :=
    ⟨trivial, trivial, ⟨⟨_, rfl, rfl⟩, by decide⟩, trivial, ⟨⟨_, rfl, rfl⟩, by decide⟩, trivial, trivial⟩
  have small : (empty.edited branchEdits).encode.size < 4294967296 := by decide
  have patched := (patched_jumps_stay_valid permitted small).2 (branchEdits.take 4) 1 4
  exact ⟨permitted, small, by decide, patched [.extend [.pushNil, .return]] rfl (by simp)⟩

end Assembly
end FragmentLisp
