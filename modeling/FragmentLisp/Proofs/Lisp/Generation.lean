import FragmentLisp.Proofs.Artifact
import FragmentLisp.Proofs.Lisp.Acceptance
import FragmentLisp.Proofs.Lisp.Constants
import FragmentLisp.Proofs.Lisp.Control
import FragmentLisp.Proofs.StackDepth
import FragmentLisp.Proofs.Verification

/-!
What code generation hands over. A generated type has a constructor, which fills the fields in turn, and
an entry method, which runs the body. Both pass verification, and the type can be stored.
-/

namespace FragmentLisp
namespace Lisp
namespace Code

open Instruction (placed Directed)
open Resolution (Derived fieldKinds)
open Occurrence (inSequence Occurs)
open Verification (Accepted checkOperand)

/-- A method without arguments that is made of instructions and declares the stack that they need. -/
structure Assembled (name : String) (locals : UInt16) (returnsValue : Bool)
    (instructions : List Instruction) (made : Method) : Prop where
  name : made.signature.name = name
  arity : made.signature.arity = 0
  locals : made.signature.locals = locals
  returns : made.signature.returnsValue = returnsValue
  code : made.code = (Instruction.encodeAll instructions).toArray
  stack : ∃ needed, maxStackDepth made.code = .ok needed ∧
    made.signature.maxStack = UInt32.ofNat needed

theorem assembled_of_ok {name : String} {locals : UInt16} {returnsValue : Bool}
    {instructions : List Instruction} {made : Method}
    (succeeded : method name locals returnsValue instructions = .ok made) :
    Assembled name locals returnsValue instructions made := by
  have encoded : (Assembly.empty.extend instructions).encode =
      (Instruction.encodeAll instructions).toArray := by
    simp [Assembly.encode, Assembly.extend, Assembly.empty]
  unfold method at succeeded
  simp only at succeeded
  split at succeeded
  · simp at succeeded
  · rename_i needed measured
    split at succeeded
    · obtain rfl := Except.ok.inj succeeded
      exact ⟨rfl, rfl, rfl, rfl, encoded, needed, measured, rfl⟩
    · simp at succeeded

theorem Assembled.maxStack_toNat {name : String} {locals : UInt16} {returnsValue : Bool}
    {instructions : List Instruction} {made : Method} {needed : Nat}
    (assembled : Assembled name locals returnsValue instructions made)
    (measured : maxStackDepth made.code = .ok needed) (small : made.code.size < 2 ^ 32) :
    made.signature.maxStack.toNat = needed := by
  obtain ⟨other, again, declared⟩ := assembled.stack
  obtain rfl := Except.ok.inj (measured.symm.trans again)
  have below := maxStackDepth_le_size measured
  rw [declared, word_toNat needed (by omega)]

/-- Code that gives the fields from a number on the values of some fields, and ends. -/
inductive Fills (constants : Constants) : Nat → List Field → List Instruction → Prop
  | nil (index : Nat) : Fills constants index [] [.returnVoid]
  | cons {index : Nat} {field : Field} {rest : List Field} {push : Instruction}
      {code : List Instruction} (head : pushField constants field = .ok push)
      (tail : Fills constants (index + 1) rest code) :
      Fills constants index (field :: rest) (push :: .storeField (UInt16.ofNat index) :: code)

theorem fills_of_ok {constants : Constants} {index : Nat} {made code : List Instruction}
    {fields : List Field} (succeeded : ofFields constants index made fields = .ok code) :
    ∃ new, code = made.reverse ++ new ∧ Fills constants index fields new := by
  induction fields generalizing index made with
  | nil =>
      rw [ofFields] at succeeded
      obtain rfl := Except.ok.inj succeeded
      exact ⟨[.returnVoid], by rw [List.reverse_cons], .nil index⟩
  | cons field rest inductionHypothesis =>
      rw [ofFields] at succeeded
      obtain ⟨push, head, later⟩ := bind_eq_ok.mp succeeded
      obtain ⟨new, split, tail⟩ := inductionHypothesis later
      exact ⟨_, by rw [split]; simp, .cons head tail⟩

theorem Fills.ne_nil {constants : Constants} {index : Nat} {fields : List Field}
    {code : List Instruction} (fills : Fills constants index fields code) : code ≠ [] := by
  cases fills <;> exact List.cons_ne_nil _ _

theorem running_of_ok {constants : Constants} {body : Body} {code : List Instruction}
    (succeeded : ofBody constants body = .ok code) :
    ∃ running, code = running ++ ending body ∧ Sequence constants 0 body.statements running := by
  obtain ⟨pieces, made, joined⟩ := bind_eq_ok.mp succeeded
  obtain ⟨_, rfl, sequence⟩ := sequence_of_statements made
  refine ⟨_, ?_, sequence⟩
  split at joined
  · simp at joined
  · exact (Except.ok.inj joined).symm

structure Generated {Fragment : Type} (unit : CompilationUnit Fragment) (body : Body)
    (definition : TypeDefinition) (constructor entry : Method)
    (filling running : List Instruction) : Prop where
  definition_eq : definition =
    { name := unit.typeName
      fieldCount := UInt16.ofNat unit.fields.length
      constants := (Constants.ofBody unit.fields body).toList
      methods := [constructor, entry] }
  few : unit.fields.length ≤ 65535
  made : ofBody (Constants.ofBody unit.fields body) body = .ok (running ++ ending body)
  fills : Fills (Constants.ofBody unit.fields body) 0 unit.fields filling
  runs : Sequence (Constants.ofBody unit.fields body) 0 body.statements running
  constructor : Assembled TypeDefinition.constructorName 0 false filling constructor
  entry : Assembled unit.entryMethod body.locals body.result?.isSome
    (running ++ ending body) entry

theorem generated_of_ok {Fragment : Type} {unit : CompilationUnit Fragment} {body : Body}
    {definition : TypeDefinition} (succeeded : typeDefinition unit body = .ok definition) :
    ∃ constructor entry filling running,
      Generated unit body definition constructor entry filling running := by
  unfold typeDefinition at succeeded
  obtain ⟨filling, filled, later⟩ := bind_eq_ok.mp succeeded
  obtain ⟨code, ran, rest⟩ := bind_eq_ok.mp later
  split at rest
  · simp at rest
  · rename_i few
    obtain ⟨constructor, constructorMade, last⟩ := bind_eq_ok.mp rest
    obtain ⟨entry, entryMade, whole⟩ := bind_eq_ok.mp last
    obtain rfl := Except.ok.inj whole
    obtain ⟨new, rfl, fills⟩ := fills_of_ok filled
    obtain ⟨running, rfl, sequence⟩ := running_of_ok ran
    exact ⟨constructor, entry, filling, running, rfl, Nat.le_of_not_lt few, ran, fills, sequence,
      assembled_of_ok constructorMade, assembled_of_ok entryMade⟩

/-! Verification. -/

/-- An assembled method is accepted if its operands and its jumps are in order. -/
theorem accepted_of_assembled {definition : TypeDefinition} {name : String} {locals : UInt16}
    {returnsValue : Bool} {instructions : List Instruction} {made : Method}
    (assembled : Assembled name locals returnsValue instructions made)
    (nonempty : instructions ≠ []) (small : made.code.size < 2 ^ 32)
    (operands : ∀ entry ∈ placed 0 instructions,
      checkOperand definition made.signature entry.1 entry.2 = .ok ())
    (jumps : ∀ entry ∈ placed 0 instructions, ∀ target, entry.2.jumpTarget? = some target →
      ∃ instruction, (target, instruction) ∈ placed 0 instructions) :
    Accepted definition made instructions := by
  have size : made.code.size = codeSize instructions := by
    rw [assembled.code, Instruction.size_encodeAll]
  refine ⟨?_, ?_, operands, ?_, ?_⟩
  · intro empty
    have none_left : codeSize instructions = 0 := by
      rw [← size]
      simpa using empty
    cases instructions with
    | nil => exact nonempty rfl
    | cons first rest =>
        have positive := first.size_positive
        rw [codeSize_cons] at none_left
        omega
  · rw [assembled.code]
    exact Instruction.listing_encodeAll instructions
  · intro entry member target jump
    obtain ⟨instruction, reached⟩ := jumps entry member target jump
    have within := (Instruction.placed_within reached).2
    have positive := instruction.size_positive
    refine ⟨?_, instruction, reached⟩
    rw [size]
    simp only at within
    omega
  · obtain ⟨needed, measured, _⟩ := assembled.stack
    exact ⟨needed, measured, Nat.le_of_eq (assembled.maxStack_toNat measured small).symm⟩

theorem pushField_ok {constants : Constants} {field : Field} {push : Instruction}
    (succeeded : pushField constants field = .ok push) :
    push.jumpTarget? = none ∧
      ∀ (definition : TypeDefinition) (signature : Signature) (offset : Nat),
        (∀ text, field.value = .string text →
          (constants.number text).toNat < definition.constants.length) →
        checkOperand definition signature offset push = .ok () := by
  unfold pushField at succeeded
  split at succeeded
  · obtain rfl := Except.ok.inj succeeded
    exact ⟨rfl, fun _ _ _ _ => rfl⟩
  · obtain rfl := Except.ok.inj succeeded
    exact ⟨rfl, fun _ _ _ _ => rfl⟩
  · rename_i text value
    obtain rfl := Except.ok.inj succeeded
    exact ⟨rfl, fun _ _ _ inside => if_pos (inside text value)⟩
  · obtain rfl := Except.ok.inj succeeded
    exact ⟨rfl, fun _ _ _ _ => rfl⟩
  · simp at succeeded

theorem fills_checked {constants : Constants} {definition : TypeDefinition} {signature : Signature}
    {index : Nat} {fields : List Field} {code : List Instruction}
    (fills : Fills constants index fields code) (void : signature.returnsValue = false)
    (texts : ∀ field ∈ fields, ∀ text, field.value = .string text →
      (constants.number text).toNat < definition.constants.length)
    (few : index + fields.length ≤ definition.fieldCount.toNat) {base : Nat} :
    ∀ entry ∈ placed base code, entry.2.jumpTarget? = none ∧
      checkOperand definition signature entry.1 entry.2 = .ok () := by
  induction fills generalizing base with
  | nil index =>
      intro entry member
      obtain rfl := List.mem_singleton.mp member
      exact ⟨rfl, if_pos void⟩
  | @cons index field rest push code head tail inductionHypothesis =>
      rw [List.length_cons] at few
      obtain ⟨straight, checked⟩ := pushField_ok head
      intro entry member
      rcases List.mem_cons.mp member with rfl | behind
      · exact ⟨straight, checked definition signature base (texts field List.mem_cons_self)⟩
      · rcases List.mem_cons.mp behind with rfl | later
        · have words := definition.fieldCount.toNat_lt
          have word : (UInt16.ofNat index).toNat = index := by
            apply UInt16.toNat_ofNat_of_lt'
            unfold UInt16.size
            omega
          refine ⟨rfl, if_pos ?_⟩
          rw [UInt16.lt_iff_toNat_lt, word]
          omega
        · exact inductionHypothesis (fun other inRest => texts other (List.mem_cons_of_mem _ inRest))
            (by omega) entry later

theorem ordinary_checked {definition : TypeDefinition} {signature : Signature} {offset : Nat}
    {instruction : Instruction}
    (ordinary : Ordinary signature.locals.toNat definition.fieldCount.toNat
      definition.constants.length instruction) :
    checkOperand definition signature offset instruction = .ok () := by
  cases instruction with
  | pushConstant index => exact if_pos ordinary
  | loadLocal slot => exact if_pos (UInt16.lt_iff_toNat_lt.mpr ordinary)
  | storeLocal slot => exact if_pos (UInt16.lt_iff_toNat_lt.mpr ordinary)
  | loadField index => exact if_pos (UInt16.lt_iff_toNat_lt.mpr ordinary)
  | storeField index => exact ordinary.elim
  | «return» => exact ordinary.elim
  | returnVoid => exact ordinary.elim
  | _ => rfl

theorem ending_checked {definition : TypeDefinition} {signature : Signature} {body : Body} {base : Nat}
    (declared : signature.returnsValue = body.result?.isSome) :
    ∀ entry ∈ placed base (ending body), entry.2.jumpTarget? = none ∧
      checkOperand definition signature entry.1 entry.2 = .ok () := by
  intro entry member
  unfold ending at member
  split at member
  · rename_i none_known
    obtain rfl := List.mem_singleton.mp member
    exact ⟨rfl, if_pos (by rw [declared, none_known]; rfl)⟩
  · rename_i kind known _
    rcases List.mem_cons.mp member with rfl | behind
    · exact ⟨rfl, rfl⟩
    · obtain rfl := List.mem_singleton.mp behind
      exact ⟨rfl, if_pos (by rw [declared, known]; rfl)⟩
  · rename_i kind _ known _
    obtain rfl := List.mem_singleton.mp member
    exact ⟨rfl, if_pos (by rw [declared, known]; rfl)⟩

theorem ending_ne_nil (body : Body) : ending body ≠ [] := by
  unfold ending
  split <;> exact List.cons_ne_nil _ _

theorem forward_of_sequence {constants : Constants} {statements : List Statement}
    {running : List Instruction} (runs : Sequence constants 0 statements running)
    (reach : widthSteps statements < 2 ^ 32) {allowed : Instruction → Prop}
    (free : ∀ instruction, Free instruction → allowed instruction)
    (stores : ∀ slot value, .definition slot value ∈ statements → allowed (.storeLocal slot))
    (fieldKinds : List Kind)
    (named : ∀ child ∈ inSequence fieldKinds [] 0 statements,
      ∀ inner, Occurs fieldKinds child inner → ∀ instruction,
        Names constants inner.expr instruction → allowed instruction) :
    Directed allowed (fun _ => False) 0 running := by
  refine @directed_sequence _ _ _ _ fieldKinds [] _ _ runs (free _ trivial) stores ?_
  intro child member code made exits
  have finish := (Occurrence.mem_inSequence member).2.2.2
  exact directed_of_ok free child (named child member) (by omega) made exits

theorem declared_of_derived {fields : List Field} {nodes : List Node} {body : Body}
    (derived : Derived fields nodes body) :
    body.result?.isSome = endsWithValue true body.statements := by
  rw [derived.result, resultKind?_isSome]
  rfl

/-- How the entry method of a resolved body ends depends on the last statement alone. -/
theorem ending_of_derived {fields : List Field} {nodes : List Node} {body : Body}
    (derived : Derived fields nodes body) :
    ending body =
      match body.statements.getLast? with
      | none => [.pushNil, .return]
      | some (.expression _) => [.return]
      | some (.definition _ _) => [.returnVoid] := by
  have declared := declared_of_derived derived
  unfold endsWithValue at declared
  unfold ending
  cases known : body.result? with
  | none =>
      rw [known] at declared
      split at declared <;> simp_all
  | some kind =>
      rw [known] at declared
      split at declared <;> simp_all

section Types

variable {Fragment : Type} {unit : CompilationUnit Fragment} {nodes : List Node} {body : Body}
variable {definition : TypeDefinition} {constructor entry : Method}
variable {filling running : List Instruction}

theorem Generated.fieldCount
    (generated : Generated unit body definition constructor entry filling running) :
    definition.fieldCount.toNat = unit.fields.length := by
  have few := generated.few
  rw [generated.definition_eq]
  exact UInt16.toNat_ofNat_of_lt' (by rw [UInt16.size]; omega)

theorem Generated.constants
    (generated : Generated unit body definition constructor entry filling running) :
    definition.constants = (Constants.ofBody unit.fields body).toList := by
  rw [generated.definition_eq]

theorem Generated.methods
    (generated : Generated unit body definition constructor entry filling running) :
    definition.methods = [constructor, entry] := by
  rw [generated.definition_eq]

theorem Generated.running_size
    (generated : Generated unit body definition constructor entry filling running) :
    codeSize running = widthSteps body.statements :=
  sequence_width generated.runs fun statement _ => has_width statement.value

section Small

variable (generated : Generated unit body definition constructor entry filling running)
variable (small : ∀ method ∈ definition.methods, method.code.size < 2 ^ 32)

include generated small

theorem Generated.constructorSmall : constructor.code.size < 2 ^ 32 :=
  small constructor (by rw [generated.methods]; exact List.mem_cons_self)

theorem Generated.entrySmall : entry.code.size < 2 ^ 32 :=
  small entry (by
    rw [generated.methods]
    exact List.mem_cons_of_mem _ List.mem_cons_self)

theorem Generated.runningSmall : widthSteps body.statements < 2 ^ 32 := by
  have own := generated.entrySmall small
  rw [generated.entry.code, Instruction.size_encodeAll, codeSize_append,
    generated.running_size] at own
  omega

theorem Generated.constantsSmall : (Constants.ofBody unit.fields body).size < 2 ^ 32 := by
  have few := generated.few
  have running := generated.runningSmall small
  have bounded := Constants.size_ofBody unit.fields body
  omega

end Small

/-- The constructor passes verification. -/
theorem Generated.constructor_accepted
    (generated : Generated unit body definition constructor entry filling running)
    (small : ∀ method ∈ definition.methods, method.code.size < 2 ^ 32) :
    Accepted definition constructor filling := by
  have constantsSmall := generated.constantsSmall small
  have texts : ∀ field ∈ unit.fields, ∀ text, field.value = .string text →
      ((Constants.ofBody unit.fields body).number text).toNat < definition.constants.length := by
    intro field member text value
    have known := constant_at_number (Constants.field_mem_ofBody member value body) constantsSmall
    rw [generated.constants, Array.length_toList]
    exact (Array.getElem?_eq_some_iff.mp known).1
  have checked := fun base => @fills_checked _ definition constructor.signature _ _ _
    generated.fills generated.constructor.returns texts
    (by rw [generated.fieldCount, Nat.zero_add]) base
  refine accepted_of_assembled generated.constructor ?_ (generated.constructorSmall small) ?_ ?_
  · exact generated.fills.ne_nil
  · exact fun entry member => (checked 0 entry member).2
  · intro entry member target jump
    rw [(checked 0 entry member).1] at jump
    simp at jump

/-- The code of a body goes forward within itself, whatever the body was made of. -/
theorem Generated.running_forward
    (generated : Generated unit body definition constructor entry filling running)
    (small : ∀ method ∈ definition.methods, method.code.size < 2 ^ 32)
    {allowed : Instruction → Prop} (free : ∀ instruction, Free instruction → allowed instruction)
    (stores : ∀ slot value, .definition slot value ∈ body.statements → allowed (.storeLocal slot))
    (fieldKinds : List Kind)
    (named : ∀ child ∈ inSequence fieldKinds [] 0 body.statements,
      ∀ inner, Occurs fieldKinds child inner → ∀ instruction,
        Names (Constants.ofBody unit.fields body) inner.expr instruction → allowed instruction) :
    Directed allowed (fun _ => False) 0 running :=
  forward_of_sequence generated.runs (generated.runningSmall small) free stores fieldKinds named

theorem Generated.running_directed
    (generated : Generated unit body definition constructor entry filling running)
    (derived : Derived unit.fields nodes body)
    (small : ∀ method ∈ definition.methods, method.code.size < 2 ^ 32) :
    Directed (Ordinary body.locals.toNat unit.fields.length
      (Constants.ofBody unit.fields body).size) (fun _ => False) 0 running := by
  have numbered : Numbered body.locals.toNat ([] : List Kind).length body.statements :=
    derived.numbered
  have fieldCount : (fieldKinds unit.fields).length = unit.fields.length := List.length_map _
  rw [← fieldCount]
  refine generated.running_forward small (fun _ free => ordinary_of_free free)
    (fun slot value member => stored_of_numbered numbered member) (fieldKinds unit.fields) ?_
  intro child member inner occurs instruction names
  have fine := (derived.traced child member).settled inner occurs
  have pooled := Constants.pooled_ofBody unit.fields member inner occurs
  exact ordinary_of_names (generated.constantsSmall small) fine pooled names

/-- The entry method passes verification. -/
theorem Generated.entry_accepted
    (generated : Generated unit body definition constructor entry filling running)
    (derived : Derived unit.fields nodes body)
    (small : ∀ method ∈ definition.methods, method.code.size < 2 ^ 32) :
    Accepted definition entry (running ++ ending body) := by
  have directed := generated.running_directed derived small
  have ended := fun base => @ending_checked definition entry.signature body base
    generated.entry.returns
  have nonempty := ending_ne_nil body
  refine accepted_of_assembled generated.entry (by simp [nonempty])
    (generated.entrySmall small) ?_ ?_
  · intro instruction member
    rw [Instruction.placed_append, List.mem_append] at member
    rcases member with inRunning | inEnding
    · apply ordinary_checked
      rw [generated.entry.locals, generated.fieldCount, generated.constants, Array.length_toList]
      exact (directed instruction inRunning).1
    · exact (ended _ instruction inEnding).2
  · intro instruction member target jump
    rw [Instruction.placed_append, List.mem_append] at member
    rcases member with inRunning | inEnding
    · obtain ⟨_, reached⟩ := (directed instruction inRunning).2 target jump
      exact Instruction.placed_of_boundary nonempty (reached.resolve_right id)
    · rw [(ended _ instruction inEnding).1] at jump
      simp at jump

theorem Generated.verified
    (generated : Generated unit body definition constructor entry filling running)
    (derived : Derived unit.fields nodes body)
    (small : ∀ method ∈ definition.methods, method.code.size < 2 ^ 32) :
    ∀ method ∈ definition.methods, Verification.verify definition method = .ok () := by
  intro method member
  rw [generated.methods] at member
  rcases List.mem_cons.mp member with rfl | last
  · exact Verification.verify_ok_iff.mpr ⟨_, generated.constructor_accepted small⟩
  · obtain rfl := List.mem_singleton.mp last
    exact Verification.verify_ok_iff.mpr ⟨_, generated.entry_accepted derived small⟩

/-- A generated type can be stored, if its entry method is not taken for the constructor. -/
theorem Generated.storable
    (generated : Generated unit body definition constructor entry filling running)
    (other : unit.entryMethod ≠ TypeDefinition.constructorName) (compact : definition.Compact) :
    definition.Storable := by
  apply TypeDefinition.storable_of_compact compact
  rw [generated.methods]
  simp [generated.constructor.name, generated.entry.name, other.symm]

theorem Generated.zeroFree_iff
    (generated : Generated unit body definition constructor entry filling running) :
    definition.ZeroFree ↔ (0 : UInt8) ∉ Bytes.utf8 unit.entryMethod := by
  have constructorFree : (0 : UInt8) ∉ Bytes.utf8 TypeDefinition.constructorName := by decide
  unfold TypeDefinition.ZeroFree
  rw [generated.methods]
  simp [generated.constructor.name, generated.entry.name, constructorFree]

end Types

end Code
end Lisp
end FragmentLisp
