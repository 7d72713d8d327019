import FragmentLisp.Registry
import FragmentLisp.Proofs.Instruction.Placement

/-!
What verification establishes of a method: its code is one run of instructions, each of which names only
what exists and returns as the method declares, each jump goes to an instruction of the run, and the
stack analysis finds no more than the declared height. These facts are also all that it asks for.
-/

namespace FragmentLisp
namespace Verification

open Instruction (placed Holds)

structure Accepted (definition : TypeDefinition) (method : Method)
    (instructions : List Instruction) : Prop where
  nonempty : ¬ method.code.isEmpty = true
  listed : Instruction.listing method.code = (placed 0 instructions, none)
  operands : ∀ entry ∈ placed 0 instructions,
    checkOperand definition method.signature entry.1 entry.2 = .ok ()
  jumps : ∀ entry ∈ placed 0 instructions, ∀ target, entry.2.jumpTarget? = some target →
    target < method.code.size ∧ ∃ instruction, (target, instruction) ∈ placed 0 instructions
  stack : ∃ needed, maxStackDepth method.code = .ok needed ∧
    needed ≤ method.signature.maxStack.toNat

theorem checkOperands_ok_iff {definition : TypeDefinition} {signature : Signature}
    {listing : List (Nat × Instruction)} :
    checkOperands definition signature listing = .ok () ↔
      ∀ entry ∈ listing, checkOperand definition signature entry.1 entry.2 = .ok () := by
  induction listing with
  | nil => simp [checkOperands]
  | cons entry rest inductionHypothesis =>
      obtain ⟨offset, instruction⟩ := entry
      rw [List.forall_mem_cons, ← inductionHypothesis, checkOperands]
      cases checkOperand definition signature offset instruction with
      | ok value => simp
      | error error => simp

theorem marks_foldl {listing : List (Nat × Instruction)} {marks : Array Bool} {offset : Nat} :
    (listing.foldl (fun marks entry => marks.setIfInBounds entry.1 true) marks)[offset]? =
        some true ↔
      offset < marks.size ∧
        (marks[offset]? = some true ∨ ∃ instruction, (offset, instruction) ∈ listing) := by
  induction listing generalizing marks with
  | nil =>
      simp only [List.foldl_nil, List.not_mem_nil, exists_false, or_false]
      exact ⟨fun held => ⟨(Array.getElem?_eq_some_iff.mp held).1, held⟩, fun held => held.2⟩
  | cons entry rest inductionHypothesis =>
      obtain ⟨marked, instruction⟩ := entry
      rw [List.foldl_cons, inductionHypothesis, Array.size_setIfInBounds]
      refine and_congr_right fun inside => ?_
      by_cases same : marked = offset
      · subst same
        simp [inside]
      · have other : ∀ candidate, (offset, candidate) ≠ (marked, instruction) := by
          intro candidate equal
          exact same (Prod.mk.inj equal).1.symm
        simp [same, other]

theorem boundaries_iff {listing : List (Nat × Instruction)} {size offset : Nat} :
    (boundaries size listing)[offset]? = some true ↔
      offset < size ∧ ∃ instruction, (offset, instruction) ∈ listing := by
  rw [boundaries, marks_foldl]
  simp [Array.getElem?_replicate]

theorem checkJumps_ok_iff {size : Nat} {listing : List (Nat × Instruction)} :
    checkJumps size listing = .ok () ↔
      ∀ entry ∈ listing, ∀ target, entry.2.jumpTarget? = some target →
        target < size ∧ ∃ instruction, (target, instruction) ∈ listing := by
  have marked : ∀ target, (!((boundaries size listing)[target]?.getD false)) = false ↔
      target < size ∧ ∃ instruction, (target, instruction) ∈ listing := by
    intro target
    rw [← boundaries_iff]
    cases (boundaries size listing)[target]? with
    | none => simp
    | some mark => cases mark <;> simp
  unfold checkJumps
  simp only
  split
  · rename_i wild found
    have unmarked := List.find?_some found
    obtain ⟨entry, member, jump⟩ := List.mem_filterMap.mp (List.mem_of_find?_eq_some found)
    refine ⟨fun impossible => by simp at impossible, fun all => ?_⟩
    have fine := (marked wild).mpr (all entry member wild jump)
    rw [unmarked] at fine
    simp at fine
  · rename_i none_wild
    refine ⟨fun _ entry member target jump => ?_, fun _ => rfl⟩
    have fine := List.find?_eq_none.mp none_wild target
      (List.mem_filterMap.mpr ⟨entry, member, jump⟩)
    exact (marked target).mp (by simpa using fine)

theorem checkStack_ok_iff {method : Method} :
    checkStack method = .ok () ↔
      ∃ needed, maxStackDepth method.code = .ok needed ∧
        needed ≤ method.signature.maxStack.toNat := by
  unfold checkStack
  cases maxStackDepth method.code with
  | error error => simp
  | ok needed => simp

theorem verify_ok_iff {definition : TypeDefinition} {method : Method} :
    verify definition method = .ok () ↔
      ∃ instructions, Accepted definition method instructions := by
  unfold verify
  by_cases empty : method.code.isEmpty = true
  · rw [if_pos empty]
    refine ⟨fun impossible => by simp at impossible, ?_⟩
    rintro ⟨instructions, accepted⟩
    exact absurd empty accepted.nonempty
  rw [if_neg empty]
  rcases listed : Instruction.listing method.code with ⟨listing, failure?⟩
  cases failure? with
  | some failure =>
      simp only
      constructor
      · intro passed
        split at passed <;> simp_all
      · rintro ⟨instructions, accepted⟩
        have complete := accepted.listed
        rw [listed] at complete
        simp at complete
  | none =>
      obtain ⟨instructions, rfl, _, _⟩ := Instruction.holds_of_listing listed
      simp only
      constructor
      · intro passed
        cases operands : checkOperands definition method.signature (placed 0 instructions) with
        | error error => simp [operands] at passed
        | ok value =>
            cases jumps : checkJumps method.code.size (placed 0 instructions) with
            | error error => simp [operands, jumps] at passed
            | ok value =>
                simp only [operands, jumps] at passed
                exact ⟨instructions, empty, listed, checkOperands_ok_iff.mp operands,
                  checkJumps_ok_iff.mp jumps, checkStack_ok_iff.mp passed⟩
      · rintro ⟨others, accepted⟩
        have same : placed 0 instructions = placed 0 others := by
          have complete := accepted.listed
          rw [listed] at complete
          exact (Prod.mk.inj complete).1
        rw [same, checkOperands_ok_iff.mpr accepted.operands, checkJumps_ok_iff.mpr accepted.jumps]
        exact checkStack_ok_iff.mpr accepted.stack

end Verification

namespace Registry

theorem checkMethods_ok_iff {definition : TypeDefinition} {limit : Nat} {methods : List Method} :
    checkMethods definition limit methods = .ok () ↔
      ∀ method ∈ methods, Verification.verify definition method = .ok () ∧
        method.signature.maxStack.toNat ≤ limit := by
  induction methods with
  | nil => simp [checkMethods]
  | cons method rest inductionHypothesis =>
      rw [List.forall_mem_cons, ← inductionHypothesis, checkMethods]
      cases Verification.verify definition method with
      | error error => simp
      | ok value =>
          by_cases high : limit < method.signature.maxStack.toNat
          · simp [high, Nat.not_le.mpr high]
          · simp [high, Nat.le_of_not_lt high]

/-- A type is taken when its name is free, its artifact can be read and it passes the check. It stands
before the types that were there. -/
theorem accepted_of_define [ObjectFormat] {registry later : Registry} {limit : Nat} {artifact : Artifact}
    {definition : TypeDefinition}
    (accepted : registry.define limit artifact = .ok (definition, later)) :
    registry.get? artifact.name = none ∧ TypeDefinition.read artifact.image = .ok definition ∧
      check artifact.name limit definition = .ok () ∧
      later = { types := definition :: registry.types } := by
  unfold define at accepted
  split at accepted
  · simp at accepted
  rename_i free
  cases read : TypeDefinition.read artifact.image with
  | error error => simp [read] at accepted
  | ok found =>
      cases checked : check artifact.name limit found with
      | error error => simp [read, checked] at accepted
      | ok value =>
          simp only [read, checked, Except.ok.injEq, Prod.mk.injEq] at accepted
          obtain ⟨rfl, rfl⟩ := accepted
          exact ⟨Option.not_isSome_iff_eq_none.mp free, rfl, checked, rfl⟩

theorem define_ok [ObjectFormat] {registry later : Registry} {limit : Nat} {artifact : Artifact}
    {definition : TypeDefinition}
    (accepted : registry.define limit artifact = .ok (definition, later)) :
    TypeDefinition.read artifact.image = .ok definition ∧ definition.name = artifact.name ∧
      ∀ method ∈ definition.methods, Verification.verify definition method = .ok () ∧
        method.signature.maxStack.toNat ≤ limit := by
  obtain ⟨_, read, checked, _⟩ := accepted_of_define accepted
  unfold check at checked
  split at checked
  · simp at checked
  rename_i named
  cases methods : checkMethods definition limit definition.methods with
  | error error => simp [methods] at checked
  | ok value => exact ⟨read, by simpa using named, checkMethods_ok_iff.mp methods⟩

def exceeds (limit : Nat) (method : Method) : Bool :=
  decide (limit < method.signature.maxStack.toNat)

theorem exceeds_iff {limit : Nat} {method : Method} :
    exceeds limit method = true ↔ limit < method.signature.maxStack.toNat :=
  decide_eq_true_iff

theorem checkMethods_of_verified {definition : TypeDefinition} {limit : Nat}
    {methods : List Method}
    (verified : ∀ method ∈ methods, Verification.verify definition method = .ok ()) :
    checkMethods definition limit methods =
      match methods.find? (exceeds limit) with
      | some method =>
          .error (.stackLimit definition.name method.signature.name
            method.signature.maxStack.toNat limit)
      | none => .ok () := by
  induction methods with
  | nil => rfl
  | cons method rest inductionHypothesis =>
      rw [checkMethods, verified method List.mem_cons_self]
      by_cases high : limit < method.signature.maxStack.toNat
      · rw [List.find?_cons_of_pos (exceeds_iff.mpr high)]
        exact if_pos high
      · rw [List.find?_cons_of_neg (fun exceeding => high (exceeds_iff.mp exceeding))]
        simp only [high, if_false]
        exact inductionHypothesis fun other member => verified other (List.mem_cons_of_mem _ member)

/-- Only the limit can keep a type out whose artifact can be read and whose methods are all in order. -/
theorem define_of_verified [ObjectFormat] {registry : Registry} {limit : Nat} {artifact : Artifact}
    {definition : TypeDefinition} (fresh : registry.get? artifact.name = none)
    (read : TypeDefinition.read artifact.image = .ok definition)
    (named : artifact.name = definition.name)
    (verified : ∀ method ∈ definition.methods, Verification.verify definition method = .ok ())
    (coded : ∃ method ∈ definition.methods, ¬ method.code.isEmpty = true) :
    registry.define limit artifact =
      match definition.methods.find? (exceeds limit) with
      | some method =>
          .error (.stackLimit definition.name method.signature.name
            method.signature.maxStack.toNat limit)
      | none => .ok (definition, { types := definition :: registry.types }) := by
  have filled : (definition.methods.all fun method => method.code.isEmpty) = false := by
    obtain ⟨method, member, code⟩ := coded
    exact List.all_eq_false.mpr ⟨method, member, code⟩
  have checked := @checkMethods_of_verified definition limit _ verified
  unfold define check
  rw [named] at fresh
  simp only [fresh, read, named, filled]
  cases found : definition.methods.find? (exceeds limit) with
  | none =>
      rw [found] at checked
      simp [checked]
  | some method =>
      rw [found] at checked
      simp [checked]

end Registry
end FragmentLisp
