import FragmentLisp.Proofs.Lisp.Evaluation

/-!
Where kinds get lost. A kind is unknown only behind a conditional that joins two different ones: if no
conditional does, the kinds of all expressions and of all slots are known.
-/

namespace FragmentLisp
namespace Lisp

open Occurrence (inTurn inSequence Settled Occurs)

/-- A conditional whose two branches have the same kind, or any other form. -/
def Occurrence.JoinsAlike (fieldKinds : List Kind) (occurrence : Occurrence) : Prop :=
  ∀ condition consequent alternative,
    occurrence.expr = .conditional condition consequent alternative →
      consequent.kind fieldKinds occurrence.kinds = alternative.kind fieldKinds occurrence.kinds

section Known

variable {fieldKinds : List Kind}

theorem known_at {kinds : List Kind} (known : Kind.any ∉ kinds) {index : Nat}
    (inside : index < kinds.length) : kinds[index]?.getD .any ≠ .any := by
  rw [List.getElem?_eq_getElem inside]
  intro unknown
  exact known (unknown ▸ List.getElem_mem inside)

/-- Where the values of statements have known kinds, so have the slots that these take. -/
theorem known_inSequence {kinds : List Kind} {base : Nat} {statements : List Statement}
    (each : ∀ child ∈ inSequence fieldKinds kinds base statements,
      Kind.any ∉ child.kinds → child.kind fieldKinds ≠ .any)
    (known : Kind.any ∉ kinds) {last? : Option Kind} (lastKnown : last? ≠ some .any) :
    (∀ child ∈ inSequence fieldKinds kinds base statements, Kind.any ∉ child.kinds) ∧
      resultKind? fieldKinds kinds last? statements ≠ some .any := by
  induction statements generalizing kinds base last? with
  | nil => exact ⟨fun child member => absurd member List.not_mem_nil, lastKnown⟩
  | cons statement rest inductionHypothesis =>
      cases statement with
      | definition slot value =>
          have own : value.kind fieldKinds kinds ≠ .any := each _ List.mem_cons_self known
          have more : Kind.any ∉ kinds ++ [value.kind fieldKinds kinds] := by
            rw [List.mem_append, List.mem_singleton]
            exact not_or.mpr ⟨known, own.symm⟩
          obtain ⟨others, result⟩ := @inductionHypothesis _ _
            (fun child member => each child (List.mem_cons_of_mem _ member)) more none nofun
          refine ⟨?_, result⟩
          intro child member
          rcases List.mem_cons.mp member with rfl | later
          · exact known
          · exact others child later
      | expression value =>
          have own : value.kind fieldKinds kinds ≠ .any := each _ List.mem_cons_self known
          obtain ⟨others, result⟩ := @inductionHypothesis _ _
            (fun child member => each child (List.mem_cons_of_mem _ member)) known
            (some (value.kind fieldKinds kinds)) (fun same => own (Option.some.inj same))
          refine ⟨?_, result⟩
          intro child member
          rcases List.mem_cons.mp member with rfl | later
          · exact known
          · exact others child later

theorem known_children {parent : Occurrence}
    (each : ∀ child ∈ parent.children fieldKinds,
      Kind.any ∉ child.kinds → child.kind fieldKinds ≠ .any)
    (known : Kind.any ∉ parent.kinds) :
    ∀ child ∈ parent.children fieldKinds, Kind.any ∉ child.kinds := by
  intro child member
  unfold Occurrence.children at member each
  split at member
  · rcases List.mem_cons.mp member with rfl | later
    · exact known
    · rw [(Occurrence.mem_inTurn later).1]
      exact known
  · exact (@known_inSequence fieldKinds _ _ _ each known none nofun).1 child member
  · rw [(Occurrence.mem_inTurn member).1]
    exact known

/-- Everything in an occurrence has a known kind, if no conditional joins different kinds. -/
theorem known_of_joinsAlike {slots : Nat} (fieldsKnown : Kind.any ∉ fieldKinds)
    (occurrence : Occurrence) (settled : Settled fieldKinds slots occurrence)
    (alike : ∀ inner, Occurs fieldKinds occurrence inner → inner.JoinsAlike fieldKinds)
    (known : Kind.any ∉ occurrence.kinds) :
    ∀ inner, Occurs fieldKinds occurrence inner → inner.kind fieldKinds ≠ .any := by
  induction occurrence using Occurrence.childInduction fieldKinds with
  | step occurrence childHypothesis =>
      have below : ∀ child ∈ occurrence.children fieldKinds, Kind.any ∉ child.kinds →
          ∀ inner, Occurs fieldKinds child inner → inner.kind fieldKinds ≠ .any := by
        intro child member
        apply childHypothesis child member (settled.child member)
        exact fun inner occurs => alike inner ((Occurs.child .self member).trans occurs)
      have each : ∀ child ∈ occurrence.children fieldKinds, Kind.any ∉ child.kinds →
          child.kind fieldKinds ≠ .any :=
        fun child member childKnown => below child member childKnown child .self
      have children := known_children each known
      intro inner occurs
      rcases occurs.cases_first with rfl | ⟨child, member, deeper⟩
      · have fine := settled inner .self
        have joins := alike inner .self
        obtain ⟨kinds, base, expr⟩ := inner
        cases expr with
        | localSlot slot => exact known_at known (fine.localSlot slot rfl)
        | field index => exact known_at fieldsKnown (fine.field index rfl)
        | conditional condition consequent alternative =>
            have chosen := each ⟨kinds, base + condition.width + 5, consequent⟩
              (List.mem_cons_of_mem _ List.mem_cons_self) known
            have same := joins condition consequent alternative rfl
            rw [Occurrence.kind, Expr.kind, Kind.join, if_pos same]
            exact chosen
        | localBinding bindings body =>
            have result := (@known_inSequence fieldKinds _ _ _ each known none (by rintro ⟨⟩)).2
            rw [Occurrence.kind, kind_localBinding]
            intro unknown
            cases found : resultKind? fieldKinds kinds none (bindingSteps bindings body) with
            | none => simp [found] at unknown
            | some kind =>
                rw [found, Option.getD_some] at unknown
                exact result (by rw [found, unknown])
        | _ => rintro ⟨⟩
      · exact below child member (children child member) inner deeper

end Known

end Lisp
end FragmentLisp
