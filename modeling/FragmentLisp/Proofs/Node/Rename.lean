import FragmentLisp.Lisp.Operator
import FragmentLisp.Proofs.Node
import Mathlib.Logic.Equiv.Basic

/-!
Nodes with other names. A renaming gives every symbol another name, save the operators at the heads of lists:
these are no names but words of the language.
-/

namespace FragmentLisp

namespace Lisp

/-- Other names for names. Different names get different ones, and the reserved names stay as they are. -/
structure Renaming where
  apply : String → String
  injective : Function.Injective apply
  reserved : ∀ name ∈ reservedNames, apply name = name

namespace Renaming

variable {aliases : Renaming}

theorem mem_reservedNames_iff {name : String} :
    aliases.apply name ∈ reservedNames ↔ name ∈ reservedNames := by
  constructor
  · intro member
    have fixed := aliases.reserved _ member
    rwa [aliases.injective fixed] at member
  · intro member
    rwa [aliases.reserved name member]

theorem lookup_map_apply {Value : Type} (entries : List (String × Value)) (name : String) :
    (entries.map fun entry => (aliases.apply entry.1, entry.2)).lookup (aliases.apply name) =
      entries.lookup name := by
  induction entries with
  | nil => rfl
  | cons entry rest inductionHypothesis =>
      obtain ⟨own, found⟩ := entry
      have same : (aliases.apply name == aliases.apply own) = (name == own) :=
        Bool.eq_iff_iff.mpr (by simp [aliases.injective.eq_iff])
      simp [List.lookup_cons, same, inductionHypothesis]

def swap (first second : String) (firstFree : first ∉ reservedNames)
    (secondFree : second ∉ reservedNames) : Renaming :=
  { apply := Equiv.swap first second
    injective := (Equiv.swap first second).injective
    reserved := by
      intro name member
      apply Equiv.swap_apply_of_ne_of_ne
      · rintro rfl
        exact firstFree member
      · rintro rfl
        exact secondFree member }

end Renaming
end Lisp

namespace Node

open Lisp (Renaming)

mutual
def rename (aliases : Renaming) : Node → Node
  | list items span => list (renameForm aliases items) span
  | vector items span => vector (renameAll aliases items) span
  | number value span => number value span
  | string value span => string value span
  | symbol name span => symbol (aliases.apply name) span

/-- The items of a list with other names. An operator at the head is kept. -/
def renameForm (aliases : Renaming) : List Node → List Node
  | [] => []
  | symbol operator span :: arguments => symbol operator span :: renameAll aliases arguments
  | head :: rest => head.rename aliases :: renameAll aliases rest

def renameAll (aliases : Renaming) : List Node → List Node
  | [] => []
  | node :: rest => node.rename aliases :: renameAll aliases rest
end

variable {aliases : Renaming}

theorem renameAll_eq_map (nodes : List Node) :
    renameAll aliases nodes = nodes.map (rename aliases) := by
  induction nodes with
  | nil => rfl
  | cons node rest inductionHypothesis => rw [renameAll, inductionHypothesis, List.map_cons]

theorem rename_form (name : String) (nameSpan span : Span) (arguments : List Node) :
    (list (symbol name nameSpan :: arguments) span).rename aliases =
      list (symbol name nameSpan :: arguments.map (rename aliases)) span := by
  rw [rename, renameForm, renameAll_eq_map]

theorem rename_vector (items : List Node) (span : Span) :
    (vector items span).rename aliases = vector (items.map (rename aliases)) span := by
  rw [rename, renameAll_eq_map]

@[simp] theorem span_rename (node : Node) : (node.rename aliases).span = node.span := by
  cases node <;> rfl

@[simp] theorem operatorName?_rename (node : Node) :
    (node.rename aliases).operatorName? = node.operatorName? := by
  cases node with
  | list items span =>
      cases items with
      | nil => rfl
      | cons head rest => cases head <;> rfl
  | _ => rfl

end Node
end FragmentLisp
