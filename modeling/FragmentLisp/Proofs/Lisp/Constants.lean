import FragmentLisp.Proofs.Lisp.Occurrence

/-!
What is among the constants of a type: every text of its fields and of its body. The code that uses them
bounds their number.
-/

namespace FragmentLisp
namespace Lisp
namespace Constants

theorem mem_add {constants : Constants} {text other : String} :
    text ∈ constants.add other ↔ text ∈ constants ∨ text = other := by
  unfold add
  split
  · rename_i known
    refine ⟨Or.inl, fun either => either.elim id ?_⟩
    rintro rfl
    simpa using known
  · exact Array.mem_push

/-! Nothing that has been added is lost or gets another number. -/

theorem add_keeps (constants : Constants) (text : String) :
    constants.toList <+: (constants.add text).toList := by
  unfold add
  split
  · exact List.prefix_rfl
  · simp

theorem foldl_keeps {Item : Type} {addItem : Constants → Item → Constants} {items : List Item}
    (each : ∀ item ∈ items, ∀ constants, constants.toList <+: (addItem constants item).toList)
    (constants : Constants) : constants.toList <+: (items.foldl addItem constants).toList := by
  induction items generalizing constants with
  | nil => exact List.prefix_rfl
  | cons item rest inductionHypothesis =>
      have own := each item List.mem_cons_self constants
      have others := inductionHypothesis fun other member => each other (List.mem_cons_of_mem _ member)
      exact own.trans (others (addItem constants item))

theorem mem_of_kept {constants later : Constants} (grown : constants.toList <+: later.toList)
    {text : String} (member : text ∈ constants) : text ∈ later := by
  rw [← Array.mem_toList_iff] at member ⊢
  exact grown.subset member

theorem number_of_kept {constants later : Constants} (grown : constants.toList <+: later.toList)
    {text : String} (member : text ∈ constants) : later.number text = constants.number text := by
  obtain ⟨index, found⟩ := Option.isSome_iff_exists.mp (Array.isSome_idxOf?.mpr member)
  have foundLater : later.idxOf? text = some index := by
    obtain ⟨texts⟩ := constants
    obtain ⟨more⟩ := later
    rw [List.idxOf?_toArray] at found ⊢
    exact grown.findIdx?_eq_some found
  rw [number, number, found, foundLater]
  rfl

theorem addExprs_eq (constants : Constants) (exprs : List Expr) :
    addExprs constants exprs = exprs.foldl addExpr constants := by
  induction exprs generalizing constants with
  | nil => rfl
  | cons expr rest inductionHypothesis =>
      rw [addExprs, List.foldl_cons, inductionHypothesis]

theorem addBindings_eq (constants : Constants) (bindings : List (UInt16 × Expr)) :
    addBindings constants bindings = (bindings.map Prod.snd).foldl addExpr constants := by
  induction bindings generalizing constants with
  | nil => rfl
  | cons binding rest inductionHypothesis =>
      rw [addBindings, List.map_cons, List.foldl_cons, inductionHypothesis]

theorem addExpr_eq (constants : Constants) (expr : Expr) :
    addExpr constants expr =
      expr.parts.foldl addExpr (expr.literal?.elim constants constants.add) := by
  cases expr with
  | localBinding bindings body =>
      rw [addExpr, addExprs_eq, addBindings_eq, ← List.foldl_append]
      rfl
  | _ => simp [addExpr, addExprs_eq, Expr.parts, Expr.literal?]

theorem addExpr_keeps (expr : Expr) :
    ∀ constants, constants.toList <+: (addExpr constants expr).toList := by
  induction expr using Expr.partsInduction with
  | step expr partsHypothesis =>
      intro constants
      have inside := foldl_keeps partsHypothesis (expr.literal?.elim constants constants.add)
      rw [addExpr_eq]
      cases literal : expr.literal? with
      | none => rwa [literal] at inside
      | some own =>
          rw [literal] at inside
          exact (add_keeps constants own).trans inside

theorem addExprs_keeps (exprs : List Expr) (constants : Constants) :
    constants.toList <+: (exprs.foldl addExpr constants).toList :=
  foldl_keeps (fun expr _ => addExpr_keeps expr) constants

theorem literal_mem {expr : Expr} {text : String} (literal : expr.literal? = some text)
    (constants : Constants) : text ∈ addExpr constants expr := by
  rw [addExpr_eq, literal]
  exact mem_of_kept (addExprs_keeps _ _) (mem_add.mpr (Or.inr rfl))

theorem added_by_member {exprs : List Expr} {expr : Expr} (member : expr ∈ exprs)
    (constants : Constants) :
    ∃ earlier, ∀ text ∈ addExpr earlier expr, text ∈ exprs.foldl addExpr constants := by
  obtain ⟨before, behind, rfl⟩ := List.append_of_mem member
  refine ⟨before.foldl addExpr constants, fun text added => ?_⟩
  rw [List.foldl_append, List.foldl_cons]
  exact mem_of_kept (addExprs_keeps _ _) added

theorem added_by_occurring {fieldKinds : List Kind} {outer inner : Occurrence}
    (occurs : Occurrence.Occurs fieldKinds outer inner) (constants : Constants) :
    ∃ earlier, ∀ text ∈ addExpr earlier inner.expr, text ∈ addExpr constants outer.expr := by
  induction occurs with
  | self => exact ⟨constants, fun _ added => added⟩
  | @child middle inner _ member inductionHypothesis =>
      obtain ⟨earlier, kept⟩ := inductionHypothesis
      obtain ⟨first, added⟩ := added_by_member (Occurrence.child_within member).2.2.2
        (middle.expr.literal?.elim earlier earlier.add)
      refine ⟨first, fun text own => kept text ?_⟩
      rw [addExpr_eq]
      exact added text own

theorem addStatement_eq (constants : Constants) (statement : Statement) :
    addStatement constants statement = addExpr constants statement.value := by
  cases statement <;> rfl

theorem ofBody_eq (fields : List Field) (body : Body) :
    ofBody fields body =
      (body.statements.map Statement.value).foldl addExpr (fields.foldl addField #[]) := by
  rw [ofBody, List.foldl_map]
  congr 1
  funext constants statement
  exact addStatement_eq constants statement

theorem pooled_ofBody (fields : List Field) {body : Body} {fieldKinds kinds : List Kind}
    {base : Nat} {child : Occurrence}
    (member : child ∈ Occurrence.inSequence fieldKinds kinds base body.statements) :
    Pooled fieldKinds (ofBody fields body) child := by
  intro inner occurs text literal
  obtain ⟨_, _, ⟨statement, inBody, value⟩, _⟩ := Occurrence.mem_inSequence member
  have valueMember : child.expr ∈ body.statements.map Statement.value :=
    List.mem_map.mpr ⟨statement, inBody, value⟩
  obtain ⟨before, own⟩ := added_by_member valueMember (fields.foldl addField #[])
  obtain ⟨earlier, deeper⟩ := added_by_occurring occurs before
  rw [ofBody_eq]
  exact own text (deeper text (literal_mem literal earlier))

theorem addField_keeps (field : Field) (constants : Constants) :
    constants.toList <+: (addField constants field).toList := by
  unfold addField
  split
  · exact add_keeps constants _
  · exact List.prefix_rfl

theorem addFields_keeps (fields : List Field) (constants : Constants) :
    constants.toList <+: (fields.foldl addField constants).toList :=
  foldl_keeps (fun field _ => addField_keeps field) constants

theorem field_mem_ofBody {fields : List Field} {field : Field} {text : String}
    (member : field ∈ fields) (value : field.value = .string text) (body : Body) :
    text ∈ ofBody fields body := by
  rw [ofBody_eq]
  apply mem_of_kept (addExprs_keeps _ _)
  obtain ⟨before, behind, rfl⟩ := List.append_of_mem member
  rw [List.foldl_append, List.foldl_cons]
  apply mem_of_kept (addFields_keeps _ _)
  rw [addField, value]
  exact mem_add.mpr (Or.inr rfl)

/-! There are no more constants than the code of a type has room to use. -/

theorem size_add (constants : Constants) (text : String) :
    (constants.add text).size ≤ constants.size + 1 := by
  unfold add
  split
  · exact Nat.le_succ _
  · exact Nat.le_of_eq (Array.size_push _)

theorem sum_le_widthAll (gap : Nat) (exprs : List Expr) :
    (exprs.map Expr.width).sum ≤ widthAll gap exprs := by
  induction exprs with
  | nil => exact Nat.le_refl _
  | cons expr rest inductionHypothesis =>
      rw [List.map_cons, List.sum_cons, widthAll]
      omega

theorem sum_eq_widthBound (bindings : List (UInt16 × Expr)) :
    ((bindings.map Prod.snd).map Expr.width).sum + 3 * bindings.length = widthBound bindings := by
  induction bindings with
  | nil => rfl
  | cons binding rest inductionHypothesis =>
      simp only [List.map_cons, List.sum_cons, List.length_cons, widthBound]
      omega

/-- The code of an expression holds the code of its parts and the use of its own text. -/
theorem parts_width (expr : Expr) :
    (expr.parts.map Expr.width).sum + (expr.literal?.elim 0 fun _ => 5) ≤ expr.width := by
  cases expr with
  | arithmetic op operands =>
      cases operands with
      | nil => exact Nat.zero_le _
      | cons first rest =>
          have others := sum_le_widthAll 1 rest
          simp only [Expr.parts, Expr.literal?, Expr.width, List.map_cons, List.sum_cons,
            Option.elim_none]
          omega
  | conjunction operands =>
      have inside := sum_le_widthAll 5 operands
      simp only [Expr.parts, Expr.literal?, Expr.width, Option.elim_none]
      omega
  | disjunction operands =>
      have inside := sum_le_widthAll 6 operands
      simp only [Expr.parts, Expr.literal?, Expr.width, Option.elim_none]
      omega
  | concat parts =>
      have inside := sum_le_widthAll 0 parts
      simp only [Expr.parts, Expr.literal?, Expr.width, Option.elim_none]
      omega
  | print newline arguments =>
      simp only [Expr.parts, Expr.literal?, Expr.width, Option.elim_some]
      cases arguments with
      | nil => simp [widthAll]
      | cons first rest =>
          have others := sum_le_widthAll 5 rest
          simp only [List.map_cons, List.sum_cons, widthAll]
          omega
  | localBinding bindings body =>
      have bound := sum_eq_widthBound bindings
      simp only [Expr.parts, Expr.literal?, Expr.width, List.map_append, List.sum_append,
        Option.elim_none]
      cases body with
      | nil =>
          simp only [List.map_nil, List.sum_nil, List.isEmpty_nil, if_true]
          omega
      | cons first rest =>
          have others := sum_le_widthAll 1 rest
          simp only [List.map_cons, List.sum_cons, List.isEmpty_cons, Bool.false_eq_true, if_false,
            widthAll]
          omega
  | _ =>
      simp only [Expr.parts, Expr.literal?, Expr.width, List.map_cons, List.map_nil, List.sum_cons,
        List.sum_nil, Option.elim_none, Option.elim_some]
      omega

theorem foldl_size {exprs : List Expr}
    (each : ∀ expr ∈ exprs, ∀ constants,
      5 * (addExpr constants expr).size ≤ 5 * constants.size + expr.width) (constants : Constants) :
    5 * (exprs.foldl addExpr constants).size ≤ 5 * constants.size + (exprs.map Expr.width).sum := by
  induction exprs generalizing constants with
  | nil => exact Nat.le_refl _
  | cons expr rest inductionHypothesis =>
      have own := each expr List.mem_cons_self constants
      have others := inductionHypothesis (fun other inRest => each other
        (List.mem_cons_of_mem _ inRest)) (addExpr constants expr)
      rw [List.foldl_cons, List.map_cons, List.sum_cons]
      omega

theorem addExpr_size (expr : Expr) :
    ∀ constants, 5 * (addExpr constants expr).size ≤ 5 * constants.size + expr.width := by
  induction expr using Expr.partsInduction with
  | step expr partsHypothesis =>
      intro constants
      have room := parts_width expr
      have inside := foldl_size partsHypothesis (expr.literal?.elim constants constants.add)
      rw [addExpr_eq]
      cases literal : expr.literal? with
      | none =>
          rw [literal, Option.elim_none] at inside room
          rw [Option.elim_none]
          omega
      | some text =>
          rw [literal, Option.elim_some] at inside room
          rw [Option.elim_some]
          have own := size_add constants text
          omega

theorem addFields_size (fields : List Field) (constants : Constants) :
    (fields.foldl addField constants).size ≤ constants.size + fields.length := by
  induction fields generalizing constants with
  | nil => exact Nat.le_refl _
  | cons field rest inductionHypothesis =>
      have own : (addField constants field).size ≤ constants.size + 1 := by
        unfold addField
        split
        · exact size_add _ _
        · exact Nat.le_succ _
      have others := inductionHypothesis (addField constants field)
      rw [List.foldl_cons, List.length_cons]
      omega

theorem sum_le_widthSteps (statements : List Statement) :
    ((statements.map Statement.value).map Expr.width).sum ≤ Code.widthSteps statements := by
  induction statements with
  | nil => exact Nat.le_refl _
  | cons statement rest inductionHypothesis =>
      cases statement with
      | definition slot value =>
          simp only [List.map_cons, List.sum_cons, Statement.value, Code.widthSteps]
          omega
      | expression value =>
          cases rest with
          | nil => exact Nat.le_refl _
          | cons next others =>
              simp only [List.map_cons, List.sum_cons, Statement.value, Code.widthSteps] at *
              omega

theorem size_ofBody (fields : List Field) (body : Body) :
    5 * (ofBody fields body).size ≤ 5 * fields.length + Code.widthSteps body.statements := by
  have given := addFields_size fields #[]
  have added := foldl_size (fun expr (_ : expr ∈ body.statements.map Statement.value) =>
    addExpr_size expr) (fields.foldl addField #[])
  have total := sum_le_widthSteps body.statements
  rw [Array.size_empty] at given
  rw [ofBody_eq]
  omega

end Constants
end Lisp
end FragmentLisp
