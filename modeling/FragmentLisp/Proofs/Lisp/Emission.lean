import FragmentLisp.Proofs.Assembly
import FragmentLisp.Proofs.Lisp.Constants
import FragmentLisp.Proofs.Lisp.Layout

/-!
Code that is made by adding one instruction after the other. Whoever adds a forward jump does not know yet
where it leads: the jump is added with the target 0 and patched when the body has grown as far as its
target, and constants are numbered as they turn up. It comes to the code that `Code.ofExpr` lays out with
targets and numbers that are known from the start.
-/

namespace FragmentLisp
namespace Lisp

structure Draft where
  body : Assembly
  constants : Constants

namespace Draft

def add (draft : Draft) (instruction : Instruction) : Draft :=
  { draft with body := draft.body.add instruction }

def extend (draft : Draft) (instructions : List Instruction) : Draft :=
  { draft with body := draft.body.extend instructions }

def patchJump (draft : Draft) (index target : Nat) : Draft :=
  { draft with body := draft.body.patchJump index target }

def addConstant (draft : Draft) (text : String) : Draft :=
  { draft with constants := draft.constants.add text }

def pushConstant (draft : Draft) (text : String) : Draft :=
  let draft := draft.addConstant text
  draft.add (.pushConstant (draft.constants.number text))

def next (draft : Draft) : Nat :=
  draft.body.next

end Draft

namespace Code

/-- End a short circuit whose operands have been added: point the jump behind each of them at the value
that is left when it is taken. -/
def close (stopAtTrue : Bool) (draft : Draft) (exits : List Nat) : Draft :=
  let draft := draft.add (.pushBoolean !stopAtTrue)
  let endJump := draft.next
  let draft := draft.add (.jump 0)
  let stopped := draft.next
  let draft := exits.foldl (fun draft exit => draft.patchJump exit stopped) draft
  let draft := draft.add (.pushBoolean stopAtTrue)
  draft.patchJump endJump draft.next

mutual
def emit (draft : Draft) : Expr → Except InternalError Draft
  | .number value => .ok (draft.add (.pushInteger value))
  | .boolean value => .ok (draft.add (.pushBoolean value))
  | .string value => .ok (draft.pushConstant value)
  | .nil => .ok (draft.add .pushNil)
  | .localSlot slot => .ok (draft.add (.loadLocal slot))
  | .field index => .ok (draft.add (.loadField index))
  | .arithmetic _ [] => .error .missingOperands
  | .arithmetic op (first :: rest) => do
      let draft ← emit draft first
      emitEach [.arithmetic op] draft rest
  | .negate operand => do
      let draft ← emit draft operand
      return draft.add .negate
  | .equal left right => do
      let draft ← emit draft left
      let draft ← emit draft right
      return draft.add .equal
  | .order op left right => do
      let draft ← emit draft left
      let draft ← emit draft right
      return draft.add (.order op)
  | .not operand => do
      let draft ← emit draft operand
      return draft.add .not
  | .conjunction operands => do
      let (draft, exits) ← emitOperands false draft [] operands
      return close false draft exits
  | .disjunction operands => do
      let (draft, exits) ← emitOperands true draft [] operands
      return close true draft exits
  | .conditional condition consequent alternative => do
      let draft ← emit draft condition
      let elseJump := draft.next
      let draft ← emit (draft.add (.jumpIfFalse 0)) consequent
      let endJump := draft.next
      let draft := draft.add (.jump 0)
      let draft := draft.patchJump elseJump draft.next
      let draft ← emit draft alternative
      return draft.patchJump endJump draft.next
  | .localBinding bindings body => do
      let draft ← emitBindings draft bindings
      emitBetween .pop (if body.isEmpty then draft.add .pushNil else draft) body
  | .concat parts => do
      let draft ← emitEach [] draft parts
      let count ← operandCount parts.length
      return draft.add (.concat count)
  | .count operand => do
      let draft ← emit draft operand
      return draft.add .count
  | .print newline arguments => do
      let draft := draft.addConstant Constants.separator
      let separator := Instruction.pushConstant (draft.constants.number Constants.separator)
      let draft ← emitBetween separator draft arguments
      let count ← operandCount (2 * arguments.length - 1)
      return draft.extend [.concat count, .print newline, .pushNil]

def emitEach (behind : List Instruction) (draft : Draft) : List Expr → Except InternalError Draft
  | [] => .ok draft
  | expr :: rest => do
      let draft ← emit draft expr
      emitEach behind (draft.extend behind) rest

def emitBetween (between : Instruction) (draft : Draft) : List Expr → Except InternalError Draft
  | [] => .ok draft
  | expr :: rest => do
      let draft ← emit draft expr
      emitBetween between (if rest.isEmpty then draft else draft.add between) rest

def emitBindings (draft : Draft) : List (UInt16 × Expr) → Except InternalError Draft
  | [] => .ok draft
  | (slot, value) :: rest => do
      let draft ← emit draft value
      emitBindings (draft.add (.storeLocal slot)) rest

/-- Add the operands of a short circuit in turn, and note the number of the jump behind each. -/
def emitOperands (stopAtTrue : Bool) (draft : Draft) (exits : List Nat) :
    List Expr → Except InternalError (Draft × List Nat)
  | [] => .ok (draft, exits)
  | operand :: rest => do
      let draft ← emit draft operand
      let draft := if stopAtTrue then draft.add .not else draft
      emitOperands stopAtTrue (draft.add (.jumpIfFalse 0)) (exits ++ [draft.next]) rest
end

def emitStatements (draft : Draft) : List Statement → Except InternalError Draft
  | [] => .ok draft
  | .definition slot value :: rest => do
      let draft ← emit draft value
      emitStatements (draft.add (.storeLocal slot)) rest
  | .expression value :: rest => do
      let draft ← emit draft value
      emitStatements (if rest.isEmpty then draft else draft.add .pop) rest

def emitBody (draft : Draft) (body : Body) : Except InternalError Draft := do
  let draft ← emitStatements draft body.statements
  match body.result?, body.statements.getLast? with
  | none, _ => return draft.add .returnVoid
  | some _, some (.expression _) => return draft.add .return
  | some _, none => return draft.extend [.pushNil, .return]
  | some _, some (.definition _ _) => .error .resultOfDefinition

def emitField (draft : Draft) (field : Field) : Except InternalError Draft :=
  match field.value with
  | .integer value => .ok (draft.add (.pushInteger value))
  | .boolean value => .ok (draft.add (.pushBoolean value))
  | .string value => .ok (draft.pushConstant value)
  | .nil => .ok (draft.add .pushNil)
  | .nothing => .error (.fieldWithoutValue field.name)

def emitFields (draft : Draft) (index : Nat) : List Field → Except InternalError Draft
  | [] => .ok (draft.add .returnVoid)
  | field :: rest => do
      let draft ← emitField draft field
      emitFields (draft.add (.storeField (UInt16.ofNat index))) (index + 1) rest

def emitType {Fragment : Type} (unit : CompilationUnit Fragment) (body : Body) :
    Except InternalError TypeDefinition := do
  let filling ← emitFields { body := .empty, constants := #[] } 0 unit.fields
  let running ← emitBody { body := .empty, constants := filling.constants } body
  if 65535 < unit.fields.length then
    .error .tooManyFields
  else do
    let constructor ←
      method TypeDefinition.constructorName 0 false filling.body.instructions.toList
    let entry ←
      method unit.entryMethod body.locals body.result?.isSome running.body.instructions.toList
    return {
      name := unit.typeName
      fieldCount := UInt16.ofNat unit.fields.length
      constants := running.constants.toList
      methods := [constructor, entry] }

end Code

namespace Draft

variable {constants later : Constants}

def size (draft : Draft) : Nat :=
  codeSize draft.body.instructions.toList

def grown (draft : Draft) (constants : Constants) (code : List Instruction) : Draft :=
  { body := draft.body.extend code, constants }

@[simp] theorem constants_grown (draft : Draft) (constants : Constants) (code : List Instruction) :
    (draft.grown constants code).constants = constants := rfl

@[simp] theorem grown_grown (draft : Draft) (code more : List Instruction) :
    (draft.grown constants code).grown later more = draft.grown later (code ++ more) :=
  congrArg (Draft.mk · later) (Assembly.extend_extend draft.body code more)

@[simp] theorem size_grown (draft : Draft) (constants : Constants) (code : List Instruction) :
    (draft.grown constants code).size = draft.size + codeSize code := by
  simp [size, grown]

@[simp] theorem next_grown (draft : Draft) (constants : Constants) (code : List Instruction) :
    (draft.grown constants code).next = draft.next + code.length :=
  draft.body.next_extend code

theorem grown_nil (draft : Draft) : draft.grown draft.constants [] = draft :=
  congrArg (Draft.mk · draft.constants) draft.body.extend_nil

@[simp] theorem add_eq_grown (draft : Draft) (instruction : Instruction) :
    draft.add instruction = draft.grown draft.constants [instruction] :=
  congrArg (Draft.mk · draft.constants) (draft.body.add_eq_extend instruction)

@[simp] theorem extend_eq_grown (draft : Draft) (code : List Instruction) :
    draft.extend code = draft.grown draft.constants code := rfl

@[simp] theorem addConstant_eq_grown (draft : Draft) (text : String) :
    draft.addConstant text = draft.grown (draft.constants.add text) [] :=
  congrArg (Draft.mk · (draft.constants.add text)) draft.body.extend_nil.symm

theorem pushConstant_eq_grown (draft : Draft) (text : String) :
    draft.pushConstant text = draft.grown (draft.constants.add text)
      [.pushConstant ((draft.constants.add text).number text)] := by
  simp [pushConstant]

theorem patchJump_grown (draft : Draft) (constants : Constants) (before after : List Instruction)
    (jump : Instruction) {number target : Nat} (own : number = draft.next + before.length)
    (finish : target = draft.next + (before ++ jump :: after).length) :
    (draft.grown constants (before ++ jump :: after)).patchJump number target =
      draft.grown constants (before ++ jump.retarget
        (UInt32.ofNat (draft.size + codeSize (before ++ jump :: after))) :: after) := by
  subst own finish
  exact congrArg (Draft.mk · constants) (draft.body.patchJump_extend before after jump)

end Draft

namespace Code

open Draft

variable {final : Constants}

/-! Early exits. -/

def exitsOf (stopAtTrue : Bool) (next : Nat) : List (List Instruction) → List Nat
  | [] => []
  | piece :: rest =>
      let exit := next + (piece ++ stopTest stopAtTrue).length
      exit :: exitsOf stopAtTrue (exit + 1) rest

def withExits (stopAtTrue : Bool) (target : UInt32) (pieces : List (List Instruction)) :
    List Instruction :=
  pieces.flatMap fun piece => piece ++ (stopTest stopAtTrue ++ [.jumpIfFalse target])

theorem withExits_size (stopAtTrue : Bool) (target : UInt32) (pieces : List (List Instruction)) :
    codeSize (withExits stopAtTrue target pieces) = piecesSize (stopGap stopAtTrue) pieces :=
  stopPieces_size stopAtTrue target pieces

theorem withExits_cons (stopAtTrue : Bool) (target : UInt32) (piece : List Instruction)
    (rest : List (List Instruction)) :
    withExits stopAtTrue target (piece :: rest) =
      (piece ++ stopTest stopAtTrue) ++ .jumpIfFalse target :: withExits stopAtTrue target rest := by
  simp [withExits]

theorem patch_exits (draft : Draft) (constants : Constants) (stopAtTrue : Bool)
    (done rest : List Instruction) (pieces : List (List Instruction)) {target bytes : Nat}
    (number : target = draft.next + (done ++ (withExits stopAtTrue 0 pieces ++ rest)).length)
    (offset : bytes = draft.size + codeSize (done ++ (withExits stopAtTrue 0 pieces ++ rest))) :
    (exitsOf stopAtTrue (draft.next + done.length) pieces).foldl
        (fun draft exit => draft.patchJump exit target)
        (draft.grown constants (done ++ (withExits stopAtTrue 0 pieces ++ rest))) =
      draft.grown constants (done ++ (withExits stopAtTrue (UInt32.ofNat bytes) pieces ++ rest)) := by
  -- An exit that is patched counts as done. It keeps its size, so the target stays where it is.
  induction pieces generalizing done with
  | nil => rfl
  | cons piece others inductionHypothesis =>
      have split : ∀ exit more, done ++ (((piece ++ stopTest stopAtTrue) ++ exit :: more) ++ rest) =
          (done ++ (piece ++ stopTest stopAtTrue)) ++ exit :: (more ++ rest) := by
        simp
      rw [withExits_cons, split] at number offset
      rw [withExits_cons, withExits_cons, split, split, exitsOf, List.foldl_cons,
        patchJump_grown draft constants _ _ _ (by simp [Nat.add_assoc]) number, ← offset]
      have others := inductionHypothesis
        (done ++ (piece ++ stopTest stopAtTrue) ++ [.jumpIfFalse (UInt32.ofNat bytes)])
        (by simpa using number) (by simpa [Instruction.size] using offset)
      simpa [Nat.add_assoc, Instruction.retarget] using others

theorem withExits_length (stopAtTrue : Bool) (target other : UInt32)
    (pieces : List (List Instruction)) :
    (withExits stopAtTrue target pieces).length = (withExits stopAtTrue other pieces).length := by
  simp [withExits, List.length_flatMap]

/-- Closing a short circuit gives the code of one whose targets are known from the start. -/
theorem close_eq (draft : Draft) (constants : Constants) (stopAtTrue : Bool)
    (pieces : List (List Instruction)) :
    close stopAtTrue (draft.grown constants (withExits stopAtTrue 0 pieces))
        (exitsOf stopAtTrue draft.next pieces) =
      draft.grown constants (shortCircuit stopAtTrue draft.size pieces) := by
  let stopped := stopOffset stopAtTrue draft.size pieces
  let exits := withExits stopAtTrue (UInt32.ofNat stopped) pieces
  have offset : draft.size + codeSize (withExits stopAtTrue 0 pieces ++
      [.pushBoolean !stopAtTrue, .jump 0]) = stopped := by
    rw [codeSize_append, withExits_size, ← Nat.add_assoc]
    rfl
  have patched := patch_exits draft constants stopAtTrue [] [.pushBoolean !stopAtTrue, .jump 0]
    pieces rfl rfl
  simp only [List.nil_append, List.length_nil, Nat.add_zero, offset] at patched
  -- The last jump leads behind the value that is left early.
  have finish : draft.size + codeSize (exits ++ [.pushBoolean !stopAtTrue] ++
      .jump 0 :: [.pushBoolean stopAtTrue]) = stopped + 2 := by
    rw [← offset]
    simp [exits, withExits_size, Instruction.size]
    omega
  have last := patchJump_grown draft constants (exits ++ [.pushBoolean !stopAtTrue])
    [.pushBoolean stopAtTrue] (.jump 0) rfl rfl
  have length := withExits_length stopAtTrue 0 (UInt32.ofNat stopped) pieces
  simp only [close, add_eq_grown, grown_grown, next_grown, constants_grown, List.append_assoc,
    List.cons_append, List.nil_append, patched]
  rw [shortCircuit_eq, ← finish]
  simpa [exits, length, withExits, Instruction.retarget] using last

/-! The layout of a list is the layout of its head, and then that of its tail. -/

section Lists

theorem ofExprs_made (constants : Constants) (gap base : Nat) (made : List (List Instruction))
    (exprs : List Expr) :
    ofExprs constants gap base made exprs =
      (made.reverse ++ ·) <$> ofExprs constants gap base [] exprs := by
  induction exprs generalizing base made with
  | nil => simp [ofExprs]
  | cons expr rest inductionHypothesis =>
      rw [ofExprs, ofExprs, map_bind]
      congr 1
      funext code
      rw [inductionHypothesis _ (code :: made), inductionHypothesis _ [code]]
      simp

theorem ofBindings_made (constants : Constants) (base : Nat) (made : List (List Instruction))
    (bindings : List (UInt16 × Expr)) :
    ofBindings constants base made bindings =
      (made.reverse ++ ·) <$> ofBindings constants base [] bindings := by
  induction bindings generalizing base made with
  | nil => simp [ofBindings]
  | cons binding rest inductionHypothesis =>
      obtain ⟨slot, value⟩ := binding
      rw [ofBindings, ofBindings, map_bind]
      congr 1
      funext code
      let store := code ++ [Instruction.storeLocal slot]
      rw [inductionHypothesis _ (store :: made), inductionHypothesis _ [store]]
      simp

/-- Adding the expression gives the code that is laid out for the place, if all its constants are
numbered. -/
def Emitted (final : Constants) (expr : Expr) : Prop :=
  ∀ draft, (Constants.addExpr draft.constants expr).toList <+: final.toList →
    emit draft expr =
      draft.grown (Constants.addExpr draft.constants expr) <$> ofExpr final draft.size expr

theorem emitEach_eq {exprs : List Expr} (each : ∀ expr ∈ exprs, Emitted final expr)
    (behind : List Instruction) (draft : Draft)
    (pooled : (exprs.foldl Constants.addExpr draft.constants).toList <+: final.toList) :
    emitEach behind draft exprs =
      (fun pieces => draft.grown (exprs.foldl Constants.addExpr draft.constants)
        (pieces.flatMap (· ++ behind))) <$>
          ofExprs final (codeSize behind) draft.size [] exprs := by
  induction exprs generalizing draft with
  | nil => simp [emitEach, ofExprs, grown_nil]
  | cons expr rest inductionHypothesis =>
      have own := each expr List.mem_cons_self draft
        ((Constants.addExprs_keeps rest _).trans pooled)
      have others := inductionHypothesis fun other member => each other (List.mem_cons_of_mem _ member)
      rw [emitEach, ofExprs, own, bind_map_left, map_bind]
      congr 1
      funext code
      rw [others _ pooled, ofExprs_made _ _ _ [code]]
      simp [Nat.add_assoc]

theorem emitBetween_eq {exprs : List Expr} (each : ∀ expr ∈ exprs, Emitted final expr)
    (between : Instruction) (draft : Draft)
    (pooled : (exprs.foldl Constants.addExpr draft.constants).toList <+: final.toList) :
    emitBetween between draft exprs =
      (fun pieces => draft.grown (exprs.foldl Constants.addExpr draft.constants)
        (pieces.intersperse [between]).flatten) <$>
          ofExprs final between.size draft.size [] exprs := by
  induction exprs generalizing draft with
  | nil => simp [emitBetween, ofExprs, grown_nil]
  | cons expr rest inductionHypothesis =>
      have own := each expr List.mem_cons_self draft
        ((Constants.addExprs_keeps rest _).trans pooled)
      have others := inductionHypothesis fun other member => each other (List.mem_cons_of_mem _ member)
      rw [emitBetween, ofExprs, own, bind_map_left, map_bind]
      congr 1
      funext code
      cases rest with
      | nil => simp [emitBetween, ofExprs]
      | cons next more =>
          rw [List.isEmpty_cons, if_neg Bool.false_ne_true, others _ pooled, ofExprs_made _ _ _ [code]]
          simp only [ofExprs, map_bind, ofExprs_made _ _ _ [_]]
          simp [Nat.add_assoc]

theorem emitBindings_eq {bindings : List (UInt16 × Expr)}
    (each : ∀ binding ∈ bindings, Emitted final binding.2) (draft : Draft)
    (pooled : ((bindings.map Prod.snd).foldl Constants.addExpr draft.constants).toList <+:
      final.toList) :
    emitBindings draft bindings =
      (fun stores => draft.grown ((bindings.map Prod.snd).foldl Constants.addExpr draft.constants)
        stores.flatten) <$> ofBindings final draft.size [] bindings := by
  induction bindings generalizing draft with
  | nil => simp [emitBindings, ofBindings, grown_nil]
  | cons binding rest inductionHypothesis =>
      obtain ⟨slot, value⟩ := binding
      have own := each _ List.mem_cons_self draft
        ((Constants.addExprs_keeps (rest.map Prod.snd) _).trans pooled)
      have others := inductionHypothesis fun other member => each other (List.mem_cons_of_mem _ member)
      rw [emitBindings, ofBindings, own, bind_map_left, map_bind]
      congr 1
      funext code
      let store := code ++ [Instruction.storeLocal slot]
      rw [others _ pooled, ofBindings_made _ _ [store]]
      simp [store, Nat.add_assoc, Instruction.size]

theorem emitOperands_eq {exprs : List Expr} (each : ∀ expr ∈ exprs, Emitted final expr)
    (stopAtTrue : Bool) (draft : Draft) (exits : List Nat)
    (pooled : (exprs.foldl Constants.addExpr draft.constants).toList <+: final.toList) :
    emitOperands stopAtTrue draft exits exprs =
      (fun pieces => (draft.grown (exprs.foldl Constants.addExpr draft.constants)
        (withExits stopAtTrue 0 pieces), exits ++ exitsOf stopAtTrue draft.next pieces)) <$>
          ofExprs final (stopGap stopAtTrue) draft.size [] exprs := by
  induction exprs generalizing draft exits with
  | nil => simp [emitOperands, ofExprs, grown_nil, withExits, exitsOf]
  | cons expr rest inductionHypothesis =>
      have own := each expr List.mem_cons_self draft
        ((Constants.addExprs_keeps rest _).trans pooled)
      have others := inductionHypothesis fun other member => each other (List.mem_cons_of_mem _ member)
      rw [emitOperands, ofExprs, own, bind_map_left, map_bind]
      congr 1
      funext code
      cases stopAtTrue
      · rw [if_neg Bool.false_ne_true, others _ _ pooled, ofExprs_made _ _ _ [code]]
        simp [Nat.add_assoc, Instruction.size, exitsOf, withExits, stopTest, stopGap]
      · rw [if_pos rfl, others _ _ pooled, ofExprs_made _ _ _ [code]]
        simp [Nat.add_assoc, Instruction.size, exitsOf, withExits, stopTest, stopGap]

end Lists

/-- Both jumps of a conditional are patched as soon as the code that they lead to comes next. -/
theorem emitted_conditional {condition consequent alternative : Expr}
    (test : Emitted final condition) (chosen : Emitted final consequent)
    (other : Emitted final alternative) :
    Emitted final (.conditional condition consequent alternative) := by
  intro draft pooled
  have untilOther := (Constants.addExpr_keeps alternative _).trans pooled
  have untilChosen := (Constants.addExpr_keeps consequent _).trans untilOther
  rw [emit, ofExpr, test draft untilChosen, bind_map_left, map_bind]
  congr 1
  funext testCode
  have between := chosen ((draft.grown (draft.constants.addExpr condition) testCode).add
    (.jumpIfFalse 0)) untilOther
  have consequentStart : draft.size + codeSize (testCode ++ [.jumpIfFalse 0]) =
      draft.size + codeSize testCode + 5 := by
    simp [Instruction.size, Nat.add_assoc]
  simp only [add_eq_grown, grown_grown, constants_grown, next_grown, size_grown, consequentStart]
    at between ⊢
  rw [between, bind_map_left, map_bind]
  congr 1
  funext chosenCode
  let alternativeStart := draft.size + codeSize testCode + 5 + codeSize chosenCode + 5
  have start : ∀ word, draft.size + codeSize (testCode ++ .jumpIfFalse word :: (chosenCode ++ [.jump 0])) =
      alternativeStart := by
    simp [alternativeStart, Instruction.size, Nat.add_assoc]
  simp only [grown_grown, constants_grown, next_grown, List.append_assoc, List.cons_append,
    List.nil_append]
  rw [patchJump_grown draft _ testCode (chosenCode ++ [Instruction.jump 0]) (.jumpIfFalse 0) rfl
    (by simp [Nat.add_assoc]), start, other _ pooled, bind_map_left, map_bind, size_grown,
    Instruction.retarget, start]
  congr 1
  funext otherCode
  have split : ∀ exit, testCode ++ exit :: (chosenCode ++ [.jump 0]) ++ otherCode =
      (testCode ++ exit :: chosenCode) ++ .jump 0 :: otherCode := by
    simp
  have finish : ∀ word, draft.size + codeSize (testCode ++ .jumpIfFalse word :: chosenCode ++
      .jump 0 :: otherCode) = alternativeStart + codeSize otherCode := by
    intro word
    rw [← split, codeSize_append, ← Nat.add_assoc, start]
  simp only [grown_grown, constants_grown, next_grown, split]
  rw [patchJump_grown draft _ (testCode ++ _ :: chosenCode) otherCode (.jump 0) (by simp) rfl, finish,
    Instruction.retarget, Constants.addExpr]
  simp only [alternativeStart, List.append_assoc, List.cons_append]
  rfl

theorem emitted_localBinding {bindings : List (UInt16 × Expr)} {body : List Expr}
    (bound : ∀ binding ∈ bindings, Emitted final binding.2) (inside : ∀ expr ∈ body, Emitted final expr) :
    Emitted final (.localBinding bindings body) := by
  intro draft pooled
  rw [Constants.addExpr, Constants.addExprs_eq, Constants.addBindings_eq] at pooled ⊢
  have stores := emitBindings_eq bound draft ((Constants.addExprs_keeps body _).trans pooled)
  rw [emit, ofExpr, stores, bind_map_left, map_bind]
  congr 1
  funext made
  cases body with
  | nil =>
      simp [emitBetween, ofExprs]
      rfl
  | cons first rest =>
      rw [List.isEmpty_cons, if_neg Bool.false_ne_true, emitBetween_eq inside .pop _ pooled]
      simp only [ofExprs, ofExprs_made _ _ _ [_]]
      simp [codeSize_flatten, Instruction.size]

/-- By induction on the parts: an expression adds its own instructions around the code of its parts, and
whatever they have added to the draft is where the layout puts it. -/
theorem emitted (expr : Expr) : Emitted final expr := by
  induction expr using Expr.partsInduction with
  | step expr each =>
      intro draft pooled
      cases expr with
      | number | boolean | nil | localSlot | field =>
          simp [emit, ofExpr, Constants.addExpr]
      | string value =>
          have known : value ∈ draft.constants.add value := Constants.mem_add.mpr (Or.inr rfl)
          have number := Constants.number_of_kept pooled known
          rw [emit, ofExpr, pushConstant_eq_grown, number]
          rfl
      | arithmetic op operands =>
          cases operands with
          | nil => rfl
          | cons first rest =>
              rw [Constants.addExpr, Constants.addExprs_eq] at pooled
              have head := each first List.mem_cons_self draft
                ((Constants.addExprs_keeps rest _).trans pooled)
              have others := fun code => emitEach_eq
                (fun other member => each other (List.mem_cons_of_mem _ member)) [.arithmetic op]
                (draft.grown (draft.constants.addExpr first) code) pooled
              simp [emit, ofExpr, head, others, Constants.addExpr, Constants.addExprs_eq,
                Instruction.size]
      | negate operand | not operand | count operand =>
          have inner := each operand List.mem_cons_self draft pooled
          simp [emit, ofExpr, inner, Constants.addExpr]
      | equal left right | order _ left right =>
          have first := each left List.mem_cons_self draft
            ((Constants.addExpr_keeps right _).trans pooled)
          have second := fun code => each right (List.mem_cons_of_mem _ List.mem_cons_self)
            (draft.grown (draft.constants.addExpr left) code) pooled
          simp [emit, ofExpr, first, second, Constants.addExpr]
      | conditional condition consequent alternative =>
          have test := each condition List.mem_cons_self
          have chosen := each consequent (by simp [Expr.parts])
          have other := each alternative (by simp [Expr.parts])
          exact emitted_conditional test chosen other draft pooled
      | conjunction operands | disjunction operands =>
          rw [Constants.addExpr, Constants.addExprs_eq] at pooled
          have pieces := fun stopAtTrue => @emitOperands_eq _ operands each stopAtTrue draft [] pooled
          simp [emit, ofExpr, pieces, Constants.addExpr, Constants.addExprs_eq, close_eq, stopGap]
      | localBinding bindings body =>
          have bound := fun binding (member : binding ∈ bindings) =>
            each binding.2 (List.mem_append_left _ (List.mem_map.mpr ⟨binding, member, rfl⟩))
          have inside := fun expr (member : expr ∈ body) => each expr (List.mem_append_right _ member)
          exact emitted_localBinding bound inside draft pooled
      | concat parts =>
          rw [Constants.addExpr, Constants.addExprs_eq] at pooled
          have pieces := @emitEach_eq _ parts each [] draft pooled
          simp [emit, ofExpr, pieces, Constants.addExpr, Constants.addExprs_eq, List.flatMap_id']
      | print newline arguments =>
          rw [Constants.addExpr, Constants.addExprs_eq] at pooled
          have known : Constants.separator ∈ draft.constants.add Constants.separator :=
            Constants.mem_add.mpr (Or.inr rfl)
          have number := Constants.number_of_kept
            ((Constants.addExprs_keeps arguments _).trans pooled) known
          have pieces := @emitBetween_eq _ arguments each
            (.pushConstant (final.number Constants.separator))
            (draft.addConstant Constants.separator) pooled
          rw [addConstant_eq_grown] at pieces
          simp [emit, ofExpr, pieces, Constants.addExpr, Constants.addExprs_eq, ← number,
            Instruction.size]

/-! Methods. -/

theorem ofStatements_made (constants : Constants) (base : Nat) (made : List (List Instruction))
    (statements : List Statement) :
    ofStatements constants base made statements =
      (made.reverse ++ ·) <$> ofStatements constants base [] statements := by
  induction statements generalizing base made with
  | nil => simp [ofStatements]
  | cons statement rest inductionHypothesis =>
      cases statement with
      | definition slot value =>
          rw [ofStatements, ofStatements, map_bind]
          congr 1
          funext code
          let store := code ++ [Instruction.storeLocal slot]
          rw [inductionHypothesis _ (store :: made), inductionHypothesis _ [store]]
          simp
      | expression value =>
          rw [ofStatements, ofStatements, map_bind]
          congr 1
          funext code
          cases rest with
          | nil => simp
          | cons next more =>
              let drop := code ++ [Instruction.pop]
              rw [List.isEmpty_cons, if_neg Bool.false_ne_true, if_neg Bool.false_ne_true,
                inductionHypothesis _ (drop :: made), inductionHypothesis _ [drop]]
              simp

theorem emitStatements_eq (draft : Draft) (statements : List Statement)
    (pooled : ((statements.map Statement.value).foldl Constants.addExpr draft.constants).toList <+:
      final.toList) :
    emitStatements draft statements =
      (fun pieces => draft.grown
        ((statements.map Statement.value).foldl Constants.addExpr draft.constants) pieces.flatten) <$>
          ofStatements final draft.size [] statements := by
  induction statements generalizing draft with
  | nil => simp [emitStatements, ofStatements, grown_nil]
  | cons statement rest inductionHypothesis =>
      have untilRest := (Constants.addExprs_keeps (rest.map Statement.value) _).trans pooled
      cases statement with
      | definition slot value =>
          rw [emitStatements, ofStatements, emitted value draft untilRest, bind_map_left, map_bind]
          congr 1
          funext code
          let store := code ++ [Instruction.storeLocal slot]
          rw [inductionHypothesis _ pooled, ofStatements_made _ _ [store]]
          simp [store, Nat.add_assoc, Instruction.size, Statement.value]
      | expression value =>
          rw [emitStatements, ofStatements, emitted value draft untilRest, bind_map_left, map_bind]
          congr 1
          funext code
          cases rest with
          | nil => simp [emitStatements, Statement.value]; rfl
          | cons next more =>
              let drop := code ++ [Instruction.pop]
              rw [List.isEmpty_cons, if_neg Bool.false_ne_true, if_neg Bool.false_ne_true,
                inductionHypothesis _ pooled, ofStatements_made _ _ [drop]]
              simp [drop, Nat.add_assoc, Instruction.size, Statement.value]

theorem emitBody_eq (draft : Draft) (body : Body) (unwritten : draft.size = 0)
    (pooled : ((body.statements.map Statement.value).foldl Constants.addExpr draft.constants).toList <+:
      final.toList) :
    emitBody draft body =
      draft.grown ((body.statements.map Statement.value).foldl Constants.addExpr draft.constants) <$>
        ofBody final body := by
  rw [emitBody, ofBody, ending, emitStatements_eq draft body.statements pooled, unwritten,
    bind_map_left, map_bind]
  congr 1
  funext pieces
  cases body.result? with
  | none => simp
  | some kind =>
      cases body.statements.getLast? with
      | none => simp
      | some last =>
          cases last with
          | definition slot value => rfl
          | expression value => simp

theorem ofFields_made (constants : Constants) (index : Nat) (made : List Instruction)
    (fields : List Field) :
    ofFields constants index made fields = (made.reverse ++ ·) <$> ofFields constants index [] fields := by
  induction fields generalizing index made with
  | nil => simp [ofFields]
  | cons field rest inductionHypothesis =>
      rw [ofFields, ofFields, map_bind]
      congr 1
      funext push
      let store := Instruction.storeField (UInt16.ofNat index)
      rw [inductionHypothesis _ (store :: push :: made), inductionHypothesis _ [store, push]]
      simp

theorem emitField_eq (draft : Draft) (field : Field)
    (pooled : (Constants.addField draft.constants field).toList <+: final.toList) :
    emitField draft field =
      (fun push => draft.grown (Constants.addField draft.constants field) [push]) <$>
        pushField final field := by
  unfold Constants.addField at pooled
  unfold emitField pushField Constants.addField
  cases kind : field.value with
  | string value =>
      rw [kind] at pooled
      have known : value ∈ draft.constants.add value := Constants.mem_add.mpr (Or.inr rfl)
      simp only [map_ok, pushConstant_eq_grown, Constants.number_of_kept pooled known]
  | nothing => rfl
  | _ => simp

theorem emitFields_eq (draft : Draft) (index : Nat) (fields : List Field)
    (pooled : (fields.foldl Constants.addField draft.constants).toList <+: final.toList) :
    emitFields draft index fields =
      draft.grown (fields.foldl Constants.addField draft.constants) <$>
        ofFields final index [] fields := by
  induction fields generalizing draft index with
  | nil => simp [emitFields, ofFields]
  | cons field rest inductionHypothesis =>
      have own := emitField_eq draft field ((Constants.addFields_keeps rest _).trans pooled)
      rw [emitFields, ofFields, own, bind_map_left, map_bind]
      congr 1
      funext push
      let store := Instruction.storeField (UInt16.ofNat index)
      rw [inductionHypothesis _ _ pooled, ofFields_made _ _ [store, push], Functor.map_map]
      refine congrArg (· <$> _) (funext fun code => ?_)
      simp [store]

/-- The type that is made by adding one instruction after the other and patching the jumps, in the order of
the fields and then of the body, is the one whose code is laid out with targets and numbers of constants that
are known from the start; if one is refused, so is the other, for the same reason. -/
theorem emitType_eq_typeDefinition {Fragment : Type} (unit : CompilationUnit Fragment) (body : Body) :
    emitType unit body = typeDefinition unit body := by
  let filled := unit.fields.foldl Constants.addField #[]
  let final := Constants.ofBody unit.fields body
  have total : final = (body.statements.map Statement.value).foldl Constants.addExpr filled :=
    Constants.ofBody_eq unit.fields body
  have untilBody : filled.toList <+: final.toList := by
    rw [total]
    exact Constants.addExprs_keeps _ _
  have filling := emitFields_eq { body := .empty, constants := #[] } 0 unit.fields untilBody
  have untilEnd : ((body.statements.map Statement.value).foldl Constants.addExpr filled).toList <+:
      final.toList :=
    ⟨[], by rw [List.append_nil, total]⟩
  have running := emitBody_eq { body := .empty, constants := filled } body rfl untilEnd
  rw [emitType, typeDefinition, filling, bind_map_left]
  refine congrArg _ (funext fun constructorCode => ?_)
  refine (congrArg (· >>= _) running).trans ?_
  rw [bind_map_left]
  refine congrArg _ (funext fun entryCode => ?_)
  simp only [grown, Assembly.toList_extend, Assembly.empty, List.nil_append, ← total]
  rfl

end Code
end Lisp
end FragmentLisp
