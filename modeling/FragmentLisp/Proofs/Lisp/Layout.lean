import FragmentLisp.Lisp.Code
import FragmentLisp.Proofs.Instruction.Placement
import FragmentLisp.Proofs.Sequencing

/-!
Which instructions an expression is turned into. A successful generation is described once, form by
form, in terms of the code of the operands; how many bytes the code takes depends on the expression
alone.
-/

namespace FragmentLisp

namespace Lisp

/-- The expressions that an expression is directly made of, in the order of their code. -/
def Expr.parts : Expr → List Expr
  | .arithmetic _ operands => operands
  | .negate operand => [operand]
  | .equal left right => [left, right]
  | .order _ left right => [left, right]
  | .not operand => [operand]
  | .conjunction operands => operands
  | .disjunction operands => operands
  | .conditional condition consequent alternative => [condition, consequent, alternative]
  | .localBinding bindings body => bindings.map Prod.snd ++ body
  | .concat parts => parts
  | .count operand => [operand]
  | .print _ arguments => arguments
  | _ => []

theorem Expr.sizeOf_parts {expr part : Expr} (member : part ∈ expr.parts) :
    sizeOf part < sizeOf expr := by
  cases expr with
  | localBinding bindings body =>
      rcases List.mem_append.mp member with bound | inside
      · obtain ⟨binding, bindingMember, rfl⟩ := List.mem_map.mp bound
        have smaller := List.sizeOf_lt_of_mem bindingMember
        have own : sizeOf binding.2 < sizeOf binding := by
          cases binding
          simp +arith
        simp only [Expr.localBinding.sizeOf_spec]
        omega
      · have smaller := List.sizeOf_lt_of_mem inside
        simp only [Expr.localBinding.sizeOf_spec]
        omega
  | arithmetic op operands =>
      have smaller := List.sizeOf_lt_of_mem (show part ∈ operands from member)
      simp only [Expr.arithmetic.sizeOf_spec]
      omega
  | conjunction operands =>
      have smaller := List.sizeOf_lt_of_mem (show part ∈ operands from member)
      simp only [Expr.conjunction.sizeOf_spec]
      omega
  | disjunction operands =>
      have smaller := List.sizeOf_lt_of_mem (show part ∈ operands from member)
      simp only [Expr.disjunction.sizeOf_spec]
      omega
  | concat parts =>
      have smaller := List.sizeOf_lt_of_mem (show part ∈ parts from member)
      simp only [Expr.concat.sizeOf_spec]
      omega
  | print newline arguments =>
      have smaller := List.sizeOf_lt_of_mem (show part ∈ arguments from member)
      simp only [Expr.print.sizeOf_spec]
      omega
  | negate operand =>
      obtain rfl := List.mem_singleton.mp member
      simp +arith
  | not operand =>
      obtain rfl := List.mem_singleton.mp member
      simp +arith
  | count operand =>
      obtain rfl := List.mem_singleton.mp member
      simp +arith
  | equal left right =>
      simp only [Expr.parts, List.mem_cons, List.not_mem_nil, or_false] at member
      rcases member with rfl | rfl <;> simp +arith
  | order op left right =>
      simp only [Expr.parts, List.mem_cons, List.not_mem_nil, or_false] at member
      rcases member with rfl | rfl <;> simp +arith
  | conditional condition consequent alternative =>
      simp only [Expr.parts, List.mem_cons, List.not_mem_nil, or_false] at member
      rcases member with rfl | rfl | rfl <;> simp +arith
  | _ => simp [Expr.parts] at member

/-- What holds of an expression whenever it holds of its parts holds of all expressions. -/
theorem Expr.partsInduction {motive : Expr → Prop}
    (step : ∀ expr, (∀ part ∈ expr.parts, motive part) → motive expr) (expr : Expr) :
    motive expr :=
  step expr fun part _ => Expr.partsInduction step part
termination_by sizeOf expr
decreasing_by exact Expr.sizeOf_parts ‹_›

mutual
def Expr.width : Expr → Nat
  | .number _ => 9
  | .boolean _ => 2
  | .string _ => 5
  | .nil => 1
  | .localSlot _ => 3
  | .field _ => 3
  | .arithmetic _ [] => 1
  | .arithmetic _ (first :: rest) => first.width + widthAll 1 rest
  | .negate operand => operand.width + 1
  | .equal left right => left.width + right.width + 1
  | .order _ left right => left.width + right.width + 1
  | .not operand => operand.width + 1
  | .conjunction operands => widthAll 5 operands + 9
  | .disjunction operands => widthAll 6 operands + 9
  | .conditional condition consequent alternative =>
      condition.width + 5 + consequent.width + 5 + alternative.width
  | .localBinding bindings body =>
      widthBound bindings + (if body.isEmpty then 1 else widthAll 1 body - 1)
  | .concat parts => widthAll 0 parts + 3
  | .count operand => operand.width + 1
  | .print _ arguments => (widthAll 5 arguments - 5) + 5

def widthAll (gap : Nat) : List Expr → Nat
  | [] => 0
  | expr :: rest => expr.width + gap + widthAll gap rest

def widthBound : List (UInt16 × Expr) → Nat
  | [] => 0
  | (_, value) :: rest => value.width + 3 + widthBound rest
end

theorem Expr.width_positive (expr : Expr) : 0 < expr.width := by
  cases expr with
  | arithmetic op operands =>
      cases operands with
      | nil => simp [width]
      | cons first rest =>
          have positive := Expr.width_positive first
          rw [width]
          omega
  | localBinding bindings body =>
      cases body with
      | nil => simp [width]
      | cons first rest =>
          have positive := Expr.width_positive first
          simp only [width, widthAll, List.isEmpty_cons, Bool.false_eq_true, if_false]
          omega
  | conditional condition consequent alternative =>
      simp only [width]
      omega
  | _ => simp [width]

def Statement.value : Statement → Expr
  | .definition _ value => value
  | .expression value => value

/-- A local binding as statements: its bindings define, and the forms of its body follow. -/
def bindingSteps (bindings : List (UInt16 × Expr)) (body : List Expr) : List Statement :=
  (bindings.map fun (slot, value) => .definition slot value) ++ body.map .expression

namespace Code

inductive Pieces (constants : Constants) (gap : Nat) :
    Nat → List Expr → List (List Instruction) → Prop
  | nil (base : Nat) : Pieces constants gap base [] []
  | cons {base : Nat} {expr : Expr} {rest : List Expr} {code : List Instruction}
      {pieces : List (List Instruction)} (head : ofExpr constants base expr = .ok code)
      (tail : Pieces constants gap (base + codeSize code + gap) rest pieces) :
      Pieces constants gap base (expr :: rest) (code :: pieces)

inductive Sequence (constants : Constants) :
    Nat → List Statement → List Instruction → Prop
  | nil (base : Nat) : Sequence constants base [] []
  | definition {base : Nat} {slot : UInt16} {value : Expr} {rest : List Statement}
      {code more : List Instruction} (head : ofExpr constants base value = .ok code)
      (tail : Sequence constants (base + codeSize code + 3) rest more) :
      Sequence constants base (.definition slot value :: rest)
        (code ++ (.storeLocal slot :: more))
  | last {base : Nat} {value : Expr} {code : List Instruction}
      (head : ofExpr constants base value = .ok code) :
      Sequence constants base [.expression value] code
  | expression {base : Nat} {value : Expr} {next : Statement} {rest : List Statement}
      {code more : List Instruction} (head : ofExpr constants base value = .ok code)
      (tail : Sequence constants (base + codeSize code + 1) (next :: rest) more) :
      Sequence constants base (.expression value :: next :: rest) (code ++ (.pop :: more))

inductive Made (constants : Constants) (base : Nat) : Expr → List Instruction → Prop
  | number (value : Int64) : Made constants base (.number value) [.pushInteger value]
  | boolean (value : Bool) : Made constants base (.boolean value) [.pushBoolean value]
  | string (value : String) :
      Made constants base (.string value) [.pushConstant (constants.number value)]
  | nil : Made constants base .nil [.pushNil]
  | localSlot (slot : UInt16) : Made constants base (.localSlot slot) [.loadLocal slot]
  | field (index : UInt16) : Made constants base (.field index) [.loadField index]
  | arithmetic {op : ArithmeticOp} {first : Expr} {rest : List Expr} {head : List Instruction}
      {pieces : List (List Instruction)} (firstMade : ofExpr constants base first = .ok head)
      (restMade : Pieces constants 1 (base + codeSize head) rest pieces) :
      Made constants base (.arithmetic op (first :: rest))
        (head ++ pieces.flatMap fun piece => piece ++ [.arithmetic op])
  | negate {operand : Expr} {code : List Instruction}
      (made : ofExpr constants base operand = .ok code) :
      Made constants base (.negate operand) (code ++ [.negate])
  | equal {left right : Expr} {leftCode rightCode : List Instruction}
      (leftMade : ofExpr constants base left = .ok leftCode)
      (rightMade : ofExpr constants (base + codeSize leftCode) right = .ok rightCode) :
      Made constants base (.equal left right) (leftCode ++ rightCode ++ [.equal])
  | order {op : OrderOp} {left right : Expr} {leftCode rightCode : List Instruction}
      (leftMade : ofExpr constants base left = .ok leftCode)
      (rightMade : ofExpr constants (base + codeSize leftCode) right = .ok rightCode) :
      Made constants base (.order op left right) (leftCode ++ rightCode ++ [.order op])
  | not {operand : Expr} {code : List Instruction}
      (made : ofExpr constants base operand = .ok code) :
      Made constants base (.not operand) (code ++ [.not])
  | conjunction {operands : List Expr} {pieces : List (List Instruction)}
      (made : Pieces constants 5 base operands pieces) :
      Made constants base (.conjunction operands) (shortCircuit false base pieces)
  | disjunction {operands : List Expr} {pieces : List (List Instruction)}
      (made : Pieces constants 6 base operands pieces) :
      Made constants base (.disjunction operands) (shortCircuit true base pieces)
  | conditional {condition consequent alternative : Expr}
      {test chosen other : List Instruction}
      (testMade : ofExpr constants base condition = .ok test)
      (chosenMade : ofExpr constants (base + codeSize test + 5) consequent = .ok chosen)
      (otherMade : ofExpr constants (base + codeSize test + 5 + codeSize chosen + 5) alternative =
        .ok other) :
      Made constants base (.conditional condition consequent alternative)
        (test ++
          [.jumpIfFalse (UInt32.ofNat (base + codeSize test + 5 + codeSize chosen + 5))] ++ chosen ++
          [.jump (UInt32.ofNat (base + codeSize test + 5 + codeSize chosen + 5 + codeSize other))] ++
          other)
  | localBinding {bindings : List (UInt16 × Expr)} {body : List Expr} {code : List Instruction}
      (made : Sequence constants base (bindingSteps bindings body) code) :
      Made constants base (.localBinding bindings body)
        (code ++ if body.isEmpty then [.pushNil] else [])
  | concat {parts : List Expr} {pieces : List (List Instruction)}
      (made : Pieces constants 0 base parts pieces) (few : parts.length < 65536) :
      Made constants base (.concat parts)
        (pieces.flatten ++ [.concat (UInt16.ofNat parts.length)])
  | count {operand : Expr} {code : List Instruction}
      (made : ofExpr constants base operand = .ok code) :
      Made constants base (.count operand) (code ++ [.count])
  | print {newline : Bool} {arguments : List Expr} {pieces : List (List Instruction)}
      (made : Pieces constants 5 base arguments pieces) (few : 2 * arguments.length - 1 < 65536) :
      Made constants base (.print newline arguments)
        ((pieces.intersperse [.pushConstant (constants.number Constants.separator)]).flatten ++
          [.concat (UInt16.ofNat (2 * arguments.length - 1)), .print newline, .pushNil])

section Inversion

variable {constants : Constants}

theorem pieces_of_ok {gap base : Nat} {made pieces : List (List Instruction)} {exprs : List Expr}
    (succeeded : ofExprs constants gap base made exprs = .ok pieces) :
    ∃ new, pieces = made.reverse ++ new ∧ Pieces constants gap base exprs new := by
  induction exprs generalizing base made with
  | nil =>
      rw [ofExprs] at succeeded
      exact ⟨[], by simpa using (Except.ok.inj succeeded).symm, .nil base⟩
  | cons expr rest inductionHypothesis =>
      rw [ofExprs] at succeeded
      obtain ⟨code, head, later⟩ := bind_eq_ok.mp succeeded
      obtain ⟨new, split, tail⟩ := inductionHypothesis later
      exact ⟨code :: new, by rw [split]; simp, .cons head tail⟩

theorem operandCount_ok {count : Nat} {word : UInt16} (counted : operandCount count = .ok word) :
    count < 65536 ∧ word = UInt16.ofNat count := by
  unfold operandCount at counted
  split at counted
  · rename_i small
    exact ⟨small, (Except.ok.inj counted).symm⟩
  · simp at counted

theorem piecesSize_cons (gap : Nat) (piece : List Instruction)
    (rest : List (List Instruction)) :
    piecesSize gap (piece :: rest) = codeSize piece + gap + piecesSize gap rest := rfl

theorem sequence_of_bindings {base : Nat} {made stores : List (List Instruction)}
    {bindings : List (UInt16 × Expr)} (succeeded : ofBindings constants base made bindings = .ok stores) :
    ∃ new, stores = made.reverse ++ new ∧
      ∀ following more, Sequence constants (base + piecesSize 0 new) following more →
        Sequence constants base
          ((bindings.map fun (slot, value) => .definition slot value) ++ following)
          (new.flatten ++ more) := by
  induction bindings generalizing base made with
  | nil =>
      rw [ofBindings] at succeeded
      refine ⟨[], by simpa using (Except.ok.inj succeeded).symm, ?_⟩
      intro following more rest
      exact rest
  | cons binding others inductionHypothesis =>
      obtain ⟨slot, value⟩ := binding
      rw [ofBindings] at succeeded
      obtain ⟨code, head, later⟩ := bind_eq_ok.mp succeeded
      obtain ⟨new, split, sequence⟩ := inductionHypothesis later
      refine ⟨(code ++ [.storeLocal slot]) :: new, by rw [split]; simp, ?_⟩
      intro following more rest
      have size : codeSize (code ++ [.storeLocal slot]) = codeSize code + 3 := by
        simp [Instruction.size]
      have tail := sequence following more (by
        rw [piecesSize_cons, size, Nat.add_zero, ← Nat.add_assoc, ← Nat.add_assoc] at rest
        exact rest)
      simpa using (Sequence.definition head tail : Sequence constants base (.definition slot value :: _) _)

theorem sequence_of_pieces {base : Nat} {body : List Expr} {pieces : List (List Instruction)}
    (made : Pieces constants 1 base body pieces) :
    Sequence constants base (body.map .expression) (pieces.intersperse [.pop]).flatten := by
  induction made with
  | nil base => exact .nil base
  | cons head tail inductionHypothesis =>
      cases tail with
      | nil => simpa using Sequence.last head
      | cons next others =>
          rw [List.intersperse_cons_cons]
          simpa using Sequence.expression head inductionHypothesis

theorem sequence_of_statements {base : Nat} {made pieces : List (List Instruction)}
    {statements : List Statement}
    (succeeded : ofStatements constants base made statements = .ok pieces) :
    ∃ new, pieces = made.reverse ++ new ∧ Sequence constants base statements new.flatten := by
  induction statements generalizing base made with
  | nil =>
      rw [ofStatements] at succeeded
      exact ⟨[], by simpa using (Except.ok.inj succeeded).symm, .nil base⟩
  | cons statement rest inductionHypothesis =>
      cases statement with
      | definition slot value =>
          rw [ofStatements] at succeeded
          obtain ⟨code, head, later⟩ := bind_eq_ok.mp succeeded
          obtain ⟨new, split, tail⟩ := inductionHypothesis later
          refine ⟨(code ++ [.storeLocal slot]) :: new, by rw [split]; simp, ?_⟩
          simpa using (Sequence.definition head tail : Sequence constants base (.definition slot value :: _) _)
      | expression value =>
          rw [ofStatements] at succeeded
          obtain ⟨code, head, later⟩ := bind_eq_ok.mp succeeded
          cases rest with
          | nil =>
              refine ⟨[code], by simpa using (Except.ok.inj later).symm, ?_⟩
              simpa using Sequence.last head
          | cons next others =>
              obtain ⟨new, split, tail⟩ := inductionHypothesis later
              refine ⟨(code ++ [.pop]) :: new, by rw [split]; simp, ?_⟩
              simpa using Sequence.expression head tail

theorem pieces_isEmpty {gap base : Nat} {exprs : List Expr} {pieces : List (List Instruction)}
    (made : Pieces constants gap base exprs pieces) : pieces.isEmpty = exprs.isEmpty := by
  cases made <;> rfl

theorem made_of_ok {base : Nat} {expr : Expr} {code : List Instruction}
    (succeeded : ofExpr constants base expr = .ok code) : Made constants base expr code := by
  cases expr with
  | number value =>
      obtain rfl := Except.ok.inj succeeded
      exact .number value
  | boolean value =>
      obtain rfl := Except.ok.inj succeeded
      exact .boolean value
  | string value =>
      obtain rfl := Except.ok.inj succeeded
      exact .string value
  | nil =>
      obtain rfl := Except.ok.inj succeeded
      exact .nil
  | localSlot slot =>
      obtain rfl := Except.ok.inj succeeded
      exact .localSlot slot
  | field index =>
      obtain rfl := Except.ok.inj succeeded
      exact .field index
  | arithmetic op operands =>
      cases operands with
      | nil => simp [ofExpr] at succeeded
      | cons first rest =>
          rw [ofExpr] at succeeded
          obtain ⟨head, firstMade, later⟩ := bind_eq_ok.mp succeeded
          obtain ⟨pieces, listed, result⟩ := bind_eq_ok.mp later
          obtain ⟨new, rfl, restMade⟩ := pieces_of_ok listed
          obtain rfl := Except.ok.inj result
          exact .arithmetic firstMade restMade
  | negate operand =>
      rw [ofExpr] at succeeded
      obtain ⟨code, made, result⟩ := bind_eq_ok.mp succeeded
      obtain rfl := Except.ok.inj result
      exact .negate made
  | equal left right =>
      rw [ofExpr] at succeeded
      obtain ⟨leftCode, leftMade, later⟩ := bind_eq_ok.mp succeeded
      obtain ⟨rightCode, rightMade, result⟩ := bind_eq_ok.mp later
      obtain rfl := Except.ok.inj result
      exact .equal leftMade rightMade
  | order op left right =>
      rw [ofExpr] at succeeded
      obtain ⟨leftCode, leftMade, later⟩ := bind_eq_ok.mp succeeded
      obtain ⟨rightCode, rightMade, result⟩ := bind_eq_ok.mp later
      obtain rfl := Except.ok.inj result
      exact .order leftMade rightMade
  | not operand =>
      rw [ofExpr] at succeeded
      obtain ⟨code, made, result⟩ := bind_eq_ok.mp succeeded
      obtain rfl := Except.ok.inj result
      exact .not made
  | conjunction operands =>
      rw [ofExpr] at succeeded
      obtain ⟨pieces, listed, result⟩ := bind_eq_ok.mp succeeded
      obtain ⟨new, rfl, made⟩ := pieces_of_ok listed
      obtain rfl := Except.ok.inj result
      exact .conjunction made
  | disjunction operands =>
      rw [ofExpr] at succeeded
      obtain ⟨pieces, listed, result⟩ := bind_eq_ok.mp succeeded
      obtain ⟨new, rfl, made⟩ := pieces_of_ok listed
      obtain rfl := Except.ok.inj result
      exact .disjunction made
  | conditional condition consequent alternative =>
      rw [ofExpr] at succeeded
      obtain ⟨test, testMade, later⟩ := bind_eq_ok.mp succeeded
      obtain ⟨chosen, chosenMade, last⟩ := bind_eq_ok.mp later
      obtain ⟨other, otherMade, result⟩ := bind_eq_ok.mp last
      obtain rfl := Except.ok.inj result
      exact .conditional testMade chosenMade otherMade
  | localBinding bindings body =>
      rw [ofExpr] at succeeded
      obtain ⟨stores, bound, later⟩ := bind_eq_ok.mp succeeded
      obtain ⟨pieces, listed, result⟩ := bind_eq_ok.mp later
      obtain ⟨_, rfl, sequence⟩ := sequence_of_bindings bound
      obtain ⟨_, rfl, made⟩ := pieces_of_ok listed
      have whole := Made.localBinding (sequence _ _ (sequence_of_pieces made))
      have empty := pieces_isEmpty made
      rw [empty] at result
      cases body with
      | nil =>
          cases made
          obtain rfl := Except.ok.inj result
          simpa [bindingSteps] using whole
      | cons first rest =>
          obtain rfl := Except.ok.inj result
          simpa [bindingSteps] using whole
  | concat parts =>
      rw [ofExpr] at succeeded
      obtain ⟨pieces, listed, later⟩ := bind_eq_ok.mp succeeded
      obtain ⟨count, counted, result⟩ := bind_eq_ok.mp later
      obtain ⟨new, rfl, made⟩ := pieces_of_ok listed
      obtain ⟨few, rfl⟩ := operandCount_ok counted
      obtain rfl := Except.ok.inj result
      exact .concat made few
  | count operand =>
      rw [ofExpr] at succeeded
      obtain ⟨code, made, result⟩ := bind_eq_ok.mp succeeded
      obtain rfl := Except.ok.inj result
      exact .count made
  | print newline arguments =>
      rw [ofExpr] at succeeded
      obtain ⟨pieces, listed, later⟩ := bind_eq_ok.mp succeeded
      obtain ⟨count, counted, result⟩ := bind_eq_ok.mp later
      obtain ⟨new, rfl, made⟩ := pieces_of_ok listed
      obtain ⟨few, rfl⟩ := operandCount_ok counted
      obtain rfl := Except.ok.inj result
      exact .print made few

end Inversion

/-! The size of the code. -/

section Width

variable {constants : Constants}

def HasWidth (constants : Constants) (expr : Expr) : Prop :=
  ∀ base code, ofExpr constants base expr = .ok code → codeSize code = expr.width

theorem pieces_width {gap base : Nat} {exprs : List Expr} {pieces : List (List Instruction)}
    (made : Pieces constants gap base exprs pieces)
    (each : ∀ expr ∈ exprs, HasWidth constants expr) :
    piecesSize gap pieces = widthAll gap exprs := by
  induction made with
  | nil base => rfl
  | cons head tail inductionHypothesis =>
      rw [piecesSize_cons, widthAll, each _ List.mem_cons_self _ _ head,
        inductionHypothesis fun other member => each other (List.mem_cons_of_mem _ member)]

theorem codeSize_flatMap (suffix : List Instruction) (pieces : List (List Instruction)) :
    codeSize (pieces.flatMap fun piece => piece ++ suffix) =
      piecesSize (codeSize suffix) pieces := by
  induction pieces with
  | nil => rfl
  | cons piece rest inductionHypothesis =>
      rw [List.flatMap_cons, codeSize_append, codeSize_append, inductionHypothesis,
        piecesSize_cons]

theorem codeSize_flatten (pieces : List (List Instruction)) :
    codeSize pieces.flatten = piecesSize 0 pieces := by
  induction pieces with
  | nil => rfl
  | cons piece rest inductionHypothesis =>
      rw [List.flatten_cons, codeSize_append, inductionHypothesis, piecesSize_cons, Nat.add_zero]

theorem codeSize_intersperse (between : List Instruction) (pieces : List (List Instruction)) :
    codeSize (pieces.intersperse between).flatten =
      piecesSize (codeSize between) pieces - codeSize between := by
  induction pieces with
  | nil => simp [piecesSize]
  | cons piece rest inductionHypothesis =>
      cases rest with
      | nil => simp [piecesSize]
      | cons next others =>
          rw [List.intersperse_cons_cons, List.flatten_cons, List.flatten_cons, codeSize_append,
            codeSize_append, inductionHypothesis, piecesSize_cons _ piece, piecesSize_cons _ next]
          omega

/-- What turns an operand into the answer to whether to go on. -/
def stopTest (stopAtTrue : Bool) : List Instruction :=
  if stopAtTrue then [.not] else []

def stopGap (stopAtTrue : Bool) : Nat :=
  if stopAtTrue then 6 else 5

theorem stopTest_size (stopAtTrue : Bool) : codeSize (stopTest stopAtTrue) + 5 = stopGap stopAtTrue := by
  cases stopAtTrue <;> rfl

def stopOffset (stopAtTrue : Bool) (base : Nat) (pieces : List (List Instruction)) : Nat :=
  base + piecesSize (stopGap stopAtTrue) pieces + 7

theorem shortCircuit_eq (stopAtTrue : Bool) (base : Nat) (pieces : List (List Instruction)) :
    shortCircuit stopAtTrue base pieces =
      (pieces.flatMap fun piece => piece ++ (stopTest stopAtTrue ++
        [.jumpIfFalse (UInt32.ofNat (stopOffset stopAtTrue base pieces))])) ++
      [.pushBoolean !stopAtTrue,
        .jump (UInt32.ofNat (stopOffset stopAtTrue base pieces + 2)),
        .pushBoolean stopAtTrue] := by
  cases stopAtTrue <;> simp [shortCircuit, stopOffset, stopTest, stopGap, Instruction.size]

theorem stopPieces_size (stopAtTrue : Bool) (target : UInt32) (pieces : List (List Instruction)) :
    codeSize (pieces.flatMap fun piece => piece ++ (stopTest stopAtTrue ++
      [.jumpIfFalse target])) = piecesSize (stopGap stopAtTrue) pieces := by
  rw [codeSize_flatMap, codeSize_append, ← stopTest_size]
  rfl

theorem shortCircuit_size (stopAtTrue : Bool) (base : Nat) (pieces : List (List Instruction)) :
    codeSize (shortCircuit stopAtTrue base pieces) =
      piecesSize (stopGap stopAtTrue) pieces + 9 := by
  rw [shortCircuit_eq, codeSize_append, stopPieces_size]
  rfl

def widthSteps : List Statement → Nat
  | [] => 0
  | .definition _ value :: rest => value.width + 3 + widthSteps rest
  | [.expression value] => value.width
  | .expression value :: rest => value.width + 1 + widthSteps rest

theorem sequence_width {base : Nat} {statements : List Statement} {code : List Instruction}
    (made : Sequence constants base statements code)
    (each : ∀ statement ∈ statements, HasWidth constants statement.value) :
    codeSize code = widthSteps statements := by
  induction made with
  | nil base => rfl
  | definition head tail inductionHypothesis =>
      have own := each _ List.mem_cons_self _ _ head
      have others := inductionHypothesis fun other member =>
        each other (List.mem_cons_of_mem _ member)
      simp only [codeSize_append, codeSize_cons, Instruction.size, own, others, widthSteps,
        Statement.value]
      omega
  | last head => exact each _ List.mem_cons_self _ _ head
  | expression head tail inductionHypothesis =>
      have own := each _ List.mem_cons_self _ _ head
      have others := inductionHypothesis fun other member =>
        each other (List.mem_cons_of_mem _ member)
      simp only [codeSize_append, codeSize_cons, Instruction.size, own, others, widthSteps,
        Statement.value]
      omega

theorem widthSteps_expressions (body : List Expr) :
    widthSteps (body.map .expression) = widthAll 1 body - 1 := by
  induction body with
  | nil => rfl
  | cons first rest inductionHypothesis =>
      cases rest with
      | nil => simp [widthSteps, widthAll]
      | cons next others =>
          have positive := next.width_positive
          simp only [List.map_cons, widthSteps, widthAll] at inductionHypothesis ⊢
          omega

theorem widthSteps_bindingSteps (bindings : List (UInt16 × Expr)) (body : List Expr) :
    widthSteps (bindingSteps bindings body) = widthBound bindings + (widthAll 1 body - 1) := by
  induction bindings with
  | nil => simpa [bindingSteps, widthBound] using widthSteps_expressions body
  | cons binding rest inductionHypothesis =>
      obtain ⟨slot, value⟩ := binding
      unfold bindingSteps at inductionHypothesis ⊢
      rw [List.map_cons, List.cons_append, widthSteps, inductionHypothesis, widthBound]
      omega

theorem mem_bindingSteps {bindings : List (UInt16 × Expr)} {body : List Expr}
    {statement : Statement} (member : statement ∈ bindingSteps bindings body) :
    statement.value ∈ (Expr.localBinding bindings body).parts := by
  rcases List.mem_append.mp member with bound | inside
  · obtain ⟨binding, bindingMember, rfl⟩ := List.mem_map.mp bound
    exact List.mem_append_left _ (List.mem_map.mpr ⟨binding, bindingMember, rfl⟩)
  · obtain ⟨expr, exprMember, rfl⟩ := List.mem_map.mp inside
    exact List.mem_append_right _ exprMember

theorem has_width (expr : Expr) : HasWidth constants expr := by
  induction expr using Expr.partsInduction with
  | step expr partsHypothesis =>
      intro base code succeeded
      cases made_of_ok succeeded with
      | arithmetic firstMade restMade =>
          have head := partsHypothesis _ List.mem_cons_self _ _ firstMade
          have pieces := pieces_width restMade fun other member =>
            partsHypothesis other (List.mem_cons_of_mem _ member)
          rw [codeSize_append, codeSize_flatMap, Expr.width, head]
          simp [Instruction.size, pieces]
      | negate made =>
          simp [Expr.width, Instruction.size, partsHypothesis _ List.mem_cons_self _ _ made]
      | equal leftMade rightMade =>
          have left := partsHypothesis _ List.mem_cons_self _ _ leftMade
          have right := partsHypothesis _ (List.mem_cons_of_mem _ List.mem_cons_self) _ _ rightMade
          simp [Expr.width, Instruction.size, left, right, Nat.add_assoc]
      | order leftMade rightMade =>
          have left := partsHypothesis _ List.mem_cons_self _ _ leftMade
          have right := partsHypothesis _ (List.mem_cons_of_mem _ List.mem_cons_self) _ _ rightMade
          simp [Expr.width, Instruction.size, left, right, Nat.add_assoc]
      | not made =>
          simp [Expr.width, Instruction.size, partsHypothesis _ List.mem_cons_self _ _ made]
      | conjunction made =>
          rw [shortCircuit_size, Expr.width, ← pieces_width made partsHypothesis]
          rfl
      | disjunction made =>
          rw [shortCircuit_size, Expr.width, ← pieces_width made partsHypothesis]
          rfl
      | conditional testMade chosenMade otherMade =>
          have test := partsHypothesis _ (by simp [Expr.parts]) _ _ testMade
          have chosen := partsHypothesis _ (by simp [Expr.parts]) _ _ chosenMade
          have other := partsHypothesis _ (by simp [Expr.parts]) _ _ otherMade
          simp [Expr.width, Instruction.size, test, chosen, other, Nat.add_assoc]
      | localBinding made =>
          rename_i bindings body inner
          have steps := sequence_width made fun statement member =>
            partsHypothesis _ (mem_bindingSteps member)
          rw [codeSize_append, steps, widthSteps_bindingSteps, Expr.width]
          cases body with
          | nil => simp [widthAll, Instruction.size]
          | cons first rest => simp
      | concat made few =>
          simp [Expr.width, Instruction.size, codeSize_flatten, pieces_width made partsHypothesis]
      | count made =>
          simp [Expr.width, Instruction.size, partsHypothesis _ List.mem_cons_self _ _ made]
      | print made few =>
          have pieces := pieces_width made partsHypothesis
          rw [codeSize_append, codeSize_intersperse, Expr.width]
          simp [Instruction.size, pieces]
      | _ => rfl

theorem codeSize_of_ok {base : Nat} {expr : Expr} {code : List Instruction}
    (succeeded : ofExpr constants base expr = .ok code) : codeSize code = expr.width :=
  has_width expr base code succeeded

end Width

end Code
end Lisp
end FragmentLisp
