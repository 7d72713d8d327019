import FragmentLisp.Evaluation
import FragmentLisp.Proofs.Artifact
import FragmentLisp.Proofs.Verification

/-!
The name of a type is nothing but a name. Writing, reading, checking and running a type do the same for
any name of it, and the name stands only in the answer and in the texts of errors. It can matter in two
ways: it has to fit its word, and no other type may have it.
-/

namespace FragmentLisp

def TypeDefinition.named (name : String) (definition : TypeDefinition) : TypeDefinition :=
  { definition with name }

namespace Verification

theorem checkOperands_named (name : String) (definition : TypeDefinition) (signature : Signature)
    (listing : List (Nat × Instruction)) :
    checkOperands (definition.named name) signature listing =
      checkOperands definition signature listing := by
  induction listing with
  | nil => rfl
  | cons entry rest inductionHypothesis =>
      rw [checkOperands, checkOperands, inductionHypothesis]
      rfl

@[simp] theorem verify_named (name : String) (definition : TypeDefinition) (method : Method) :
    verify (definition.named name) method = verify definition method := by
  unfold verify
  simp only [checkOperands_named]

end Verification

/-! Texts of errors. -/

def LoadError.renamed (name : String) : LoadError → LoadError
  | alreadyDefined _ => alreadyDefined name
  | unreadable _ error => unreadable name error
  | nameMismatch artifact type => nameMismatch artifact type
  | rejected _ method error => rejected name method error
  | stackLimit _ method needed limit => stackLimit name method needed limit
  | noCode _ => noCode name

def InstantiationError.renamed (name : String) : InstantiationError → InstantiationError
  | missingMethod _ method => missingMethod name method
  | takesArguments _ method arity => takesArguments name method arity
  | constructorReturns _ => constructorReturns name
  | constructorFailed _ fault => constructorFailed name fault

def Tells (text : String → String) : Prop :=
  ∃ parts : List String, ∀ name : String, text name = name.intercalate parts

theorem LoadError.message_tells (error : LoadError) :
    Tells fun name => (error.renamed name).message := by
  cases error with
  | alreadyDefined => exact ⟨["type ", " is already defined in this scope"], fun _ => by
      simp [renamed, message, String.join]⟩
  | unreadable => exact ⟨["cannot read artifact ", ""], fun _ => by
      simp [renamed, message, String.join]⟩
  | nameMismatch artifact type => exact ⟨[(nameMismatch artifact type).message], fun _ => by
      simp [renamed]⟩
  | rejected _ method error => exact ⟨["", String.join [".", method, ": ", error.message]],
      fun _ => by simp [renamed, message, String.join, String.append_assoc]⟩
  | stackLimit _ method needed limit =>
      refine ⟨["", String.join [".", method, " needs ", toString needed,
        " operand stack entries, the limit is ", toString limit]], fun _ => ?_⟩
      simp [renamed, message, String.join, String.append_assoc]
  | noCode => exact ⟨["type ", " has no code"], fun _ => by simp [renamed, message, String.join]⟩

theorem InstantiationError.message_tells (error : InstantiationError) :
    Tells fun name => (error.renamed name).message := by
  cases error with
  | missingMethod _ method =>
      exact ⟨["", String.join [" has no zero-argument method ", method]], fun _ => by
        simp [renamed, message, String.join, String.append_assoc]⟩
  | takesArguments _ method arity =>
      refine ⟨["", String.join [".", method, " takes ", toString arity.toNat,
        " arguments, expected none"]], fun _ => ?_⟩
      simp [renamed, message, String.join, String.append_assoc]
  | constructorReturns => exact ⟨["constructor of ", " returns a value"], fun _ => by
      simp [renamed, message, String.join]⟩
  | constructorFailed => exact ⟨["constructor of ", " failed"], fun _ => by
      simp [renamed, message, String.join]⟩

/-- Two answers that are the same but for the name of the generated type, which stands in the first where
the other name stands in the second. -/
inductive AnswersAlike (name other : String) :
    Option (Except EvalError Evaluation) → Option (Except EvalError Evaluation) → Prop
  | unfinished : AnswersAlike name other none none
  | answered (value : Value) (output : String) :
      AnswersAlike name other (some (.ok { value, output, typeName := name }))
        (some (.ok { value, output, typeName := other }))
  | failed (kind : ErrorKind) (parts : List String) (position? : Option Position)
      (cause? : Option Cause) :
      AnswersAlike name other
        (some (.error { kind, message := name.intercalate parts, position?, cause? }))
        (some (.error { kind, message := other.intercalate parts, position?, cause? }))

section Answers

variable {name other : String}

theorem AnswersAlike.same (error : EvalError) :
    AnswersAlike name other (some (.error error)) (some (.error error)) := by
  have alike := @AnswersAlike.failed name other error.kind [error.message] error.position?
    error.cause?
  simpa using alike

theorem AnswersAlike.loading (error : LoadError) :
    AnswersAlike name other (some (.error (.ofLoading (error.renamed name))))
      (some (.error (.ofLoading (error.renamed other)))) := by
  obtain ⟨parts, told⟩ := error.message_tells
  simp only [EvalError.ofLoading, told]
  cases error <;> exact .failed _ parts _ _

theorem AnswersAlike.instantiation (error : InstantiationError) :
    AnswersAlike name other (some (.error (.ofInstantiation (error.renamed name))))
      (some (.error (.ofInstantiation (error.renamed other)))) := by
  obtain ⟨parts, told⟩ := error.message_tells
  simp only [EvalError.ofInstantiation, told]
  cases error <;> exact .failed _ parts _ _

end Answers

/-! Loading. -/

namespace Registry

theorem checkMethods_named (name : String) (definition : TypeDefinition) (limit : Nat)
    (methods : List Method) :
    checkMethods (definition.named name) limit methods =
      (checkMethods definition limit methods).mapError (LoadError.renamed name) := by
  induction methods with
  | nil => rfl
  | cons method rest inductionHypothesis =>
      rw [checkMethods, checkMethods, inductionHypothesis, Verification.verify_named]
      cases Verification.verify definition method with
      | error error => rfl
      | ok _ =>
          by_cases high : limit < method.signature.maxStack.toNat
          · simp only [high, if_true]
            rfl
          · simp only [high, if_false]

theorem check_named (name : String) (definition : TypeDefinition) (limit : Nat) :
    check name limit (definition.named name) =
      (check definition.name limit definition).mapError (LoadError.renamed name) := by
  have own : (definition.named name).name = name := rfl
  have methods : (definition.named name).methods = definition.methods := rfl
  unfold check
  rw [own, methods, checkMethods_named]
  simp only [ne_eq, not_true, if_false]
  cases checkMethods definition limit definition.methods with
  | error error => rfl
  | ok _ =>
      simp only [Except.mapError]
      split <;> rfl

def vet (name : String) (limit : Nat) (read : Except ArtifactError TypeDefinition) :
    Except LoadError TypeDefinition :=
  match read with
  | .error error => .error (.unreadable name error)
  | .ok definition => (check name limit definition).map fun _ => definition

theorem define_eq [ObjectFormat] (registry : Registry) (limit : Nat) (artifact : Artifact) :
    registry.define limit artifact =
      if (registry.get? artifact.name).isSome then .error (.alreadyDefined artifact.name)
      else (vet artifact.name limit (TypeDefinition.read artifact.image)).map fun definition =>
        (definition, { types := definition :: registry.types }) := by
  unfold define vet
  cases TypeDefinition.read artifact.image with
  | error error => rfl
  | ok definition =>
      dsimp only
      cases check artifact.name limit definition <;> rfl

theorem vet_named (name : String) (limit : Nat) {definition : TypeDefinition}
    {read : Except ArtifactError TypeDefinition}
    (owned : ∀ found, read = .ok found → found.name = definition.name) :
    vet name limit (read.map (TypeDefinition.named name)) =
      ((vet definition.name limit read).mapError (LoadError.renamed name)).map
        (TypeDefinition.named name) := by
  cases read with
  | error error => rfl
  | ok found =>
      rw [← owned found rfl]
      simp only [vet, Except.map]
      rw [check_named]
      cases check found.name limit found <;> rfl

end Registry

/-! Running. -/

namespace Instance

def named (name : String) (object : Instance) : Instance :=
  { object with definition := object.definition.named name }

@[simp] theorem program_named (name : String) (definition : TypeDefinition) (method : Method)
    (limit : Nat) : program (definition.named name) method limit = program definition method limit :=
  rfl

theorem zeroArgumentMethod_named (name : String) (definition : TypeDefinition)
    (methodName : String) :
    zeroArgumentMethod (definition.named name) methodName =
      (zeroArgumentMethod definition methodName).mapError (InstantiationError.renamed name) := by
  have found : (definition.named name).method? methodName = definition.method? methodName := rfl
  unfold zeroArgumentMethod
  rw [found]
  cases definition.method? methodName with
  | none => rfl
  | some method =>
      simp only
      split <;> rfl

theorem methods_named (name : String) (definition : TypeDefinition) (entryName : String) :
    methods (definition.named name) entryName =
      (methods definition entryName).mapError (InstantiationError.renamed name) := by
  unfold methods
  rw [zeroArgumentMethod_named, zeroArgumentMethod_named]
  cases zeroArgumentMethod definition TypeDefinition.constructorName with
  | error error => rfl
  | ok constructor =>
      simp only [Except.mapError]
      split
      · rfl
      · cases zeroArgumentMethod definition entryName <;> rfl

theorem create_named (name : String) (definition : TypeDefinition) (entryName : String)
    (limit steps : Nat) :
    create (definition.named name) entryName limit steps =
      (create definition entryName limit steps).map fun result =>
        (result.mapError (InstantiationError.renamed name)).map (named name) := by
  have count : (definition.named name).fieldCount = definition.fieldCount := rfl
  unfold create
  rw [methods_named]
  cases methods definition entryName with
  | error error => rfl
  | ok pair =>
      obtain ⟨constructor, entry⟩ := pair
      simp only [Except.mapError, program_named, count]
      split <;> rfl

theorem invoke_named (name : String) (object : Instance) (steps : Nat) :
    (object.named name).invoke steps =
      (object.invoke steps).map fun result =>
        result.map fun evaluation => { evaluation with typeName := name } := by
  unfold invoke
  simp only [named, program_named]
  split <;> rfl

end Instance

theorem Host.execute_named (name other : String) (options : Options) (steps : Nat)
    (definition : TypeDefinition) :
    AnswersAlike name other (execute options steps (definition.named name))
      (execute options steps (definition.named other)) := by
  unfold execute
  rw [Instance.create_named name, Instance.create_named other]
  cases Instance.create definition options.entryMethod options.stackLimit steps with
  | none => exact .unfinished
  | some created =>
      cases created with
      | error error => exact .instantiation error
      | ok object =>
          simp only [Option.map_some, Except.mapError, Except.map]
          rw [Instance.invoke_named name, Instance.invoke_named other]
          cases object.invoke steps with
          | none => exact .unfinished
          | some answer =>
              cases answer with
              | error fault => exact .same (.ofFault fault)
              | ok evaluation => exact .answered evaluation.value evaluation.output

end FragmentLisp
