import FragmentLisp.Proofs.History
import FragmentLisp.Proofs.Lisp.Independence
import FragmentLisp.Proofs.Lisp.StackUse
import FragmentLisp.Proofs.TypeDefinition.Canonical
import Mathlib.Data.String.Basic

/-!
Fragments of one literal, under default options and without host bindings. They come to the value of the
literal. Only a string can be too long for that: its length is cut off in the word that stands before the
constant, so a type with it is written but cannot be loaded again.
-/

open String (utf8Len)

namespace FragmentLisp

namespace CompilationUnit

theorem utf8Len_le (text : List Char) : utf8Len text ≤ 4 * text.length := by
  induction text with
  | nil => exact Nat.le_refl _
  | cons character rest inductionHypothesis =>
      have narrow := character.utf8Size_le_four
      rw [String.utf8Len_cons, List.length_cons]
      omega

theorem numberedName_size (typeNamePrefix : String) (number : UInt64) :
    (numberedName typeNamePrefix number).utf8ByteSize ≤ typeNamePrefix.utf8ByteSize + 81 := by
  have digits : (Nat.toDigits 10 number.toNat).length ≤ 20 := by
    refine (Nat.length_toDigits_le_iff (by decide) (by decide)).mpr ?_
    exact Nat.lt_trans number.toNat_lt (by decide)
  have written := utf8Len_le (Nat.toDigits 10 number.toNat)
  have dollar : '$'.utf8Size = 1 := rfl
  rw [← String.utf8Len_toList, numberedName_toList, String.utf8Len_append, String.utf8Len_cons, dollar,
    String.utf8Len_toList]
  omega

end CompilationUnit

/-- A single constant that does not fit its word is not read back as anything. -/
theorem Section.decodeConstants_long {text : String} (long : 2 ^ 32 ≤ text.utf8ByteSize) :
    ∃ malformation, decodeConstants (encodeConstants [text]) = .error malformation := by
  cases decoded : decodeConstants (encodeConstants [text]) with
  | error malformation => exact ⟨malformation, rfl⟩
  | ok constants =>
      obtain ⟨⟨count, sizes⟩, same⟩ := decodeConstants_eq_ok_iff.mp decoded
      have counts := congrArg (fun bytes => Bytes.ofLittleEndian (bytes.take 4)) same
      simp only [encodeConstants, List.take_left' (Bytes.littleEndian_length 4 _),
        Bytes.of_littleEndian_of_lt count, List.length_singleton] at counts
      obtain ⟨other, rfl⟩ := List.length_eq_one_iff.mp counts
      have short := sizes other (List.mem_singleton_self other)
      have lengths := congrArg List.length same
      rw [TypeDefinition.encodeConstants_length, TypeDefinition.encodeConstants_length] at lengths
      simp only [List.map_singleton, List.sum_singleton] at lengths
      omega

namespace Lisp

/-- A node that stands for a value, whatever names are bound. -/
inductive Literal : Node → Value → Prop
  | number (value : Int64) (span : Span) : Literal (.number value span) (.integer value)
  | string (value : String) (span : Span) : Literal (.string value span) (.string value)
  | truth (span : Span) : Literal (.symbol "true" span) (.boolean true)
  | falsity (span : Span) : Literal (.symbol "false" span) (.boolean false)
  | nil (span : Span) : Literal (.symbol "nil" span) .nil

def Expr.literal : Value → Expr
  | .integer value => .number value
  | .boolean value => .boolean value
  | .string value => .string value
  | .nil => .nil
  | .nothing => .nil

def literalConstants : Value → List String
  | .string text => [text]
  | _ => []

def Body.literal (value : Value) : Body :=
  { statements := [.expression (.literal value)], locals := 0, result? := some (.ofValue value) }

def literalUnit (number : UInt64) (node : Node) : CompilationUnit Fragment :=
  { typeName := CompilationUnit.numberedName "Fragment" number
    entryMethod := "run"
    fields := []
    body := [node]
    shape := .expression
    origin := node.span.start }

section Literals

variable {node : Node} {value : Value} {number : UInt64}

namespace Literal

theorem real (literal : Literal node value) : value ≠ .nothing := by
  cases literal <;> exact nofun

theorem check (literal : Literal node value) : Grammar.check (Fragment.statements [node]) = .ok () := by
  cases literal <;> rfl

theorem resolve (literal : Literal node value) :
    Resolution.resolveFragment [] (Fragment.statements [node]) = .ok (.literal value) := by
  cases literal <;> rfl

theorem overview (literal : Literal node value) :
    Fragment.overview [node] = { shape := .expression, origin := node.span.start, depth := 0 } := by
  have depth : Fragment.depth [node] = 0 := by
    rw [Fragment.depth, List.foldl_cons, List.foldl_nil, Node.depth_eq_nesting]
    cases literal <;> rfl
  rw [Fragment.overview, depth]
  cases literal <;> rfl

theorem wrap [ObjectFormat] (literal : Literal node value) (number : UInt64) :
    CompilationUnit.wrap frontEnd {} .empty number [node] = .ok (literalUnit number node) := by
  have overview : frontEnd.inspect [node] =
      { shape := .expression, origin := node.span.start, depth := 0 } := literal.overview
  simp only [CompilationUnit.wrap, overview]
  rfl

end Literal

theorem Body.evaluate_literal (real : value ≠ .nothing) :
    (Body.literal value).evaluate #[] = .ok (some value, { locals := #[], output := "" }) := by
  cases value with
  | nothing => exact absurd rfl real
  | _ => rfl

theorem Body.need_literal (value : Value) : (Body.literal value).need = 1 := by
  cases value <;> rfl

theorem Code.ofBody_literal (constants : Constants) (value : Value) :
    ∃ push, Code.ofBody constants (.literal value) = .ok [push, .return] := by
  cases value <;> exact ⟨_, rfl⟩

theorem constants_literal (value : Value) :
    (Constants.ofBody [] (.literal value)).toList = literalConstants value := by
  cases value with
  | string text => simp [Constants.ofBody, Body.literal, Constants.addStatement, Expr.literal,
      Constants.addExpr, Constants.add, literalConstants]
  | _ => rfl

theorem describable_of_generated {body : Body} {definition : TypeDefinition} {constructor entry : Method}
    {filling running : List Instruction}
    (generated : Code.Generated (literalUnit number node) body definition constructor entry filling
      running) : definition.Describable := by
  refine ⟨?_, ?_, ?_⟩
  · rw [generated.definition_eq]
    exact Nat.le_trans (CompilationUnit.numberedName_size "Fragment" number) (by decide)
  · rw [generated.methods]
    change 2 ≤ 65535
    decide
  · rw [generated.methods]
    refine List.forall_mem_cons.mpr ⟨?_, List.forall_mem_singleton.mpr ?_⟩
    · rw [generated.constructor.name]
      decide
    · rw [generated.entry.name]
      change "run".utf8ByteSize ≤ 255
      decide

variable [ObjectFormat]

/-- The type of a fragment of one literal, as it is generated and written. -/
structure LiteralType (number : UInt64) (node : Node) (value : Value) (definition : TypeDefinition)
    (artifact : Artifact) : Prop where
  checked : Grammar.check (Fragment.statements [node]) = .ok ()
  resolved : Resolution.resolveFragment [] (Fragment.statements [node]) = .ok (.literal value)
  typed : Code.typeDefinition (literalUnit number node) (.literal value) = .ok definition
  code : ∀ method ∈ definition.methods, method.code.size < 2 ^ 32
  written : definition.write = .ok artifact

theorem Literal.compiled [LawfulObjectFormat] (literal : Literal node value) (number : UInt64) :
    ∃ definition artifact, LiteralType number node value definition artifact := by
  obtain ⟨push, ran⟩ := Code.ofBody_literal (Constants.ofBody [] (.literal value)) value
  have small : codeSize [push, .return] < 2 ^ 32 := by
    have pushed := push.size_le_maxSize
    have returned := Instruction.return.size_le_maxSize
    unfold Instruction.maxSize at pushed returned
    rw [codeSize_cons, codeSize_cons, codeSize_nil]
    omega
  obtain ⟨definition, typed⟩ := @Code.typeDefinition_of_ok (literalUnit number node) _ _
    (Resolution.derived_of_ok literal.check literal.resolve) (Nat.zero_le _) (List.forall_mem_nil _) _
    ran small
  obtain ⟨constructor, entry, filling, running, generated⟩ := Code.generated_of_ok typed
  have plain : (0 : UInt8) ∉ Bytes.utf8 "run" := by decide
  obtain ⟨_, artifact, _, written, _⟩ := TypeDefinition.write_of_describable
    (describable_of_generated generated) (generated.zeroFree_iff.mpr plain)
  refine ⟨definition, artifact, literal.check, literal.resolve, typed, generated.code_small ?_, written⟩
  rwa [← Except.ok.inj (ran.symm.trans generated.made)]

section Types

variable {definition : TypeDefinition} {artifact : Artifact}
variable (type : LiteralType number node value definition artifact)

include type

namespace LiteralType

theorem generates : Generates (literalUnit number node) definition :=
  ⟨_, type.checked, type.resolved, type.typed⟩

theorem constants : definition.constants = literalConstants value := by
  obtain ⟨_, _, _, _, generated⟩ := Code.generated_of_ok type.typed
  rw [generated.constants]
  exact constants_literal value

theorem distinct : (definition.methods.map fun method => method.signature.name).Nodup :=
  have reserved : "run" ≠ TypeDefinition.constructorName := by decide
  type.generates.distinct reserved

/-- The image can be addressed where the text of a string could be. -/
theorem footprint (stored : ∀ text, value = .string text → text.utf8ByteSize < 2 ^ 63)
    {metadataBytes : List UInt8}
    (encoded : Section.encodeMetadata definition.metadata = .ok metadataBytes) :
    (definition.objectFile metadataBytes).footprint < 2 ^ 64 := by
  refine TypeDefinition.footprint_lt type.code ?_ encoded
  rw [TypeDefinition.encodeConstants_length, type.constants]
  cases value with
  | string text =>
      have own := stored text rfl
      simp only [literalConstants, List.map_singleton, List.sum_singleton]
      omega
  | _ => simp [literalConstants]

theorem storable (short : ∀ text, value = .string text → text.utf8ByteSize < 2 ^ 32) :
    definition.Storable := by
  refine ⟨type.distinct, ?_, ?_, ?_⟩
  · rw [type.constants]
    cases value <;> simp [literalConstants]
  · rw [type.constants]
    cases value with
    | string text => exact List.forall_mem_singleton.mpr (short text rfl)
    | _ => exact List.forall_mem_nil _
  · intro metadataBytes encoded
    exact type.footprint (fun text same => Nat.lt_trans (short text same) (by decide)) encoded

/-- The entry method needs one entry of the operand stack, for the value. -/
theorem prepared (short : ∀ text, value = .string text → text.utf8ByteSize < 2 ^ 32) :
    ∃ constructor entry filling running,
      Prepared (literalUnit number node) artifact (.literal value) definition constructor entry filling
        running ∧ entry.signature.maxStack.toNat = 1 := by
  obtain ⟨constructor, entry, filling, running, generated⟩ := Code.generated_of_ok type.typed
  have reserved : "run" ≠ TypeDefinition.constructorName := by decide
  have byForm := @stack_need_is_structural _ (literalUnit number node) _ _ type.resolved
  obtain ⟨_, other, methods, _, _, _, needed⟩ := byForm.recorded definition type.typed type.code
  obtain rfl : entry = other := by
    have listed := generated.methods.symm.trans methods
    exact (List.cons.inj (List.cons.inj listed).2).1
  rw [Body.need_literal] at needed
  exact ⟨constructor, entry, filling, running,
    ⟨type.written, type.resolved, Resolution.derived_of_ok type.checked type.resolved, generated,
      type.code, type.storable short, reserved, List.forall_mem_nil _⟩, needed⟩

end LiteralType

end Types

variable {host : Host} {definition : TypeDefinition} {artifact : Artifact}

theorem single_of_wrap {options : Options} {bindings : Bindings} {fragment : Fragment}
    {unit : CompilationUnit Fragment} (noBlocks : options.allowBlocks = false)
    (wrapped : CompilationUnit.wrap frontEnd options bindings number fragment = .ok unit) :
    ∃ node, fragment = [node] := by
  obtain ⟨_, shaped, _⟩ := bind_eq_ok.mp wrapped
  change CompilationUnit.checkShape options (Fragment.shape fragment) = _ at shaped
  match fragment with
  | [] => cases shaped
  | [node] => exact ⟨node, rfl⟩
  | first :: second :: rest =>
      have several : Fragment.shape (first :: second :: rest) = .declaration ∨
          Fragment.shape (first :: second :: rest) = .block (rest.length + 2) := by
        unfold Fragment.shape
        rw [if_neg (by simp)]
        by_cases declares : (Fragment.statements (first :: second :: rest)).any Fragment.isDeclaration
        · exact .inl (if_pos declares)
        · exact .inr (if_neg declares)
      rcases several with shape | shape
      · rw [shape] at shaped
        cases shaped
      · rw [shape, CompilationUnit.checkShape, noBlocks] at shaped
        cases shaped

theorem Literal.evaluate_eq (literal : Literal node value)
    (type : LiteralType host.nextNumber node value definition artifact) (steps : Nat) :
    (host.evaluate frontEnd {} .empty steps [node]).1 = launch host.registry {} steps artifact := by
  rw [evaluate_answer, literal.wrap]
  simp only [answer, compile_of_written type.generates type.written]

/-- A literal comes to its value, unless it is a string that does not fit the word for its length. -/
theorem Literal.settles [LawfulObjectFormat] (literal : Literal node value)
    (fresh : host.registry.get? (host.nextName {}) = none)
    (short : ∀ text, value = .string text → text.utf8ByteSize < 2 ^ 32) :
    Settles (fun steps => (host.evaluate frontEnd {} .empty steps [node]).1)
      (.ok { value, output := "", typeName := host.nextName {} }) := by
  obtain ⟨definition, artifact, type⟩ := literal.compiled host.nextNumber
  obtain ⟨constructor, entry, filling, running, prepared, needed⟩ := type.prepared short
  have settled := @Prepared.launch_settles _ _ _ _ _ _ _ _ _ prepared _ {} rfl (by decide) host.registry
  have outcome : reported ((Body.literal value).evaluate #[]) = .ok (value, "") := by
    rw [Body.evaluate_literal literal.real]
    rfl
  have concludes : concluded host.registry {} (host.nextName {}) 1 (.ok (value, "")) =
      .ok { value, output := "", typeName := host.nextName {} } := by
    rw [concluded, fresh]
    rfl
  rw [needed] at settled
  change Settles _ (concluded host.registry {} (host.nextName {}) 1
    (reported ((Body.literal value).evaluate #[]))) at settled
  rw [outcome, concludes] at settled
  simp only [literal.evaluate_eq type]
  exact settled

/-- The type of a longer string cannot be read, and so the string is not loaded. -/
theorem Literal.refused [LawfulObjectFormat] {text : String} (literal : Literal node (.string text))
    (fresh : host.registry.get? (host.nextName {}) = none) (long : 2 ^ 32 ≤ text.utf8ByteSize)
    (stored : text.utf8ByteSize < 2 ^ 63) :
    ∃ malformation, ∀ steps, (host.evaluate frontEnd {} .empty steps [node]).1 =
      some (.error (.ofLoading
        (.unreadable (host.nextName {}) (.malformed .constants malformation)))) := by
  obtain ⟨definition, artifact, type⟩ := literal.compiled host.nextNumber
  obtain ⟨malformation, malformed⟩ := Section.decodeConstants_long long
  obtain ⟨metadataBytes, encoded, sameName, laidOut⟩ := TypeDefinition.write_ok type.written
  have small := type.footprint (fun other same => Value.string.inj same ▸ stored) encoded
  have read := TypeDefinition.read_eq_readBack type.distinct type.written
    (Nat.lt_of_le_of_lt (ObjectFile.image_length_le laidOut) small)
  have unreadable : definition.readBack = .error (.malformed .constants malformation) := by
    rw [TypeDefinition.readBack, type.constants, literalConstants, malformed]
    rfl
  have named : definition.name = host.nextName {} := by
    obtain ⟨_, _, _, _, generated⟩ := Code.generated_of_ok type.typed
    rw [generated.definition_eq]
    rfl
  refine ⟨malformation, fun steps => ?_⟩
  rw [literal.evaluate_eq type, launch_eq]
  simp only [sameName, named, fresh, read, unreadable, Registry.vet]
  rfl

end Literals

end Lisp
end FragmentLisp
