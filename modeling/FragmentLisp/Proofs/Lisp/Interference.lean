import FragmentLisp.Proofs.Artifact.RoundTrip
import FragmentLisp.Proofs.Lisp.Outcome
import FragmentLisp.Proofs.Naming

/-!
Evaluations do not interfere. What a fragment comes to depends neither on the number that its type gets
nor on the types that were loaded before, as long as none of them has its name. Of an image only this is
assumed: it has fewer than 2^64 bytes, as everything in memory does.
-/

namespace FragmentLisp

namespace CompilationUnit

def named {Fragment : Type} (name : String) (unit : CompilationUnit Fragment) :
    CompilationUnit Fragment :=
  { unit with typeName := name }

theorem wrap_named {Fragment : Type} (frontEnd : FrontEnd Fragment) (options : Options)
    (bindings : Bindings) (number other : UInt64) (fragment : Fragment) :
    wrap frontEnd options bindings other fragment =
      (wrap frontEnd options bindings number fragment).map
        (named (numberedName options.typeNamePrefix other)) := by
  unfold wrap
  simp only [bind, Except.bind]
  cases checkShape options (frontEnd.inspect fragment).shape with
  | error error => rfl
  | ok _ =>
      dsimp only
      cases checkOptions options (frontEnd.inspect fragment).depth with
      | error error => rfl
      | ok _ =>
          dsimp only
          cases checkBindings bindings <;> rfl

end CompilationUnit

theorem Section.encodeMetadata_error {metadata other : Metadata} {malformation : Malformation}
    (fits : metadata.name.utf8ByteSize ≤ 65535 ↔ other.name.utf8ByteSize ≤ 65535)
    (methods : metadata.signatures.map Signature.name = other.signatures.map Signature.name)
    (refused : encodeMetadata metadata = .error malformation) :
    encodeMetadata other = .error malformation := by
  have long : 65535 < metadata.name.utf8ByteSize ↔ 65535 < other.name.utf8ByteSize := by omega
  have count : metadata.signatures.length = other.signatures.length := by
    simpa using congrArg List.length methods
  have each : metadata.signatures.any (fun signature => decide (255 < signature.name.utf8ByteSize)) =
      other.signatures.any fun signature => decide (255 < signature.name.utf8ByteSize) := by
    have names := congrArg (List.any · fun name => decide (255 < name.utf8ByteSize)) methods
    simpa [List.any_map, Function.comp_def] using names
  unfold encodeMetadata at refused ⊢
  simp only [long, count, each] at refused
  split_ifs at refused ⊢
  all_goals exact refused

namespace TypeDefinition

def NameFits (name : String) : Prop :=
  name.utf8ByteSize ≤ 65535

instance (name : String) : Decidable (NameFits name) :=
  inferInstanceAs (Decidable (name.utf8ByteSize ≤ 65535))

theorem zeroFree_alike {definition other : TypeDefinition}
    (methods : (definition.methods.map fun method => method.signature.name) =
      other.methods.map fun method => method.signature.name) :
    definition.ZeroFree ↔ other.ZeroFree := by
  have names (each : TypeDefinition) :
      each.ZeroFree ↔ ∀ name ∈ each.methods.map (fun method => method.signature.name),
        (0 : UInt8) ∉ Bytes.utf8 name := by
    rw [List.forall_mem_map]
    rfl
  rw [names, names, methods]

/-- Nothing but the names of a type and of its methods can make writing fail. -/
theorem write_error_alike [ObjectFormat] [LawfulObjectFormat] {definition other : TypeDefinition}
    {failure : Failure ArtifactError} (fits : NameFits definition.name ↔ NameFits other.name)
    (methods : (definition.methods.map fun method => method.signature.name) =
      other.methods.map fun method => method.signature.name)
    (failed : definition.write = .error failure) : other.write = .error failure := by
  have names : definition.metadata.signatures.map Signature.name =
      other.metadata.signatures.map Signature.name := by
    rw [names_metadata, names_metadata, methods]
  rcases write_error_iff.mp failed with
    ⟨malformation, malformed, rfl⟩ | ⟨metadataBytes, reason, encoded, unwritten, rfl⟩
  · have again := @Section.encodeMetadata_error definition.metadata other.metadata _ fits names malformed
    exact write_error_iff.mpr (.inl ⟨malformation, again, rfl⟩)
  · cases otherEncoded : Section.encodeMetadata other.metadata with
    | error malformation =>
        have malformed := @Section.encodeMetadata_error other.metadata definition.metadata _ fits.symm
          names.symm otherEncoded
        cases encoded.symm.trans malformed
    | ok otherBytes =>
        have alike : (definition.objectFile metadataBytes).ZeroFree ↔
            (other.objectFile otherBytes).ZeroFree := by
          rw [zeroFree_objectFile_iff, zeroFree_objectFile_iff, zeroFree_alike methods]
        exact write_error_iff.mpr (.inr ⟨otherBytes, reason, otherEncoded,
          (ObjectFile.write_error_iff alike).mp unwritten, rfl⟩)

theorem write_error_named [ObjectFormat] [LawfulObjectFormat] {definition : TypeDefinition}
    {name other : String} {failure : Failure ArtifactError} (fits : NameFits name ↔ NameFits other)
    (failed : (definition.named name).write = .error failure) :
    (definition.named other).write = .error failure := by
  have own : NameFits (definition.named name).name ↔ NameFits (definition.named other).name := fits
  exact write_error_alike own rfl failed

theorem readBack_named (name : String) (definition : TypeDefinition) :
    (definition.named name).readBack = definition.readBack.map (TypeDefinition.named name) := by
  have constants : (definition.named name).constants = definition.constants := rfl
  rw [readBack, readBack, constants]
  cases Section.decodeConstants (Section.encodeConstants definition.constants) <;> rfl

theorem name_of_readBack {definition found : TypeDefinition}
    (read : definition.readBack = .ok found) : found.name = definition.name := by
  rw [readBack] at read
  cases decoded : Section.decodeConstants (Section.encodeConstants definition.constants) with
  | error malformation => simp [decoded, Except.map, Except.mapError] at read
  | ok constants =>
      rw [decoded] at read
      rw [← Except.ok.inj read]

end TypeDefinition

namespace Lisp

section Units

variable {unit : CompilationUnit Fragment} {body : Body} {definition : TypeDefinition}
variable {name other : String}

theorem typeDefinition_named (name : String) (unit : CompilationUnit Fragment) (body : Body) :
    Code.typeDefinition (unit.named name) body =
      (Code.typeDefinition unit body).map (TypeDefinition.named name) := by
  have fields : (unit.named name).fields = unit.fields := rfl
  have entry : (unit.named name).entryMethod = unit.entryMethod := rfl
  unfold Code.typeDefinition
  simp only [fields, entry, bind, Except.bind]
  cases Code.ofFields (Constants.ofBody unit.fields body) 0 [] unit.fields with
  | error error => rfl
  | ok filling =>
      dsimp only
      cases Code.ofBody (Constants.ofBody unit.fields body) body with
      | error error => rfl
      | ok running =>
          dsimp only
          split
          · rfl
          · cases Code.method TypeDefinition.constructorName 0 false filling with
            | error error => rfl
            | ok constructor =>
                dsimp only
                cases Code.method unit.entryMethod body.locals body.result?.isSome running <;> rfl

theorem Generates.named (generates : Generates unit definition) (name : String) :
    Generates (unit.named name) (definition.named name) := by
  obtain ⟨body, checked, resolved, typed⟩ := generates
  refine ⟨body, checked, resolved, ?_⟩
  rw [typeDefinition_named, typed]
  rfl

theorem Generates.distinct (generates : Generates unit definition)
    (entry : unit.entryMethod ≠ TypeDefinition.constructorName) :
    (definition.methods.map fun method => method.signature.name).Nodup := by
  obtain ⟨_, _, _, _, _, _, _, generated⟩ := generates_parts generates
  rw [generated.methods]
  simp [generated.constructor.name, generated.entry.name, entry.symm]

variable [ObjectFormat]

/-- How the unit of a type fares under two names that fit alike: no name makes a difference to an error,
and otherwise one type is written under both names. -/
inductive CompiledUnder (name other : String) (unit : CompilationUnit Fragment) : Prop
  | failed {error : CompilationError} (first : (unit.named name).compile frontEnd = .error error)
      (second : (unit.named other).compile frontEnd = .error error)
  | written {definition : TypeDefinition} {artifact otherArtifact : Artifact}
      (generates : Generates unit definition)
      (written : (definition.named name).write = .ok artifact)
      (otherWritten : (definition.named other).write = .ok otherArtifact)

def translateUnder (name : String) (unit : CompilationUnit Fragment) : Except CompileError Artifact := do
  Grammar.check unit.body.statements
  let body ← Resolution.resolveFragment unit.fields unit.body.statements
  let definition ← (Code.typeDefinition unit body).mapError .internal
  (definition.named name).write.mapError fun failure => .ofFailure (failure.map .unwritable)

theorem compile_named (name : String) (unit : CompilationUnit Fragment) :
    (unit.named name).compile frontEnd =
      (translateUnder name unit).mapError (compilationError unit) := by
  have translated : translate (unit.named name) = translateUnder name unit := by
    unfold translate translateUnder Code.generate
    simp only [typeDefinition_named]
    refine congrArg _ (funext fun _ => congrArg _ (funext fun body => ?_))
    cases Code.typeDefinition unit body with
    | error error => rfl
    | ok definition =>
        change ((definition.named name).write.mapError _).mapError _ =
          (definition.named name).write.mapError _
        cases (definition.named name).write <;> rfl
  rw [compile_eq, translated]
  rfl

theorem compiled_under [LawfulObjectFormat] (fits : TypeDefinition.NameFits name ↔ TypeDefinition.NameFits other)
    (unit : CompilationUnit Fragment) : CompiledUnder name other unit := by
  have first := compile_named name unit
  have second := compile_named other unit
  unfold translateUnder at first second
  cases checked : Grammar.check unit.body.statements with
  | error error =>
      rw [checked] at first second
      exact .failed first second
  | ok _ =>
      cases resolved : Resolution.resolveFragment unit.fields unit.body.statements with
      | error error =>
          rw [checked, resolved] at first second
          exact .failed first second
      | ok body =>
          rw [checked, resolved] at first second
          cases typed : Code.typeDefinition unit body with
          | error error =>
              simp only [bind, Except.bind, typed] at first second
              exact .failed first second
          | ok definition =>
              simp only [bind, Except.bind, typed, Except.mapError] at first second
              cases written : (definition.named name).write with
              | error error =>
                  rw [written] at first
                  rw [TypeDefinition.write_error_named fits written] at second
                  exact .failed first second
              | ok artifact =>
                  cases otherWritten : (definition.named other).write with
                  | ok otherArtifact =>
                      exact .written ⟨body, checked, resolved, typed⟩ written otherWritten
                  | error error =>
                      have refused := TypeDefinition.write_error_named fits.symm otherWritten
                      rw [written] at refused
                      cases refused

theorem Generates.read [LawfulObjectFormat] (generates : Generates unit definition)
    (entry : unit.entryMethod ≠ TypeDefinition.constructorName) {artifact : Artifact}
    (written : (definition.named name).write = .ok artifact)
    (addressable : artifact.image.length < 2 ^ 64) :
    artifact.name = name ∧
      TypeDefinition.read artifact.image =
        definition.readBack.map (TypeDefinition.named name) := by
  obtain ⟨_, _, named, _⟩ := TypeDefinition.write_ok written
  refine ⟨named, ?_⟩
  rw [← TypeDefinition.readBack_named]
  exact TypeDefinition.read_eq_readBack (generates.distinct entry) written addressable

end Units

section Launches

variable [ObjectFormat]

def launch (registry : Registry) (options : Options) (steps : Nat) (artifact : Artifact) :
    Option (Except EvalError Evaluation) :=
  match registry.define options.stackLimit artifact with
  | .error error => some (.error (.ofLoading error))
  | .ok (definition, _) => Host.execute options steps definition

def answer (registry : Registry) (options : Options) (steps : Nat) (unit : CompilationUnit Fragment) :
    Option (Except EvalError Evaluation) :=
  match unit.compile frontEnd with
  | .error error => some (.error (.ofCompilation error))
  | .ok artifact => launch registry options steps artifact

theorem evaluate_answer (host : Host) (options : Options) (bindings : Bindings) (steps : Nat)
    (fragment : Fragment) :
    (host.evaluate frontEnd options bindings steps fragment).1 =
      match CompilationUnit.wrap frontEnd options bindings host.nextNumber fragment with
      | .error error => some (.error (.ofWrapping error))
      | .ok unit => answer host.registry options steps unit := by
  unfold Host.evaluate answer launch
  cases CompilationUnit.wrap frontEnd options bindings host.nextNumber fragment with
  | error error => rfl
  | ok unit =>
      dsimp only
      cases unit.compile frontEnd with
      | error error => rfl
      | ok artifact =>
          dsimp only
          cases host.registry.define options.stackLimit artifact <;> rfl

theorem launch_eq (registry : Registry) (options : Options) (steps : Nat) (artifact : Artifact) :
    launch registry options steps artifact =
      if (registry.get? artifact.name).isSome then
        some (.error (.ofLoading (.alreadyDefined artifact.name)))
      else
        match Registry.vet artifact.name options.stackLimit
          (TypeDefinition.read artifact.image) with
        | .error error => some (.error (.ofLoading error))
        | .ok definition => Host.execute options steps definition := by
  unfold launch
  rw [Registry.define_eq]
  by_cases taken : (registry.get? artifact.name).isSome
  · simp only [taken, if_true]
  · simp only [taken, if_false, Bool.false_eq_true]
    cases Registry.vet artifact.name options.stackLimit (TypeDefinition.read artifact.image) <;> rfl

section Answers

variable [LawfulObjectFormat] {unit : CompilationUnit Fragment} {definition : TypeDefinition}
variable {name other : String}
variable {registry otherRegistry : Registry}

theorem launched_alike {artifact otherArtifact : Artifact} (generates : Generates unit definition)
    (entry : unit.entryMethod ≠ TypeDefinition.constructorName)
    (written : (definition.named name).write = .ok artifact)
    (otherWritten : (definition.named other).write = .ok otherArtifact)
    (addressable : artifact.image.length < 2 ^ 64)
    (otherAddressable : otherArtifact.image.length < 2 ^ 64)
    (taken : (registry.get? name).isSome = (otherRegistry.get? other).isSome)
    (options : Options) (steps : Nat) :
    AnswersAlike name other (launch registry options steps artifact)
      (launch otherRegistry options steps otherArtifact) := by
  obtain ⟨rfl, read⟩ := generates.read entry written addressable
  obtain ⟨rfl, otherRead⟩ := generates.read entry otherWritten otherAddressable
  have owned : ∀ found, definition.readBack = .ok found → found.name = definition.name :=
    fun _ => TypeDefinition.name_of_readBack
  rw [launch_eq, launch_eq, taken, read, otherRead, Registry.vet_named _ _ owned,
    Registry.vet_named _ _ owned]
  by_cases free : (otherRegistry.get? otherArtifact.name).isSome
  · rw [if_pos free, if_pos free]
    exact .loading (.alreadyDefined artifact.name)
  · rw [if_neg free, if_neg free]
    cases Registry.vet definition.name options.stackLimit definition.readBack with
    | error error => exact .loading error
    | ok vetted => exact Host.execute_named _ _ options steps vetted

theorem answers_alike (entry : unit.entryMethod ≠ TypeDefinition.constructorName)
    (fits : TypeDefinition.NameFits name ↔ TypeDefinition.NameFits other)
    (taken : (registry.get? name).isSome = (otherRegistry.get? other).isSome)
    (addressable : ∀ artifact, (unit.named name).compile frontEnd = .ok artifact →
      artifact.image.length < 2 ^ 64)
    (otherAddressable : ∀ artifact, (unit.named other).compile frontEnd = .ok artifact →
      artifact.image.length < 2 ^ 64) (options : Options) (steps : Nat) :
    AnswersAlike name other (answer registry options steps (unit.named name))
      (answer otherRegistry options steps (unit.named other)) := by
  unfold answer
  cases compiled_under fits unit with
  | failed first second =>
      rw [first, second]
      exact .same _
  | written generates written otherWritten =>
      have compiled := compile_of_written (generates.named name) written
      have otherCompiled := compile_of_written (generates.named other) otherWritten
      rw [compiled, otherCompiled]
      exact launched_alike generates entry written otherWritten (addressable _ compiled)
        (otherAddressable _ otherCompiled) taken options steps

end Answers

end Launches

end Lisp

namespace Host

def nextName (host : Host) (options : Options) : String :=
  CompilationUnit.numberedName options.typeNamePrefix host.nextNumber

/-- The names of the types that two hosts generate next fit alike, and both are taken or both are free. -/
structure OnPar (options : Options) (host other : Host) : Prop where
  fits : TypeDefinition.NameFits (host.nextName options) ↔
    TypeDefinition.NameFits (other.nextName options)
  taken : (host.registry.get? (host.nextName options)).isSome =
    (other.registry.get? (other.nextName options)).isSome

end Host

namespace Lisp

/-- The image that a fragment is compiled to, if it is, fits into memory that is addressed with 64 bits. -/
def Addressable [ObjectFormat] (options : Options) (bindings : Bindings) (number : UInt64) (fragment : Fragment) :
    Prop :=
  ∀ unit artifact, CompilationUnit.wrap frontEnd options bindings number fragment = .ok unit →
    unit.compile frontEnd = .ok artifact → artifact.image.length < 2 ^ 64

section Hosts

variable [ObjectFormat] {options : Options} {bindings : Bindings} {fragment : Fragment}
variable {host other : Host} [LawfulObjectFormat]

/-- Hosts on a par answer alike. -/
theorem evaluate_alike (onPar : host.OnPar options other)
    (addressable : Addressable options bindings host.nextNumber fragment)
    (otherAddressable : Addressable options bindings other.nextNumber fragment) (steps : Nat) :
    AnswersAlike (host.nextName options) (other.nextName options)
      (host.evaluate frontEnd options bindings steps fragment).1
      (other.evaluate frontEnd options bindings steps fragment).1 := by
  have renamed := CompilationUnit.wrap_named frontEnd options bindings host.nextNumber
    other.nextNumber fragment
  rw [evaluate_answer, evaluate_answer]
  cases wrapped : CompilationUnit.wrap frontEnd options bindings host.nextNumber fragment with
  | error error =>
      rw [wrapped] at renamed
      rw [renamed]
      exact .same _
  | ok unit =>
      rw [wrapped] at renamed
      obtain ⟨_, entry, _⟩ := CompilationUnit.wrap_ok wrapped
      have own : unit.named (host.nextName options) = unit := by
        rw [CompilationUnit.unit_of_wrap wrapped]
        rfl
      have alike := answers_alike entry onPar.fits onPar.taken
        (fun artifact compiled => addressable unit artifact wrapped (own ▸ compiled))
        (fun artifact compiled => otherAddressable _ artifact renamed compiled) options steps
      rw [own] at alike
      rw [renamed]
      exact alike

theorem addressable_of_compact {number : UInt64}
    (compact : ∀ unit definition,
      CompilationUnit.wrap frontEnd options bindings number fragment = .ok unit →
      Generates unit definition → definition.Compact) :
    Addressable options bindings number fragment := by
  intro unit artifact wrapped compiled
  obtain ⟨_, entry, _⟩ := CompilationUnit.wrap_ok wrapped
  obtain ⟨definition, generates, written⟩ := compile_ok compiled
  obtain ⟨metadataBytes, encoded, _, laidOut⟩ := TypeDefinition.write_ok written
  have storable := TypeDefinition.storable_of_compact (compact unit definition wrapped generates)
    (generates.distinct entry)
  have bounded := ObjectFile.image_length_le laidOut
  have small := storable.footprint metadataBytes encoded
  omega

end Hosts

/-- What a fragment comes to on a host with any past is what it comes to among no other types with any
other number, but for the name of the generated type. -/
theorem calls_do_not_interfere [ObjectFormat] [LawfulObjectFormat] (host : Host)
    (number : UInt64) (options : Options) (bindings : Bindings) (fragment : Fragment)
    (fits : TypeDefinition.NameFits
      (CompilationUnit.numberedName options.typeNamePrefix host.nextNumber))
    (otherFits : TypeDefinition.NameFits
      (CompilationUnit.numberedName options.typeNamePrefix number))
    (free : host.registry.get?
      (CompilationUnit.numberedName options.typeNamePrefix host.nextNumber) = none)
    (addressable : Addressable options bindings host.nextNumber fragment)
    (otherAddressable : Addressable options bindings number fragment) (steps : Nat) :
    AnswersAlike (CompilationUnit.numberedName options.typeNamePrefix host.nextNumber)
      (CompilationUnit.numberedName options.typeNamePrefix number)
      (host.evaluate frontEnd options bindings steps fragment).1
      (Host.evaluate { registry := .empty, nextNumber := number } frontEnd options bindings steps
        fragment).1 := by
  have onPar : host.OnPar options { registry := .empty, nextNumber := number } := by
    refine ⟨iff_of_true fits otherFits, ?_⟩
    rw [Host.nextName, free]
    rfl
  exact evaluate_alike onPar addressable otherAddressable steps

theorem sum_addressable (number : UInt64) : Addressable {} sumBindings number sumFragment := by
  apply addressable_of_compact
  intro unit definition wrapped generates
  have named := CompilationUnit.wrap_named frontEnd {} sumBindings 1 number sumFragment
  rw [wrapped, sum_wraps] at named
  obtain rfl := Except.ok.inj named
  obtain rfl := generates.unique (sum_generates.named _)
  have compact := sum_compact sumType sum_generates
  exact ⟨compact.code, compact.constants⟩

theorem sums_do_not_interfere :
    let host : Host := { registry := { types := [sumType] }, nextNumber := 2 }
    TypeDefinition.NameFits "Fragment$2" ∧ TypeDefinition.NameFits "Fragment$1" ∧
      host.registry.get? "Fragment$2" = none ∧
      ∀ steps, AnswersAlike "Fragment$2" "Fragment$1"
        (host.evaluate frontEnd {} sumBindings steps sumFragment).1
        (Host.initial.evaluate frontEnd {} sumBindings steps sumFragment).1 := by
  intro host
  have fits : TypeDefinition.NameFits "Fragment$2" := by decide
  have otherFits : TypeDefinition.NameFits "Fragment$1" := by decide
  have free : host.registry.get? "Fragment$2" = none := by decide
  have second : CompilationUnit.numberedName "Fragment" 2 = "Fragment$2" := by
    with_unfolding_all rfl
  have first : CompilationUnit.numberedName "Fragment" 1 = "Fragment$1" := by
    with_unfolding_all rfl
  refine ⟨fits, otherFits, free, fun steps => ?_⟩
  rw [← second] at fits free
  rw [← first] at otherFits
  rw [← second, ← first]
  exact calls_do_not_interfere host 1 {} sumBindings sumFragment fits otherFits free
    (sum_addressable 2) (sum_addressable 1) steps

end Lisp
end FragmentLisp
