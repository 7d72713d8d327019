import FragmentLisp.Proofs.Bindings
import FragmentLisp.Proofs.Lisp.Launch
import FragmentLisp.Proofs.Lisp.Limits
import FragmentLisp.Proofs.Lisp.Mention

/-!
What a fragment comes to depends on the names that it mentions and on nothing else that the host binds.
Other bindings, and another order of them, change the numbers of fields and constants and the whole
constructor, but neither which step fails nor what the entry method does.
-/

namespace FragmentLisp

/-- Two computations that look the same fail alike or give results that look the same. -/
theorem alike_of_viewed {Error Result View : Type} {first second : Except Error Result}
    {view : Result → View} (same : view <$> first = view <$> second) :
    (∃ error, first = .error error ∧ second = .error error) ∨
      ∃ found other, first = .ok found ∧ second = .ok other ∧ view found = view other := by
  cases first with
  | error error =>
      cases second with
      | error other => exact Or.inl ⟨error, rfl, congrArg _ (Except.error.inj same).symm⟩
      | ok other => cases same
  | ok found =>
      cases second with
      | error other => cases same
      | ok other => exact Or.inr ⟨found, other, rfl, rfl, Except.ok.inj same⟩

namespace CompilationUnit

def withFields {Fragment : Type} (others : List Field) (unit : CompilationUnit Fragment) :
    CompilationUnit Fragment :=
  { unit with fields := others }

theorem checkBindings_real {bindings : Bindings}
    (real : ∀ field ∈ fieldsOf bindings, field.value ≠ .nothing) : checkBindings bindings = .ok () := by
  have none_missing : bindings.entries.find? (fun entry => entry.2 = .nothing) = none := by
    rw [List.find?_eq_none]
    intro entry member
    have present := real _ (List.mem_map.mpr ⟨entry, member, rfl⟩)
    simpa using present
  unfold checkBindings
  rw [none_missing]

theorem wrap_withFields {Fragment : Type} (frontEnd : FrontEnd Fragment) (options : Options)
    {bindings others : Bindings} (real : ∀ field ∈ fieldsOf bindings, field.value ≠ .nothing)
    (otherReal : ∀ field ∈ fieldsOf others, field.value ≠ .nothing) (number : UInt64)
    (fragment : Fragment) :
    wrap frontEnd options others number fragment =
      (wrap frontEnd options bindings number fragment).map (withFields (fieldsOf others)) := by
  unfold wrap
  simp only [checkBindings_real real, checkBindings_real otherReal, bind, Except.bind]
  cases checkShape options (frontEnd.inspect fragment).shape with
  | error error => rfl
  | ok _ =>
      dsimp only
      cases checkOptions options (frontEnd.inspect fragment).depth <;> rfl

end CompilationUnit

namespace Lisp

open CompilationUnit (fieldsOf withFields)

/-- Fields with values that are few enough to be numbered, and with which statements lead to code and to
constants of less than 2^32 bytes. -/
structure Modest (fields : List Field) (nodes : List Node) : Prop where
  few : fields.length ≤ 65535
  real : ∀ field ∈ fields, field.value ≠ .nothing
  code : ∀ body code, Resolution.resolveFragment fields nodes = .ok body →
    Code.ofBody (Constants.ofBody fields body) body = .ok code → codeSize code < 2 ^ 32
  constants : ∀ body, Resolution.resolveFragment fields nodes = .ok body →
    (Section.encodeConstants (Constants.ofBody fields body).toList).length < 2 ^ 32

theorem modest_of_resolved {fields : List Field} {nodes : List Node} {body : Body}
    {code : List Instruction} (few : fields.length ≤ 65535)
    (real : ∀ field ∈ fields, field.value ≠ .nothing)
    (resolved : Resolution.resolveFragment fields nodes = .ok body)
    (made : Code.ofBody (Constants.ofBody fields body) body = .ok code)
    (small : codeSize code < 2 ^ 32)
    (short : (Section.encodeConstants (Constants.ofBody fields body).toList).length < 2 ^ 32) :
    Modest fields nodes := by
  refine ⟨few, real, ?_, ?_⟩
  · intro other otherCode again ran
    obtain rfl := Except.ok.inj (resolved.symm.trans again)
    obtain rfl := Except.ok.inj (made.symm.trans ran)
    exact small
  · intro other again
    obtain rfl := Except.ok.inj (resolved.symm.trans again)
    exact short

/-! Generation. -/

namespace Code

variable {unit : CompilationUnit Fragment} {nodes : List Node} {body : Body}

theorem typeDefinition_of_error (real : ∀ field ∈ unit.fields, field.value ≠ .nothing)
    {error : InternalError}
    (failed : ofBody (Constants.ofBody unit.fields body) body = .error error) :
    typeDefinition unit body = .error error := by
  cases filled : ofFields (Constants.ofBody unit.fields body) 0 [] unit.fields with
  | error other =>
      obtain ⟨field, member, missing, _⟩ := ofFields_error filled
      exact absurd missing (real field member)
  | ok filling =>
      exact bind_eq_error.mpr (.inr ⟨filling, filled, bind_eq_error.mpr (.inl failed)⟩)

theorem typeDefinition_of_ok (derived : Resolution.Derived unit.fields nodes body)
    (few : unit.fields.length ≤ 65535) (real : ∀ field ∈ unit.fields, field.value ≠ .nothing)
    {code : List Instruction} (ran : ofBody (Constants.ofBody unit.fields body) body = .ok code)
    (small : codeSize code < 2 ^ 32) : ∃ definition, typeDefinition unit body = .ok definition := by
  cases typed : typeDefinition unit body with
  | ok definition => exact ⟨definition, rfl⟩
  | error error =>
      rcases typeDefinition_refused derived real typed with
        unmade | ⟨many, _⟩ | ⟨other, again, large, _⟩
      · cases ran.symm.trans unmade
      · omega
      · obtain rfl := Except.ok.inj (ran.symm.trans again)
        omega

/-- A constructor is small whatever it fills, so only the code of the body counts. -/
theorem Generated.code_small {definition : TypeDefinition} {constructor entry : Method}
    {filling running : List Instruction}
    (generated : Generated unit body definition constructor entry filling running)
    (small : codeSize (running ++ ending body) < 2 ^ 32) :
    ∀ method ∈ definition.methods, method.code.size < 2 ^ 32 := by
  intro method member
  rw [generated.methods] at member
  rcases List.mem_cons.mp member with rfl | last
  · have size := (@balanced_fills _ (fun _ _ => False) _ 0 _ _ generated.fills).2
    have few := generated.few
    rw [generated.constructor.code, Instruction.size_encodeAll]
    omega
  · obtain rfl := List.mem_singleton.mp last
    rw [generated.entry.code, Instruction.size_encodeAll]
    exact small

end Code

theorem Modest.compact {unit : CompilationUnit Fragment} {definition : TypeDefinition}
    (modest : Modest unit.fields unit.body.statements) (generates : Generates unit definition) :
    definition.Compact := by
  obtain ⟨body, constructor, entry, filling, running, resolved, _, generated⟩ :=
    generates_parts generates
  refine ⟨generated.code_small (modest.code body _ resolved generated.made), ?_⟩
  rw [generated.constants]
  exact modest.constants body resolved

/-! Two units. -/

theorem compilationError_withFields (others : List Field) (unit : CompilationUnit Fragment)
    (error : CompileError) :
    compilationError (withFields others unit) error = compilationError unit error := by
  cases error <;> rfl

theorem Prepared.stack_alike [ObjectFormat] {unit other : CompilationUnit Fragment}
    {artifact otherArtifact : Artifact} {body otherBody : Body} {definition otherDefinition : TypeDefinition}
    {constructor otherConstructor entry otherEntry : Method}
    {filling otherFilling running otherRunning : List Instruction}
    (prepared : Prepared unit artifact body definition constructor entry filling running)
    (otherPrepared : Prepared other otherArtifact otherBody otherDefinition otherConstructor otherEntry
      otherFilling otherRunning)
    (alike : (running ++ Code.ending body).map Instruction.unnumbered =
      (otherRunning ++ Code.ending otherBody).map Instruction.unnumbered) :
    entry.signature.maxStack = otherEntry.signature.maxStack := by
  obtain ⟨needed, measured, declared⟩ := prepared.generated.entry.stack
  obtain ⟨otherNeeded, otherMeasured, otherDeclared⟩ := otherPrepared.generated.entry.stack
  have accepted := prepared.generated.entry_accepted prepared.derived prepared.code
  have otherAccepted :=
    otherPrepared.generated.entry_accepted otherPrepared.derived otherPrepared.code
  have same := Instruction.maxStackDepth_alike
    (fun placed member target jump => (accepted.jumps placed member target jump).2)
    (fun placed member target jump => (otherAccepted.jumps placed member target jump).2) alike
  rw [← prepared.generated.entry.code, ← otherPrepared.generated.entry.code, measured, otherMeasured]
    at same
  rw [declared, otherDeclared, Except.ok.inj same]

/-- How a unit and the unit with other fields are compiled: both fail with one error, or both become types
whose entry methods need the same stack. -/
inductive CompiledTogether [ObjectFormat] (unit other : CompilationUnit Fragment) : Prop
  | failed {error : CompilationError} (first : unit.compile frontEnd = .error error)
      (second : other.compile frontEnd = .error error)
  | made {artifact otherArtifact : Artifact} {body otherBody : Body}
      {definition otherDefinition : TypeDefinition}
      {constructor otherConstructor entry otherEntry : Method}
      {filling otherFilling running otherRunning : List Instruction}
      (first : unit.compile frontEnd = .ok artifact)
      (second : other.compile frontEnd = .ok otherArtifact)
      (prepared : Prepared unit artifact body definition constructor entry filling running)
      (otherPrepared : Prepared other otherArtifact otherBody otherDefinition otherConstructor
        otherEntry otherFilling otherRunning)
      (stack : entry.signature.maxStack = otherEntry.signature.maxStack)

section Pairs

variable {unit : CompilationUnit Fragment} {others : List Field}

theorem attempted_injective {Result : Type} :
    Function.Injective (attempted : Except Fault Result → Except Stop Result) := by
  intro first second same
  cases first <;> cases second <;> simp_all [attempted, Except.mapError]

theorem reported_agree {fields : List Field} {nodes : List Node} {body otherBody : Body}
    (derived : Resolution.Derived fields nodes body)
    (otherDerived : Resolution.Derived others nodes otherBody)
    (agree : Environment.Agree (Node.namesAll nodes) (.ofFields fields) (.ofFields others)) :
    reported (body.evaluate (fields.map Field.value).toArray) =
      reported (otherBody.evaluate (others.map Field.value).toArray) := by
  have meanings := meaningStatements_agree (List.Subset.refl _) agree (some .nil) ""
  rw [Environment.ofFields, Environment.ofFields, body_agrees derived, body_agrees otherDerived]
    at meanings
  apply attempted_injective
  rw [← reported_eq, ← reported_eq, meanings]

variable [ObjectFormat]

theorem CompiledTogether.stopped {phase : Phase} {error : CompileError} (first : Stops unit phase error)
    (second : Stops (withFields others unit) phase error) :
    CompiledTogether unit (withFields others unit) := by
  have later := second.failsIn.compile
  rw [compilationError_withFields] at later
  exact .failed first.failsIn.compile later

/-- Units that become types are compiled alike if the code of their bodies differs in numbers only. -/
theorem written_together [LawfulObjectFormat] (modest : Modest unit.fields unit.body.statements)
    (otherModest : Modest others unit.body.statements)
    (reserved : unit.entryMethod ≠ TypeDefinition.constructorName)
    (checked : Grammar.check unit.body.statements = .ok ()) {body otherBody : Body}
    (resolved : Resolution.resolveFragment unit.fields unit.body.statements = .ok body)
    (otherResolved : Resolution.resolveFragment others unit.body.statements = .ok otherBody)
    {definition otherDefinition : TypeDefinition}
    (typed : Code.typeDefinition unit body = .ok definition)
    (otherTyped : Code.typeDefinition (withFields others unit) otherBody = .ok otherDefinition)
    {code otherCode : List Instruction}
    (ran : Code.ofBody (Constants.ofBody unit.fields body) body = .ok code)
    (otherRan : Code.ofBody (Constants.ofBody others otherBody) otherBody = .ok otherCode)
    (alike : code.map Instruction.unnumbered = otherCode.map Instruction.unnumbered) :
    CompiledTogether unit (withFields others unit) := by
  obtain ⟨constructor, entry, filling, running, generated⟩ := Code.generated_of_ok typed
  obtain ⟨otherConstructor, otherEntry, otherFilling, otherRunning, otherGenerated⟩ :=
    Code.generated_of_ok otherTyped
  have derived := Resolution.derived_of_ok checked resolved
  have otherDerived := Resolution.derived_of_ok checked otherResolved
  have generates : Generates unit definition := ⟨body, checked, resolved, typed⟩
  have otherGenerates : Generates (withFields others unit) otherDefinition :=
    ⟨otherBody, checked, otherResolved, otherTyped⟩
  have compact := modest.compact generates
  have otherCompact := otherModest.compact otherGenerates
  have name : definition.name = otherDefinition.name := by
    rw [generated.definition_eq, otherGenerated.definition_eq]
    rfl
  have methods : (definition.methods.map fun method => method.signature.name) =
      otherDefinition.methods.map fun method => method.signature.name := by
    rw [generated.methods, otherGenerated.methods]
    simp [generated.constructor.name, generated.entry.name, otherGenerated.constructor.name,
      otherGenerated.entry.name, withFields]
  cases written : definition.write with
  | error failure =>
      have otherWritten := TypeDefinition.write_error_alike (by rw [name]) methods written
      exact .stopped (.generation checked resolved (generate_of_unwritten typed written))
        (.generation checked otherResolved (generate_of_unwritten otherTyped otherWritten))
  | ok artifact =>
      cases otherWritten : otherDefinition.write with
      | error error =>
          have refused := TypeDefinition.write_error_alike (by rw [name]) methods.symm otherWritten
          rw [written] at refused
          cases refused
      | ok otherArtifact =>
          obtain rfl := Except.ok.inj (ran.symm.trans generated.made)
          obtain rfl := Except.ok.inj (otherRan.symm.trans otherGenerated.made)
          have prepared : Prepared unit artifact body definition constructor entry filling running :=
            ⟨written, resolved, derived, generated, compact.code, generated.storable reserved compact,
              reserved, modest.real⟩
          have otherPrepared : Prepared (withFields others unit) otherArtifact otherBody
              otherDefinition otherConstructor otherEntry otherFilling otherRunning :=
            ⟨otherWritten, otherResolved, otherDerived, otherGenerated, otherCompact.code,
              otherGenerated.storable reserved otherCompact, reserved, otherModest.real⟩
          exact .made (compile_of_written generates written)
            (compile_of_written otherGenerates otherWritten) prepared otherPrepared
            (prepared.stack_alike otherPrepared alike)

/-- A unit is compiled as it is with other fields, if these give the names in its fragment the same
values. -/
theorem compiled_together [LawfulObjectFormat] (modest : Modest unit.fields unit.body.statements)
    (otherModest : Modest others unit.body.statements)
    (entry : unit.entryMethod ≠ TypeDefinition.constructorName)
    (agree : Environment.Agree (Node.namesAll unit.body.statements) (.ofFields unit.fields)
      (.ofFields others)) :
    CompiledTogether unit (withFields others unit) := by
  cases checked : Grammar.check unit.body.statements with
  | error error => exact .stopped (.validation checked) (.validation checked)
  | ok _ =>
      have slots : ∀ fields : List Field, fields.length ≤ 65535 → fields.length ≤ Scope.slotCount :=
        fun fields few => Nat.le_succ_of_le few
      rcases alike_of_viewed (Resolution.resolveFragment_agree (slots _ modest.few)
          (slots _ otherModest.few) agree) with
        ⟨error, refused, again⟩ | ⟨body, otherBody, resolved, otherResolved, bodies⟩
      · exact .stopped (.resolution checked refused) (.resolution checked again)
      have derived := Resolution.derived_of_ok checked resolved
      have otherDerived := Resolution.derived_of_ok checked otherResolved
      have codes := Code.ofBody_unnumbered (Constants.ofBody others otherBody) otherBody
      rw [← bodies, Code.ofBody_unnumbered (Constants.ofBody unit.fields body) body] at codes
      rcases alike_of_viewed codes with
        ⟨error, unmade, again⟩ | ⟨code, otherCode, ran, otherRan, alike⟩
      · have untyped := Code.typeDefinition_of_error modest.real unmade
        have otherUntyped : Code.typeDefinition (withFields others unit) otherBody = .error error :=
          Code.typeDefinition_of_error otherModest.real again
        exact .stopped (.generation checked resolved (generate_of_untyped untyped))
          (.generation checked otherResolved (generate_of_untyped otherUntyped))
      obtain ⟨definition, typed⟩ := Code.typeDefinition_of_ok derived modest.few modest.real ran
        (modest.code body code resolved ran)
      obtain ⟨otherDefinition, otherTyped⟩ :=
        @Code.typeDefinition_of_ok (withFields others unit) _ _ otherDerived otherModest.few
          otherModest.real _ otherRan (otherModest.code otherBody otherCode otherResolved otherRan)
      exact written_together modest otherModest entry checked resolved otherResolved typed otherTyped
        ran otherRan alike

theorem answer_settles [LawfulObjectFormat]
    (alike : CompiledTogether unit (withFields others unit)) {options : Options}
    (entryName : unit.entryMethod = options.entryMethod) (room : 1 ≤ options.stackLimit)
    (agree : Environment.Agree (Node.namesAll unit.body.statements) (.ofFields unit.fields)
      (.ofFields others)) (registry : Registry) :
    ∃ found, Settles (fun steps => answer registry options steps unit) found ∧
      Settles (fun steps => answer registry options steps (withFields others unit)) found := by
  unfold answer
  cases alike with
  | failed first second =>
      simp only [first, second]
      exact ⟨_, settles_at_once _, settles_at_once _⟩
  | made first second prepared otherPrepared stack =>
      simp only [first, second]
      have settled := prepared.launch_settles entryName room registry
      have otherSettled := otherPrepared.launch_settles entryName room registry
      rw [stack, reported_agree prepared.derived otherPrepared.derived agree] at settled
      exact ⟨_, settled, otherSettled⟩

end Pairs

/-! Hosts. -/

theorem namesAll_statements (fragment : Fragment) :
    Node.namesAll fragment.statements ⊆ Node.namesAll fragment := by
  unfold Fragment.statements
  split
  · rename_i items span
    intro name mentioned
    simp [Node.namesAll, Node.names, mentioned]
  · exact List.Subset.refl _

theorem lookup_fieldsOf {bindings : Bindings} (distinct : bindings.names.Nodup) (name : String) :
    (Environment.ofFields (fieldsOf bindings)).lookup name = bindings.get? name := by
  have entries : (fieldsOf bindings).map (fun field => (field.name, field.value)) =
      bindings.entries := by
    rw [fieldsOf, List.map_map]
    exact List.map_id _
  rw [Environment.ofFields, entries]
  exact Bindings.lookup_reverse distinct name

section Hosts

variable [ObjectFormat] [LawfulObjectFormat]
variable {options : Options} {bindings others : Bindings} {fragment : Fragment}

theorem evaluate_settles (room : 1 ≤ options.stackLimit)
    (modest : Modest (fieldsOf bindings) fragment.statements)
    (otherModest : Modest (fieldsOf others) fragment.statements)
    (agree : Environment.Agree (Node.namesAll fragment.statements) (.ofFields (fieldsOf bindings))
      (.ofFields (fieldsOf others))) (host : Host) :
    ∃ found,
      Settles (fun steps => (host.evaluate frontEnd options bindings steps fragment).1) found ∧
      Settles (fun steps => (host.evaluate frontEnd options others steps fragment).1) found := by
  have rewrapped := CompilationUnit.wrap_withFields frontEnd options modest.real otherModest.real
    host.nextNumber fragment
  simp only [evaluate_answer]
  cases wrapped : CompilationUnit.wrap frontEnd options bindings host.nextNumber fragment with
  | error error =>
      rw [wrapped] at rewrapped
      simp only [rewrapped, Except.map]
      exact ⟨_, settles_at_once _, settles_at_once _⟩
  | ok unit =>
      rw [wrapped] at rewrapped
      simp only [rewrapped, Except.map]
      obtain ⟨entryName, reserved, fields, body, _⟩ := CompilationUnit.wrap_ok wrapped
      rw [← fields, ← body] at modest agree
      rw [← body] at otherModest
      exact answer_settles (compiled_together modest otherModest reserved agree) entryName room agree
        host.registry

theorem addressable_of_modest (modest : Modest (fieldsOf bindings) fragment.statements)
    (number : UInt64) : Addressable options bindings number fragment := by
  apply addressable_of_compact
  intro unit definition wrapped generates
  obtain ⟨_, _, fields, body, _⟩ := CompilationUnit.wrap_ok wrapped
  rw [← fields, ← body] at modest
  exact modest.compact generates

end Hosts

/-- A fragment comes to the same, up to the name of the generated type, whatever the host binds besides the
names in the fragment, and in whichever order and however often it gives names their values. Of a name in
the fragment only the value counts that it was given last. -/
theorem unmentioned_names_do_not_matter [ObjectFormat] [LawfulObjectFormat] {host other : Host}
    {options : Options} {given otherGiven : List (String × Value)} {fragment : Fragment}
    (onPar : host.OnPar options other) (room : 1 ≤ options.stackLimit)
    (modest : Modest (fieldsOf (.ofInserts given)) fragment.statements)
    (otherModest : Modest (fieldsOf (.ofInserts otherGiven)) fragment.statements)
    (agree : ∀ name ∈ Node.namesAll fragment,
      given.reverse.lookup name = otherGiven.reverse.lookup name) :
    ∃ found otherFound,
      Settles (fun steps =>
        (host.evaluate frontEnd options (.ofInserts given) steps fragment).1) found ∧
      Settles (fun steps =>
        (other.evaluate frontEnd options (.ofInserts otherGiven) steps fragment).1) otherFound ∧
      AnswersAlike (host.nextName options) (other.nextName options) (some found)
        (some otherFound) := by
  have fields : Environment.Agree (Node.namesAll fragment.statements)
      (.ofFields (fieldsOf (.ofInserts given))) (.ofFields (fieldsOf (.ofInserts otherGiven))) := by
    intro name mentioned
    rw [lookup_fieldsOf (Bindings.nodup_ofInserts given),
      lookup_fieldsOf (Bindings.nodup_ofInserts otherGiven), Bindings.get?_ofInserts,
      Bindings.get?_ofInserts]
    exact agree name (namesAll_statements fragment mentioned)
  obtain ⟨found, settled, middle⟩ := evaluate_settles room modest otherModest fields host
  obtain ⟨otherFound, _, otherSettled⟩ := evaluate_settles room modest otherModest fields other
  refine ⟨found, otherFound, settled, otherSettled, ?_⟩
  -- The other bindings on both hosts.
  obtain ⟨steps, own, last⟩ := middle.together otherSettled
  have alike := evaluate_alike onPar (addressable_of_modest otherModest _)
    (addressable_of_modest otherModest _) steps
  rwa [own, last] at alike

theorem sum_depends_on_its_name :
    let other : Host := { registry := { types := [sumType] }, nextNumber := 2 }
    let given : List (String × Value) := [("x", .integer 41)]
    let otherGiven : List (String × Value) :=
      [("y", .string "spare"), ("x", .integer 0), ("x", .integer 41)]
    Host.initial.OnPar {} other ∧
      Modest (fieldsOf (.ofInserts given)) sumFragment ∧
      Modest (fieldsOf (.ofInserts otherGiven)) sumFragment ∧
      (∀ name ∈ Node.namesAll sumFragment,
        given.reverse.lookup name = otherGiven.reverse.lookup name) ∧
      ∃ found otherFound,
        Settles (fun steps =>
          (Host.initial.evaluate frontEnd {} (.ofInserts given) steps sumFragment).1) found ∧
        Settles (fun steps =>
          (other.evaluate frontEnd {} (.ofInserts otherGiven) steps sumFragment).1) otherFound ∧
        AnswersAlike (Host.initial.nextName {}) (other.nextName {}) (some found)
          (some otherFound) := by
  intro other given otherGiven
  have onPar : Host.initial.OnPar {} other := by
    have first : Host.initial.nextName {} = "Fragment$1" := by with_unfolding_all rfl
    have second : other.nextName {} = "Fragment$2" := by with_unfolding_all rfl
    refine ⟨?_, ?_⟩
    · rw [first, second]
      decide
    · rw [first, second]
      decide
  have made : Code.ofBody (Constants.ofBody (fieldsOf (.ofInserts given)) sumBody) sumBody =
      .ok [.loadField 0, .pushInteger 1, .arithmetic .add, .return] := by
    rfl
  have modest : Modest (fieldsOf (.ofInserts given)) sumFragment :=
    modest_of_resolved (by decide) (by decide) sum_resolves made (by decide) (by decide)
  let body : Body :=
    { sumBody with statements := [.expression (.arithmetic .add [.field 1, .number 1])] }
  have otherMade : Code.ofBody (Constants.ofBody (fieldsOf (.ofInserts otherGiven)) body) body =
      .ok [.loadField 1, .pushInteger 1, .arithmetic .add, .return] := by
    rfl
  have otherModest : Modest (fieldsOf (.ofInserts otherGiven)) sumFragment :=
    modest_of_resolved (by decide) (by decide) (by rfl) otherMade (by decide) (by decide +kernel)
  have agree : ∀ name ∈ Node.namesAll sumFragment,
      given.reverse.lookup name = otherGiven.reverse.lookup name := by
    decide
  exact ⟨onPar, modest, otherModest, agree,
    unmentioned_names_do_not_matter onPar (by decide) modest otherModest agree⟩

end Lisp
end FragmentLisp
