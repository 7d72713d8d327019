import FragmentLisp.Lisp.Source
import FragmentLisp.Proofs.Lisp.Outcome
import FragmentLisp.Proofs.Lisp.Respan
import FragmentLisp.Proofs.Reader.Spans

/-!
Where things stand in a fragment has no bearing on what the fragment does. Fragments that differ in
their spans only are wrapped, compiled and evaluated alike, and what is wrong with them is reported for
the same node of both.
-/

namespace FragmentLisp
namespace Lisp

open Node (respan respan_list leftSpan rightSpan)

variable {place : Span → Span}

namespace Fragment

theorem statements_single {node : Node} (plain : node.operatorName? ≠ some "do") :
    statements [node] = [node] := by
  unfold statements
  split
  · rename_i shape
    obtain rfl := List.singleton_inj.mp shape
    exact absurd rfl plain
  · rfl

theorem statements_respan (fragment : Fragment) :
    statements (fragment.map (respan place)) = (statements fragment).map (respan place) := by
  match fragment with
  | [] => rfl
  | [node] =>
      by_cases block : node.operatorName? = some "do"
      · obtain ⟨nameSpan, arguments, span, rfl⟩ := Node.form_of_operatorName? block
        rw [List.map_singleton, respan_list, List.map_cons, respan]
        rfl
      · have other : (node.respan place).operatorName? ≠ some "do" := by
          rwa [Node.operatorName?_respan]
        rw [List.map_singleton, statements_single block, statements_single other]
        rfl
  | _ :: _ :: _ => simp [statements]

@[simp] theorem isDeclaration_respan (node : Node) :
    isDeclaration (node.respan place) = isDeclaration node := by
  rw [isDeclaration, isDeclaration, Node.operatorName?_respan]

theorem shape_respan (fragment : Fragment) : shape (fragment.map (respan place)) = shape fragment := by
  unfold shape
  rw [statements_respan]
  match fragment with
  | [] => rfl
  | [node] => simp [List.any_map, Function.comp_def]
  | _ :: _ :: _ => simp [List.any_map, Function.comp_def]

theorem depth_respan (fragment : Fragment) : depth (fragment.map (respan place)) = depth fragment := by
  unfold depth
  rw [List.foldl_map]
  simp [Node.depth_eq_nesting]

/-! Paths. -/

/-- The node at the end of a path, which tells first which form of the fragment it is in. -/
def at? (path : List Nat) (fragment : Fragment) : Option Node :=
  match path with
  | [] => none
  | index :: path => fragment[index]?.bind (Node.at? path)

theorem at?_respan (path : List Nat) (fragment : Fragment) :
    at? path (fragment.map (respan place)) = (at? path fragment).map (respan place) := by
  cases path with
  | nil => rfl
  | cons index path =>
      rw [at?, at?, List.getElem?_map]
      cases fragment[index]? with
      | none => rfl
      | some root => exact Node.at?_respan path root

theorem exists_path {fragment : Fragment} {root node : Node} (member : root ∈ fragment)
    (within : root.Contains node) : ∃ path, at? path fragment = some node := by
  obtain ⟨index, found⟩ := List.mem_iff_getElem?.mp member
  obtain ⟨path, reached⟩ := Node.exists_path_of_contains within
  exact ⟨index :: path, by rw [at?, found]; exact reached⟩

theorem contains_of_at? {path : List Nat} {fragment : Fragment} {node : Node}
    (found : at? path fragment = some node) : ∃ root ∈ fragment, root.Contains node := by
  cases path with
  | nil => cases found
  | cons index path =>
      obtain ⟨root, first, later⟩ := Option.bind_eq_some_iff.mp found
      exact ⟨root, List.mem_of_getElem? first, Node.contains_of_at? later⟩

end Fragment

/-! Units whose spans are replaced. -/

/-- The same type is asked for, though maybe for another fragment. -/
structure SameRequest (unit other : CompilationUnit Fragment) : Prop where
  typeName : other.typeName = unit.typeName
  entryMethod : other.entryMethod = unit.entryMethod
  fields : other.fields = unit.fields

section Units

variable [ObjectFormat] {unit other : CompilationUnit Fragment}

theorem generate_of_request (request : SameRequest unit other) (body : Body) :
    Code.generate other body = Code.generate unit body := by
  unfold Code.generate Code.typeDefinition
  rw [request.typeName, request.entryMethod, request.fields]

theorem translate_respan (request : SameRequest unit other)
    (body : other.body = unit.body.map (respan place)) :
    translate other = respanOutcome place (translate unit) := by
  unfold translate
  rw [body, Fragment.statements_respan, Grammar.check_respan, Resolution.resolveFragment_respan,
    request.fields]
  simp only [respanOutcome_bind, generate_of_request request]
  refine congrArg _ (funext fun _ => congrArg _ (funext fun resolved => ?_))
  cases Code.generate unit resolved with
  | ok artifact => rfl
  | error failure => cases failure <;> rfl

theorem Stops.respan {phase : Phase} {error : CompileError} (stops : Stops unit phase error)
    (request : SameRequest unit other) (body : other.body = unit.body.map (respan place)) :
    Stops other phase (error.respan place) := by
  have statements : other.body.statements = unit.body.statements.map (Node.respan place) := by
    rw [body, Fragment.statements_respan]
  cases stops with
  | validation refused =>
      refine .validation ?_
      rw [statements, Grammar.check_respan, refused]
      rfl
  | resolution checked refused =>
      refine .resolution ?_ ?_
      · rw [statements, Grammar.check_respan, checked]
        rfl
      · rw [statements, request.fields, Resolution.resolveFragment_respan, refused]
        rfl
  | @generation resolvedBody failure checked resolved refused =>
      have kept : (CompileError.ofFailure failure).respan place = .ofFailure failure := by
        cases failure <;> rfl
      rw [kept]
      refine @Stops.generation _ _ resolvedBody _ ?_ ?_ ?_
      · rw [statements, Grammar.check_respan, checked]
        rfl
      · rw [statements, request.fields, Resolution.resolveFragment_respan, resolved]
        rfl
      · rw [generate_of_request request, refused]

/-- A diagnostic is about a node of the fragment: were its span no node's, to replace this one span would
change the diagnostic, but nothing of the fragment. -/
theorem exists_node_of_diagnostic {found : Diagnostic}
    (failed : translate unit = .error (.diagnostic found)) :
    ∃ path node, Fragment.at? path unit.body = some node ∧ node.span = found.span := by
  by_contra nowhere
  let moved : Span → Span := fun span =>
    if span = found.span then ⟨span.start + 1, span.length⟩ else span
  have stays : unit.body.map (Node.respan moved) = unit.body := by
    refine (List.map_congr_left fun root member => ?_).trans (List.map_id' _)
    refine Node.respan_eq_self fun inner within => if_neg fun same => nowhere ?_
    obtain ⟨path, reached⟩ := Fragment.exists_path member within
    exact ⟨path, inner, reached, same⟩
  have again := translate_respan ⟨rfl, rfl, rfl⟩ stays.symm
  rw [failed] at again
  have fixed : found.span = moved found.span := by
    simpa [CompileError.respan] using congrArg Diagnostic.span
      (CompileError.diagnostic.inj (Except.error.inj again))
  have later := congrArg Span.start fixed
  simp [moved] at later

/-! Units around fragments that say the same. -/

/-- A phase complains of the node at the end of a path, and the compilation reports it at the place of this
node. -/
structure PointsAt (unit : CompilationUnit Fragment) (phase : Phase) (path : List Nat) (message : String)
    (node : Node) : Prop where
  found : Fragment.at? path unit.body = some node
  reported : FailsIn unit phase (.reported (.diagnostic message node.span))
  compiled : unit.compile frontEnd = .error (.semantic message (unit.position node.span))

/-- Two units compile to one artifact, or fail for one reason, at one place. -/
inductive CompiledAlike (unit other : CompilationUnit Fragment) : Prop
  | artifact {artifact : Artifact} (first : unit.compile frontEnd = .ok artifact)
      (second : other.compile frontEnd = .ok artifact)
  | internal {message : String} (first : unit.compile frontEnd = .error (.internal message))
      (second : other.compile frontEnd = .error (.internal message))
  | crashed {text? : Option String}
      (first : unit.compile frontEnd = .error (.crashed "compilation" text?))
      (second : other.compile frontEnd = .error (.crashed "compilation" text?))
  | semantic {phase : Phase} {path : List Nat} {message : String} {node otherNode : Node}
      (first : PointsAt unit phase path message node)
      (second : PointsAt other phase path message otherNode)

theorem pointsAt_respan {found : Diagnostic} {phase : Phase} {path : List Nat} {node : Node}
    (failed : translate unit = .error (.diagnostic found)) (stops : Stops unit phase (.diagnostic found))
    (reached : Fragment.at? path unit.body = some node) (span : node.span = found.span)
    (request : SameRequest unit other) (body : other.body = unit.body.map (respan place)) :
    PointsAt other phase path found.cause.message (node.respan place) := by
  refine ⟨?_, ?_, ?_⟩
  · rw [body, Fragment.at?_respan, reached]
    rfl
  · rw [Node.span_respan, span]
    exact (stops.respan request body).failsIn
  · rw [compile_eq, translate_respan request body, failed, Node.span_respan, span]
    rfl

theorem compiled_alike (request : SameRequest unit other)
    (same : unit.body.map Node.bare = other.body.map Node.bare) : CompiledAlike unit other := by
  -- Both bodies are one body with its spans replaced, so both outcomes are that of this one body.
  obtain ⟨nodes, toUnit, toOther⟩ := Node.exists_common same
  let common := { unit with body := nodes }
  have left : SameRequest common unit := ⟨rfl, rfl, rfl⟩
  have right : SameRequest common other := ⟨request.typeName, request.entryMethod, request.fields⟩
  have first := translate_respan left toUnit.symm
  have second := translate_respan right toOther.symm
  cases translated : translate common with
  | ok artifact =>
      rw [translated] at first second
      refine @CompiledAlike.artifact _ _ _ artifact ?_ ?_
      · rw [compile_eq, first]
        rfl
      · rw [compile_eq, second]
        rfl
  | error error =>
      rw [translated] at first second
      cases error with
      | internal error =>
          refine @CompiledAlike.internal _ _ _ error.message ?_ ?_
          · rw [compile_eq, first]
            rfl
          · rw [compile_eq, second]
            rfl
      | crashed text? =>
          refine @CompiledAlike.crashed _ _ _ text? ?_ ?_
          · rw [compile_eq, first]
            rfl
          · rw [compile_eq, second]
            rfl
      | diagnostic found =>
          obtain ⟨phase, stops⟩ := stops_of_translate translated
          obtain ⟨path, node, reached, span⟩ := exists_node_of_diagnostic translated
          exact .semantic (pointsAt_respan translated stops reached span left toUnit.symm)
            (pointsAt_respan translated stops reached span right toOther.symm)

end Units

/-! Fragments that say the same. -/

def around (fragment : Fragment) (unit : CompilationUnit Fragment) : CompilationUnit Fragment :=
  { unit with body := fragment, origin := Fragment.origin fragment }

/-- Answers that tell the same. Only the place that a semantic error names depends on spans, and it is the
place of the node that a phase complains of. -/
inductive AnsweredAlike [ObjectFormat] (options : Options) (bindings : Bindings) (number : UInt64)
    (left right : Fragment) :
    Option (Except EvalError Evaluation) → Option (Except EvalError Evaluation) → Prop
  | same {answer : Option (Except EvalError Evaluation)}
      (plain : ∀ error, answer = some (.error error) → error.kind ≠ .semanticError) :
      AnsweredAlike options bindings number left right answer answer
  | semantic {unit other : CompilationUnit Fragment} {phase : Phase} {path : List Nat}
      {message : String} {node otherNode : Node}
      (wrapped : CompilationUnit.wrap frontEnd options bindings number left = .ok unit)
      (otherWrapped : CompilationUnit.wrap frontEnd options bindings number right = .ok other)
      (first : PointsAt unit phase path message node)
      (second : PointsAt other phase path message otherNode) :
      AnsweredAlike options bindings number left right
        (some (.error (.ofCompilation (.semantic message (unit.position node.span)))))
        (some (.error (.ofCompilation (.semantic message (other.position otherNode.span)))))

theorem execute_kind {options : Options} {steps : Nat} {definition : TypeDefinition} {error : EvalError}
    (failed : Host.execute options steps definition = some (.error error)) :
    error.kind ≠ .semanticError := by
  unfold Host.execute at failed
  split at failed
  · cases failed
  · obtain rfl := Except.error.inj (Option.some.inj failed)
    exact nofun
  · rename_i object _
    cases invoked : object.invoke steps with
    | none => simp [invoked] at failed
    | some result =>
        cases result with
        | ok evaluation => simp [invoked, Except.mapError] at failed
        | error fault =>
            rw [invoked] at failed
            obtain rfl := Except.error.inj (Option.some.inj failed)
            exact nofun

section Pairs

variable {left right : Fragment}

theorem overview_of_bare (same : left.map Node.bare = right.map Node.bare) :
    Fragment.shape left = Fragment.shape right ∧ Fragment.depth left = Fragment.depth right := by
  obtain ⟨nodes, rfl, rfl⟩ := Node.exists_common same
  constructor
  · rw [Fragment.shape_respan, Fragment.shape_respan]
  · rw [Fragment.depth_respan, Fragment.depth_respan]

variable [ObjectFormat]

theorem wrap_of_bare (same : left.map Node.bare = right.map Node.bare) (options : Options)
    (bindings : Bindings) (number : UInt64) :
    CompilationUnit.wrap frontEnd options bindings number right =
      (CompilationUnit.wrap frontEnd options bindings number left).map (around right) := by
  obtain ⟨shape, depth⟩ := overview_of_bare same
  unfold CompilationUnit.wrap
  simp only [frontEnd, Fragment.overview, ← shape, ← depth]
  cases CompilationUnit.checkShape options (Fragment.shape left) with
  | error error => rfl
  | ok _ =>
      cases CompilationUnit.checkOptions options (Fragment.depth left) with
      | error error => rfl
      | ok _ => cases CompilationUnit.checkBindings bindings <;> rfl

theorem evaluate_of_bare (same : left.map Node.bare = right.map Node.bare) (host : Host)
    (options : Options) (bindings : Bindings) (steps : Nat) :
    (host.evaluate frontEnd options bindings steps right).2 =
        (host.evaluate frontEnd options bindings steps left).2 ∧
      AnsweredAlike options bindings host.nextNumber left right
        (host.evaluate frontEnd options bindings steps left).1
        (host.evaluate frontEnd options bindings steps right).1 := by
  have otherWrapped := wrap_of_bare same options bindings host.nextNumber
  unfold Host.evaluate
  cases wrapped : CompilationUnit.wrap frontEnd options bindings host.nextNumber left with
  | error error =>
      rw [wrapped] at otherWrapped
      rw [otherWrapped]
      refine ⟨rfl, .same ?_⟩
      rintro _ ⟨⟩
      exact nofun
  | ok unit =>
      rw [wrapped] at otherWrapped
      rw [otherWrapped]
      have body : unit.body = left := by rw [CompilationUnit.unit_of_wrap wrapped]
      have alike : CompiledAlike unit (around right unit) :=
        compiled_alike ⟨rfl, rfl, rfl⟩ (by rwa [body])
      cases alike with
      | semantic first second =>
          simp only [Except.map, first.compiled, second.compiled]
          exact ⟨trivial, .semantic wrapped otherWrapped first second⟩
      | internal first second =>
          simp only [Except.map, first, second]
          refine ⟨trivial, .same ?_⟩
          rintro _ ⟨⟩
          exact nofun
      | crashed first second =>
          simp only [Except.map, first, second]
          refine ⟨trivial, .same ?_⟩
          rintro _ ⟨⟩
          exact nofun
      | artifact first second =>
          simp only [Except.map, first, second]
          split
          · refine ⟨trivial, .same ?_⟩
            rintro _ ⟨⟩
            exact nofun
          · exact ⟨trivial, .same fun error failed => execute_kind failed⟩

end Pairs

/-- A position is the place of a node, counted from the first node of a fragment, and stays in the
source. -/
structure LiesIn (source : String) (fragment : Fragment) (node : Node) (position : Position) : Prop where
  start : ∃ first rest, fragment = first :: rest ∧
    first.span.start + position.offset = node.span.start
  length : position.length = node.span.length
  inside : position.offset + position.length ≤ source.utf8ByteSize

/-- No node of a source stands before the first one, so nothing is cut off where its place is counted. -/
theorem liesIn_of_read [ObjectFormat] {source : String} {limit : Nat} {fragment : Fragment} {options : Options}
    {bindings : Bindings} {number : UInt64} {unit : CompilationUnit Fragment} {path : List Nat}
    {node : Node} (accepted : Reader.read source limit = .ok fragment)
    (wrapped : CompilationUnit.wrap frontEnd options bindings number fragment = .ok unit)
    (found : Fragment.at? path fragment = some node) :
    LiesIn source fragment node (unit.position node.span) := by
  obtain ⟨root, member, within⟩ := Fragment.contains_of_at? found
  cases fragment with
  | nil => cases member
  | cons first rest =>
      obtain ⟨start, stop⟩ := Reader.bounds_of_read accepted member within
      have origin : unit.origin = first.span.start := by
        rw [CompilationUnit.unit_of_wrap wrapped]
        rfl
      rw [Span.stop] at stop
      refine ⟨⟨first, rest, rfl, ?_⟩, rfl, ?_⟩
      · rw [CompilationUnit.position, origin]
        exact Nat.add_sub_cancel' start
      · rw [CompilationUnit.position]
        exact Nat.le_trans (Nat.add_le_add_right (Nat.sub_le _ _) _) stop

/-- Spans never influence what a fragment means, and a diagnostic points at the right node. -/
theorem spans_have_no_influence [ObjectFormat] {left right : Fragment}
    (same : left.map Node.bare = right.map Node.bare) :
    ((frontEnd.inspect left).shape = (frontEnd.inspect right).shape ∧
      (frontEnd.inspect left).depth = (frontEnd.inspect right).depth) ∧
    (∀ (options : Options) (bindings : Bindings) (number : UInt64),
      CompilationUnit.wrap frontEnd options bindings number right =
        (CompilationUnit.wrap frontEnd options bindings number left).map (around right)) ∧
    (∀ unit other : CompilationUnit Fragment, unit.body = left → other.body = right →
      SameRequest unit other → CompiledAlike unit other) ∧
    (∀ (host : Host) (options : Options) (bindings : Bindings) (steps : Nat),
      (host.evaluate frontEnd options bindings steps right).2 =
          (host.evaluate frontEnd options bindings steps left).2 ∧
        AnsweredAlike options bindings host.nextNumber left right
          (host.evaluate frontEnd options bindings steps left).1
          (host.evaluate frontEnd options bindings steps right).1) ∧
    ∀ (source : String) (limit : Nat), Reader.read source limit = .ok left →
      ∀ (options : Options) (bindings : Bindings) (number : UInt64)
        (unit : CompilationUnit Fragment) (path : List Nat) (node : Node),
        CompilationUnit.wrap frontEnd options bindings number left = .ok unit →
        Fragment.at? path left = some node → LiesIn source left node (unit.position node.span) := by
  refine ⟨overview_of_bare same, wrap_of_bare same, ?_, evaluate_of_bare same, ?_⟩
  · rintro unit other rfl rfl request
    exact compiled_alike request same
  · intro source limit accepted options bindings number unit path node wrapped found
    exact liesIn_of_read accepted wrapped found

def commentedSum : Fragment :=
  [.list [.symbol "+" ⟨5, 1⟩, .number 1 ⟨7, 1⟩, .symbol "y" ⟨9, 1⟩] ⟨4, 7⟩]

theorem commented_sum_has_no_influence :
    let bareSum := commentedSum.map Node.bare
    let unit := around commentedSum sumUnit
    commentedSum.map Node.bare = bareSum.map Node.bare ∧
      Reader.read "; y\n(+ 1 y)" 1 = .ok commentedSum ∧
      CompiledAlike unit (around bareSum sumUnit) ∧
      AnsweredAlike {} sumBindings 1 commentedSum bareSum
        (Host.initial.evaluate frontEnd {} sumBindings 0 commentedSum).1
        (Host.initial.evaluate frontEnd {} sumBindings 0 bareSum).1 ∧
      LiesIn "; y\n(+ 1 y)" commentedSum (.symbol "y" ⟨9, 1⟩) ⟨5, 1⟩ := by
  intro bareSum unit
  have same : commentedSum.map Node.bare = bareSum.map Node.bare := by rfl
  have accepted : Reader.read "; y\n(+ 1 y)" 1 = .ok commentedSum := by rfl
  have wrapped : CompilationUnit.wrap frontEnd {} sumBindings 1 commentedSum = .ok unit := by
    with_unfolding_all rfl
  obtain ⟨_, _, compiled, evaluated, places⟩ := spans_have_no_influence same
  refine ⟨same, accepted, compiled unit _ rfl rfl ⟨rfl, rfl, rfl⟩,
    (evaluated Host.initial {} sumBindings 0).2, ?_⟩
  exact places _ 1 accepted {} sumBindings 1 unit [0, 2] _ wrapped rfl

end Lisp
end FragmentLisp
