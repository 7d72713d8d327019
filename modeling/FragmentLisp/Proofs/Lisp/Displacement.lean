import FragmentLisp.Proofs.Lisp.Places
import FragmentLisp.Proofs.Reader.Shift

/-!
Blanks and comments before a source. What is wrong with a fragment is placed from the fragment's first
form on, so nothing changes in how a source is evaluated that can be read. What keeps a source from being
read is placed from the beginning of the source on, and moves with it.
-/

namespace FragmentLisp
namespace Lisp

section
variable {distance : Nat}

theorem bare_shift (nodes : List Node) :
    nodes.map Node.bare = (nodes.map (Node.shift distance)).map Node.bare := by
  rw [List.map_map]
  exact List.map_congr_left fun node _ => (Node.bare_respan node).symm

theorem origin_shift {fragment : Fragment} (nonempty : fragment ≠ []) :
    Fragment.origin (fragment.map (Node.shift distance)) = Fragment.origin fragment + distance := by
  obtain ⟨first, rest, rfl⟩ := List.exists_cons_of_ne_nil nonempty
  simp [Fragment.origin, Node.shift]

/-- Places in a fragment are counted from its first form, wherever this form stands. -/
theorem compile_shift [ObjectFormat] {unit : CompilationUnit Fragment} (nonempty : unit.body ≠ [])
    (origin : unit.origin = Fragment.origin unit.body) :
    (around (unit.body.map (Node.shift distance)) unit).compile frontEnd = unit.compile frontEnd := by
  let other := around (unit.body.map (Node.shift distance)) unit
  have translated : translate other =
      respanOutcome (fun span => ⟨span.start + distance, span.length⟩) (translate unit) :=
    translate_respan ⟨rfl, rfl, rfl⟩ rfl
  have moved : other.origin = unit.origin + distance := by
    rw [origin]
    exact origin_shift nonempty
  show other.compile frontEnd = unit.compile frontEnd
  rw [compile_eq, compile_eq, translated]
  cases translate unit with
  | ok artifact => rfl
  | error error =>
      cases error with
      | internal error => rfl
      | crashed text? => rfl
      | diagnostic found =>
          have place : other.position ⟨found.span.start + distance, found.span.length⟩ =
              unit.position found.span := by
            rw [CompilationUnit.position, CompilationUnit.position, moved, Nat.add_sub_add_right]
          exact congrArg
            (fun position => Except.error (CompilationError.semantic found.cause.message position))
            place

theorem evaluate_shift [ObjectFormat] (host : Host) (options : Options) (bindings : Bindings) (steps : Nat)
    (fragment : Fragment) :
    host.evaluate frontEnd options bindings steps (fragment.map (Node.shift distance)) =
      host.evaluate frontEnd options bindings steps fragment := by
  by_cases nonempty : fragment = []
  · rw [nonempty, List.map_nil]
  · unfold Host.evaluate
    rw [wrap_of_bare (bare_shift fragment)]
    cases wrapped : CompilationUnit.wrap frontEnd options bindings host.nextNumber fragment with
    | error error => rfl
    | ok unit =>
        obtain ⟨body, origin⟩ : unit.body = fragment ∧ unit.origin = Fragment.origin fragment := by
          rw [CompilationUnit.unit_of_wrap wrapped]
          exact ⟨rfl, rfl⟩
        subst body
        have compiled := @compile_shift distance _ unit nonempty origin
        simp only [Except.map, compiled]

end

section
variable [ObjectFormat] {trivia source : String} {options : Options}

theorem evaluateSource_of_read {nodes : List Node} (blank : Reader.Trivia trivia.toList)
    (accepted : Reader.read source options.nestingLimit = .ok nodes) (host : Host)
    (bindings : Bindings) (steps : Nat) :
    host.evaluateSource options bindings steps (trivia ++ source) =
      host.evaluateSource options bindings steps source := by
  unfold Host.evaluateSource
  rw [Reader.read_behind_trivia blank, accepted]
  exact evaluate_shift host options bindings steps nodes

theorem evaluateSource_of_refused {refusal : ReadError} (blank : Reader.Trivia trivia.toList)
    (refused : Reader.read source options.nestingLimit = .error refusal) (host : Host)
    (bindings : Bindings) (steps : Nat) :
    host.evaluateSource options bindings steps (trivia ++ source) =
      (some (.error (.ofReading (refusal.shift trivia.utf8ByteSize))), host) := by
  unfold Host.evaluateSource
  rw [Reader.read_behind_trivia blank, refused]
  rfl

end

/-- Blanks and comments before a source change nothing in how it fails, except that they move the place of
an error of the reader. -/
theorem trivia_moves_only_reading_errors [ObjectFormat] {trivia : String}
    (blank : Reader.Trivia trivia.toList) (host : Host) (options : Options) (bindings : Bindings)
    (steps : Nat) (source : String) :
    (∀ nodes, Reader.read source options.nestingLimit = .ok nodes →
      host.evaluateSource options bindings steps (trivia ++ source) =
        host.evaluateSource options bindings steps source) ∧
    (∀ refusal, Reader.read source options.nestingLimit = .error refusal →
      host.evaluateSource options bindings steps source = (some (.error (.ofReading refusal)), host) ∧
      host.evaluateSource options bindings steps (trivia ++ source) =
        (some (.error (.ofReading (refusal.shift trivia.utf8ByteSize))), host)) ∧
    ∀ error, (host.evaluateSource options bindings steps source).1 = some (.error error) →
      ∃ other,
        (host.evaluateSource options bindings steps (trivia ++ source)).1 = some (.error other) ∧
        other.kind = error.kind ∧ other.message = error.message ∧
        (other.position? = error.position? ↔
          trivia = "" ∨ ∃ nodes, Reader.read source options.nestingLimit = .ok nodes) := by
  have accepted := fun nodes (read : Reader.read source options.nestingLimit = .ok nodes) =>
    evaluateSource_of_read blank read host bindings steps
  have refused := fun refusal (read : Reader.read source options.nestingLimit = .error refusal) =>
    evaluateSource_of_refused blank read host bindings steps
  have plain (refusal : ReadError) (read : Reader.read source options.nestingLimit = .error refusal) :
      host.evaluateSource options bindings steps source =
        (some (.error (.ofReading refusal)), host) := by
    rw [Host.evaluateSource, read]
  refine ⟨accepted, fun refusal read => ⟨plain refusal read, refused refusal read⟩, ?_⟩
  intro error failed
  cases read : Reader.read source options.nestingLimit with
  | ok nodes =>
      refine ⟨error, ?_, rfl, rfl, iff_of_true rfl (.inr ⟨nodes, rfl⟩)⟩
      rw [accepted nodes read, failed]
  | error refusal =>
      rw [plain refusal read] at failed
      obtain rfl := Except.error.inj (Option.some.inj failed)
      refine ⟨_, congrArg Prod.fst (refused refusal read), rfl, rfl, ?_⟩
      simp [EvalError.ofReading, ReadError.shift]

theorem comment_moves_no_diagnostic :
    Reader.Trivia "; y\n".toList ∧
      ∃ error, (Host.initial.evaluateSource {} .empty 0 "y").1 = some (.error error) ∧
        error.position? = some ⟨0, 1⟩ ∧
        (Host.initial.evaluateSource {} .empty 0 ("; y\n" ++ "y")).1 = some (.error error) := by
  have blank : Reader.Trivia "; y\n".toList :=
    @Reader.Trivia.comment [' ', 'y'] [] (by decide) .nothing
  have read : Reader.read "y" 128 = .ok [.symbol "y" ⟨0, 1⟩] := by rfl
  have failed : (Host.initial.evaluateSource {} .empty 0 "y").1 =
      some (.error (.ofCompilation (.semantic "Undefined variable: y" ⟨0, 1⟩))) := by
    with_unfolding_all rfl
  have same := (trivia_moves_only_reading_errors blank Host.initial {} .empty 0 "y").1 _ read
  refine ⟨blank, _, failed, rfl, ?_⟩
  rw [same]
  exact failed

theorem unclosed_form_is_displaced :
    Reader.Trivia "  ".toList ∧
      (Host.initial.evaluateSource {} .empty 0 "(+ 1 2").1 =
        some (.error (.ofReading ⟨.unclosed, 0⟩)) ∧
      (Host.initial.evaluateSource {} .empty 0 ("  " ++ "(+ 1 2")).1 =
        some (.error (.ofReading ⟨.unclosed, 2⟩)) ∧
      (EvalError.ofReading ⟨.unclosed, 0⟩).position? = some ⟨0, 0⟩ ∧
      (EvalError.ofReading ⟨.unclosed, 2⟩).position? = some ⟨2, 0⟩ := by
  have blank : Reader.Trivia "  ".toList := .blank (by decide) (.blank (by decide) .nothing)
  exact ⟨blank, rfl, rfl, rfl, rfl⟩

end Lisp
end FragmentLisp
