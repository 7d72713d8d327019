import FragmentLisp.Instance
import FragmentLisp.Lisp.Fragment
import FragmentLisp.Proofs.Lisp.Generation
import FragmentLisp.Proofs.Machine.Forward

/-!
Generated code comes to its end. Its jumps go forward to instructions of the method, so a run takes at most
one step for each instruction. This does not ask where the body comes from: it holds of every body for which
code is made.
-/

namespace FragmentLisp
namespace Lisp
namespace Code

open Instruction (placed)
open Machine (Closing Confined)

theorem Fills.closing {constants : Constants} {index : Nat} {fields : List Field}
    {code : List Instruction} (fills : Fills constants index fields code) : Closing code := by
  induction fills with
  | nil index => exact ⟨fun _ member => List.mem_singleton.mp member ▸ rfl, .returnVoid, rfl, rfl⟩
  | @cons index field rest push code head tail inductionHypothesis =>
      obtain ⟨straight, last, ends, closed⟩ := inductionHypothesis
      refine ⟨?_, last, ?_, closed⟩
      · intro instruction member
        rcases List.mem_cons.mp member with rfl | behind
        · exact (pushField_ok head).1
        · rcases List.mem_cons.mp behind with rfl | later
          · rfl
          · exact straight instruction later
      · rw [List.getLast?_cons_cons, List.getLast?_cons, ends]
        rfl

theorem closing_ending (body : Body) : Closing (ending body) := by
  unfold ending
  split
  · exact ⟨fun _ member => List.mem_singleton.mp member ▸ rfl, .returnVoid, rfl, rfl⟩
  · refine ⟨fun instruction member => ?_, .return, rfl, rfl⟩
    rcases List.mem_cons.mp member with rfl | last
    · rfl
    · exact List.mem_singleton.mp last ▸ rfl
  · exact ⟨fun _ member => List.mem_singleton.mp member ▸ rfl, .return, rfl, rfl⟩

/-- Both methods of a generated type are confined code. -/
theorem Generated.confined {Fragment : Type} {unit : CompilationUnit Fragment} {body : Body}
    {definition : TypeDefinition} {constructor entry : Method} {filling running : List Instruction}
    (generated : Generated unit body definition constructor entry filling running)
    (small : ∀ method ∈ definition.methods, method.code.size < 2 ^ 32) :
    ∀ method ∈ definition.methods, ∃ code,
      method.code = (Instruction.encodeAll code).toArray ∧ Confined code := by
  intro method member
  rw [generated.methods] at member
  rcases List.mem_cons.mp member with rfl | last
  · have nothing := Instruction.Directed.nil (fun _ => True) (fun _ => False) 0
    exact ⟨filling, generated.constructor.code,
      Machine.confined_of_directed nothing generated.fills.closing⟩
  · obtain rfl := List.mem_singleton.mp last
    have forward := @Generated.running_forward _ _ _ _ _ _ _ _ generated small (fun _ => True)
      (fun _ _ => trivial) (fun _ _ _ => trivial) [] (fun _ _ _ _ _ _ => trivial)
    exact ⟨running ++ ending body, generated.entry.code,
      Machine.confined_of_directed forward (closing_ending body)⟩

end Code

/-- Generated code always terminates. Whatever body a type is generated for, resolved from a valid fragment
or not, every jump in its two methods goes to a later instruction of the same method. So a run of a method
stops after at most as many steps as the method has instructions, whatever the constants, the locals, the
fields and the limit of the operand stack are. -/
theorem generated_code_terminates {Fragment : Type} {unit : CompilationUnit Fragment} {body : Body}
    {definition : TypeDefinition} (typed : Code.typeDefinition unit body = .ok definition)
    (small : ∀ method ∈ definition.methods, method.code.size < 2 ^ 32) :
    ∃ constructor entry, definition.methods = [constructor, entry] ∧
      ∀ method ∈ definition.methods, ∃ listed,
        Instruction.listing method.code = (listed, none) ∧
        (∀ offset instruction target, (offset, instruction) ∈ listed →
          instruction.jumpTarget? = some target →
            offset < target ∧ target < method.code.size ∧
              ∃ other, (target, other) ∈ listed) ∧
        ∀ program : Machine.Program, program.code = method.code →
          ∀ state : Machine.State, state.offset = 0 → ∀ steps, listed.length ≤ steps →
            ∀ last, Machine.run program steps state ≠ .unfinished last := by
  obtain ⟨constructor, entry, filling, running, generated⟩ := Code.generated_of_ok typed
  refine ⟨constructor, entry, generated.methods, ?_⟩
  intro method member
  obtain ⟨code, encoded, confined⟩ := generated.confined small method member
  refine ⟨Instruction.placed 0 code, ?_, ?_, ?_⟩
  · rw [encoded, Instruction.listing_encodeAll]
  · intro offset instruction target placed jump
    have successor : target ∈ instruction.successors offset := by
      rw [Instruction.successors, jump]
      simp
    obtain ⟨forward, other, found⟩ := confined.onward _ placed target successor
    have within := (Instruction.placed_within found).2
    have positive := other.size_positive
    refine ⟨forward, ?_, other, found⟩
    rw [encoded, Instruction.size_encodeAll]
    simp only at within
    omega
  · intro program runs state start steps enough last
    have held : Instruction.Holds program.code 0 code := by
      rw [runs, encoded]
      exact Instruction.holds_encodeAll code
    rw [Instruction.placed_length] at enough
    exact Machine.run_stops held confined start enough last

/-! The choice between two numbers, which jumps twice. -/

def choiceFragment : Fragment :=
  [.list [.symbol "if" ⟨1, 2⟩, .symbol "true" ⟨4, 4⟩, .number 1 ⟨9, 1⟩, .number 2 ⟨11, 1⟩] ⟨0, 13⟩]

def choiceUnit : CompilationUnit Fragment :=
  { typeName := "Fragment$1"
    entryMethod := "run"
    fields := []
    body := choiceFragment
    shape := .expression
    origin := 0 }

def choiceBody : Body :=
  { statements := [.expression (.conditional (.boolean true) (.number 1) (.number 2))]
    locals := 0
    result? := some .number }

def choiceCode : List Instruction :=
  [.pushBoolean true, .jumpIfFalse 21, .pushInteger 1, .jump 30, .pushInteger 2, .return]

def choiceType : TypeDefinition :=
  { name := "Fragment$1"
    fieldCount := 0
    constants := []
    methods :=
      [{ signature :=
           { name := TypeDefinition.constructorName, arity := 0, locals := 0, maxStack := 0
             returnsValue := false }
         code := (Instruction.encodeAll [.returnVoid]).toArray },
       { signature := { name := "run", arity := 0, locals := 0, maxStack := 1, returnsValue := true }
         code := (Instruction.encodeAll choiceCode).toArray }] }

theorem choice_terminates :
    Resolution.resolveFragment choiceUnit.fields choiceFragment = .ok choiceBody ∧
      Code.typeDefinition choiceUnit choiceBody = .ok choiceType ∧
      ∃ entry ∈ choiceType.methods, entry.code = (Instruction.encodeAll choiceCode).toArray ∧
        ∀ limit last, Machine.run (Instance.program choiceType entry limit) 6
          (.initial 0 #[] "") ≠ .unfinished last := by
  have typed : Code.typeDefinition choiceUnit choiceBody = .ok choiceType := by
    decide +kernel
  have small : ∀ method ∈ choiceType.methods, method.code.size < 2 ^ 32 := by decide
  obtain ⟨_, _, _, terminates⟩ := generated_code_terminates typed small
  have member : choiceType.methods[1] ∈ choiceType.methods := List.getElem_mem _
  obtain ⟨listed, listing, _, stops⟩ := terminates _ member
  have six : listed.length = 6 := by
    have encoded : choiceType.methods[1].code = (Instruction.encodeAll choiceCode).toArray := rfl
    rw [encoded, Instruction.listing_encodeAll] at listing
    rw [← (Prod.mk.inj listing).1]
    rfl
  refine ⟨rfl, typed, _, member, rfl, fun limit last => ?_⟩
  exact stops (Instance.program choiceType _ limit) rfl _ rfl 6 (Nat.le_of_eq six) last

end Lisp
end FragmentLisp
