import FragmentLisp.Proofs.Lisp.Resolution
import Mathlib.Data.List.Induction
import Mathlib.Data.List.Infix

/-!
How slots are given out, whatever calls are made on a scope. The slots that the calls give back are written
down beside the scope, frame by frame. The scope turns out to be a function of what is written down and of
its peak, so that a slot is never given out while it is in use, and closing a frame brings back what was
there when it was opened.
-/

namespace FragmentLisp
namespace Lisp
namespace Scope

inductive Call where
  | push
  | pop
  | declare (name : String) (kind : Kind)
deriving DecidableEq

theorem Call.count_push : [Call.push].count .pop = 0 ∧ [Call.push].count .push = 1 :=
  ⟨rfl, rfl⟩

theorem Call.count_pop : [Call.pop].count .pop = 1 ∧ [Call.pop].count .push = 0 :=
  ⟨rfl, rfl⟩

theorem Call.count_open (inner : List Call) :
    (Call.push :: inner).count .pop = inner.count .pop ∧
      (Call.push :: inner).count .push = inner.count .push + 1 :=
  ⟨List.count_cons_of_ne (by decide), List.count_cons_self⟩

/-- No frame is closed that was not opened before. -/
def Nested (calls : List Call) : Prop :=
  ∀ earlier, earlier <+: calls → earlier.count .pop ≤ earlier.count .push

def Balanced (calls : List Call) : Prop :=
  Nested calls ∧ calls.count .pop = calls.count .push

instance : DecidablePred Nested := fun calls =>
  decidable_of_iff (∀ earlier ∈ calls.inits, earlier.count .pop ≤ earlier.count .push)
    (forall_congr' fun earlier => by rw [List.mem_inits])

instance : DecidablePred Balanced := fun calls =>
  inferInstanceAs (Decidable (Nested calls ∧ calls.count .pop = calls.count .push))

theorem Nested.earlier {calls earlier : List Call} (nested : Nested calls) (early : earlier <+: calls) :
    Nested earlier :=
  fun start begins => nested start (begins.trans early)

theorem Nested.concat {calls : List Call} (nested : Nested calls) {last : Call}
    (room : (calls ++ [last]).count .pop ≤ (calls ++ [last]).count .push) : Nested (calls ++ [last]) := by
  intro earlier early
  rcases List.prefix_concat_iff.mp early with rfl | before
  · exact room
  · exact nested earlier before

theorem exists_opening (calls : List Call) (outside : Nat)
    (inside : calls.count .pop + outside < calls.count .push) :
    ∃ earlier inner, calls = earlier ++ .push :: inner ∧ Nested inner ∧
      earlier.count .push = earlier.count .pop + outside := by
  induction calls using List.reverseRecOn with
  | nil => simp at inside
  | append_singleton calls last inductionHypothesis =>
      -- A frame that was open before the last call, and still is, was opened by the same call.
      have staysOpen (within : calls.count .pop + outside < calls.count .push) :
          ∃ earlier inner, calls ++ [last] = earlier ++ .push :: inner ∧ Nested inner ∧
            earlier.count .push = earlier.count .pop + outside := by
        obtain ⟨earlier, inner, rfl, nested, depth⟩ := inductionHypothesis within
        refine ⟨earlier, inner ++ [last], by simp, nested.concat ?_, depth⟩
        have opens := Call.count_open inner
        simp only [List.count_append] at inside ⊢
        omega
      rw [List.count_append, List.count_append] at inside
      cases last with
      | push =>
          have counts := Call.count_push
          by_cases within : calls.count .pop + outside < calls.count .push
          · exact staysOpen within
          · have nothing : Nested [] := by decide
            exact ⟨calls, [], rfl, nothing, by omega⟩
      | pop =>
          have counts := Call.count_pop
          exact staysOpen (by omega)
      | declare name kind => exact staysOpen inside

theorem exists_matching {calls : List Call} (nested : Nested (calls ++ [.pop])) :
    ∃ earlier inner, calls = earlier ++ .push :: inner ∧ Balanced inner := by
  have bounded := nested _ List.prefix_rfl
  rw [List.count_append, List.count_append] at bounded
  have counts := Call.count_pop
  obtain ⟨earlier, inner, rfl, nestedInner, depth⟩ :=
    exists_opening calls (calls.count .push - calls.count .pop - 1) (by omega)
  refine ⟨earlier, inner, rfl, nestedInner, ?_⟩
  have within := nestedInner _ List.prefix_rfl
  have opens := Call.count_open inner
  simp only [List.count_append] at bounded depth ⊢
  omega

structure Declaration where
  name : String
  kind : Kind
  slot : UInt16

def Declaration.entry (declaration : Declaration) : String × Variable :=
  (declaration.name, ⟨.localSlot declaration.slot, declaration.kind⟩)

structure Ledger where
  scope : Scope
  /-- What was declared in each open frame, the latest local and the innermost frame first. -/
  declared : List (List Declaration)

namespace Ledger

/-- The declarations whose frames are open, those included that a later one hides. -/
def live (ledger : Ledger) : List Declaration :=
  ledger.declared.flatten

/-- A local that gets no slot is not declared. -/
def call (ledger : Ledger) : Call → Ledger
  | .push => ⟨ledger.scope.push, [] :: ledger.declared⟩
  | .pop => ⟨ledger.scope.pop, ledger.declared.tail⟩
  | .declare name kind =>
      match ledger.scope.declare? name kind with
      | some (slot, scope) => ⟨scope, ledger.declared.modifyHead (⟨name, kind, slot⟩ :: ·)⟩
      | none => ledger

def run (ledger : Ledger) (calls : List Call) : Ledger :=
  calls.foldl call ledger

def after (scope : Scope) (calls : List Call) : Ledger :=
  run ⟨scope, [[]]⟩ calls

end Ledger

/-- A local has as many locals before it as the number of its slot. -/
def Consecutive (declarations : List Declaration) : Prop :=
  ∀ declaration before, declaration :: before <:+ declarations →
    declaration.slot.toNat = before.length

theorem Consecutive.suffix {declarations older : List Declaration} (consecutive : Consecutive declarations)
    (suffix : older <:+ declarations) : Consecutive older :=
  fun declaration before found => consecutive declaration before (found.trans suffix)

theorem Consecutive.cons {declarations : List Declaration} (consecutive : Consecutive declarations)
    {declaration : Declaration} (next : declaration.slot.toNat = declarations.length) :
    Consecutive (declaration :: declarations) := by
  intro other before found
  rcases List.suffix_cons_iff.mp found with same | older
  · obtain ⟨rfl, rfl⟩ := List.cons.inj same
    exact next
  · exact consecutive other before older

theorem Consecutive.slot_lt {declarations : List Declaration} (consecutive : Consecutive declarations)
    {declaration : Declaration} (member : declaration ∈ declarations) :
    declaration.slot.toNat < declarations.length := by
  obtain ⟨later, before, rfl⟩ := List.append_of_mem member
  rw [consecutive declaration before (List.suffix_append _ _), List.length_append, List.length_cons]
  omega

theorem Consecutive.nodup {declarations : List Declaration} (consecutive : Consecutive declarations) :
    (declarations.map Declaration.slot).Nodup := by
  induction declarations with
  | nil => exact List.nodup_nil
  | cons declaration before inductionHypothesis =>
      have older := consecutive.suffix (List.suffix_cons _ _)
      refine List.nodup_cons.mpr ⟨fun again => ?_, inductionHypothesis older⟩
      obtain ⟨other, member, same⟩ := List.mem_map.mp again
      have below := older.slot_lt member
      rw [same, consecutive declaration before List.suffix_rfl] at below
      exact Nat.lt_irrefl _ below

def framesOf : List (List Declaration) → List Frame
  | [] => []
  | innermost :: outer =>
      { locals := innermost.map Declaration.entry, base := outer.flatten.length } :: framesOf outer

def scopeOf (fields : List (String × Variable)) (peak : Nat) (declared : List (List Declaration)) :
    Scope :=
  { fields, frames := framesOf declared, nextSlot := declared.flatten.length, peak }

variable {fields : List (String × Variable)} {peak : Nat}

theorem ofFields?_eq {scope : Scope} {given : List Field} (opened : ofFields? given = some scope) :
    scope = scopeOf scope.fields 0 [[]] := by
  unfold ofFields? at opened
  split at opened
  · obtain rfl := Option.some.inj opened
    rfl
  · exact absurd opened (by simp)

/-- The slot of a new local is the number of those in use. -/
theorem declare?_scopeOf {innermost : List Declaration} {outer : List (List Declaration)}
    (free : (innermost :: outer).flatten.length < slotCount) (name : String) (kind : Kind) :
    let slot := UInt16.ofNat (innermost :: outer).flatten.length
    (scopeOf fields peak (innermost :: outer)).declare? name kind =
      some (slot, scopeOf fields (max peak ((innermost :: outer).flatten.length + 1))
        ((⟨name, kind, slot⟩ :: innermost) :: outer)) :=
  if_pos free

theorem declare?_scopeOf_full {declared : List (List Declaration)}
    (full : ¬ declared.flatten.length < slotCount) (name : String) (kind : Kind) :
    (scopeOf fields peak declared).declare? name kind = none :=
  if_neg full

namespace Ledger

variable {scope : Scope} {ledger : Ledger} {calls : List Call}

theorem run_concat (ledger : Ledger) (calls : List Call) (last : Call) :
    ledger.run (calls ++ [last]) = (ledger.run calls).call last :=
  List.foldl_append

theorem after_append (scope : Scope) (calls more : List Call) :
    after scope (calls ++ more) = (after scope calls).run more :=
  List.foldl_append

theorem after_concat (scope : Scope) (calls : List Call) (last : Call) :
    after scope (calls ++ [last]) = (after scope calls).call last :=
  after_append scope calls [last]

/-- The scope is what is written down. -/
structure Faithful (fields : List (String × Variable)) (peak : Nat) (ledger : Ledger) : Prop where
  framed : ledger.declared ≠ []
  scope : ledger.scope = scopeOf fields peak ledger.declared
  consecutive : Consecutive ledger.live
  room : ledger.live.length ≤ peak

/-! One call. -/

theorem Faithful.push (faithful : Faithful fields peak ledger) :
    Faithful fields peak (ledger.call .push) := by
  obtain ⟨scope, declared⟩ := ledger
  obtain rfl : scope = scopeOf fields peak declared := faithful.scope
  exact ⟨List.cons_ne_nil _ _, rfl, faithful.consecutive, faithful.room⟩

/-- The slots of a frame that is closed are free again. -/
theorem Faithful.pop (faithful : Faithful fields peak ledger) (inner : 2 ≤ ledger.declared.length) :
    Faithful fields peak (ledger.call .pop) := by
  obtain ⟨scope, declared⟩ := ledger
  obtain rfl : scope = scopeOf fields peak declared := faithful.scope
  match declared, inner with
  | innermost :: outer :: rest, _ =>
      have released : (outer :: rest).flatten <:+ (innermost :: outer :: rest).flatten :=
        List.suffix_append _ _
      exact ⟨List.cons_ne_nil _ _, rfl, faithful.consecutive.suffix released,
        Nat.le_trans released.length_le faithful.room⟩

/-- A local takes the slot behind those in use, or none is left and nothing has changed. -/
theorem Faithful.declare (faithful : Faithful fields peak ledger) (name : String) (kind : Kind) :
    Faithful fields (max peak (ledger.call (.declare name kind)).live.length)
      (ledger.call (.declare name kind)) := by
  obtain ⟨scope, declared⟩ := ledger
  obtain rfl : scope = scopeOf fields peak declared := faithful.scope
  obtain ⟨innermost, outer, rfl⟩ := List.exists_cons_of_ne_nil faithful.framed
  by_cases free : (innermost :: outer).flatten.length < slotCount
  · simp only [call, declare?_scopeOf free]
    exact ⟨List.cons_ne_nil _ _, rfl, faithful.consecutive.cons (UInt16.toNat_ofNat_of_lt' free),
      Nat.le_max_right _ _⟩
  · simp only [call, declare?_scopeOf_full free]
    rw [Nat.max_eq_left faithful.room]
    exact faithful

/-- A call keeps the scope what is written down, and raises its peak to what is in use then. -/
theorem Faithful.call (faithful : Faithful fields peak ledger) (call : Call)
    (inner : call = .pop → 2 ≤ ledger.declared.length) :
    Faithful fields (max peak (ledger.call call).live.length) (ledger.call call) := by
  cases call with
  | push =>
      rw [Nat.max_eq_left faithful.push.room]
      exact faithful.push
  | pop =>
      have popped := faithful.pop (inner rfl)
      rw [Nat.max_eq_left popped.room]
      exact popped
  | declare name kind => exact faithful.declare name kind

/-! Calls in turn. -/

theorem declared_declare {innermost : List Declaration} {outer : List (List Declaration)}
    (framed : ledger.declared = innermost :: outer) (name : String) (kind : Kind) :
    ∃ locals, (ledger.call (.declare name kind)).declared = locals :: outer := by
  simp only [call]
  split
  · exact ⟨_, congrArg (List.modifyHead _) framed⟩
  · exact ⟨innermost, framed⟩

/-- The frames under the one that is innermost at first are left alone. -/
theorem declared_run (ledger : Ledger) (nested : Nested calls) {own : List Declaration}
    {outer : List (List Declaration)} (framed : ledger.declared = own :: outer) :
    ∃ opened, (ledger.run calls).declared = opened ++ outer ∧
      opened.length + calls.count .pop = calls.count .push + 1 := by
  induction calls using List.reverseRecOn with
  | nil => exact ⟨[own], framed, rfl⟩
  | append_singleton calls last inductionHypothesis =>
      have before := nested.earlier (List.prefix_append _ _)
      obtain ⟨opened, stands, depth⟩ := inductionHypothesis before
      obtain ⟨innermost, rest, rfl⟩ : ∃ innermost rest, opened = innermost :: rest := by
        have balance := before _ List.prefix_rfl
        exact List.exists_cons_of_length_pos (by omega)
      rw [run_concat, List.count_append, List.count_append]
      cases last with
      | push =>
          refine ⟨[] :: innermost :: rest, congrArg ([] :: ·) stands, ?_⟩
          have counts := Call.count_push
          rw [List.length_cons]
          omega
      | pop =>
          refine ⟨rest, congrArg List.tail stands, ?_⟩
          have counts := Call.count_pop
          rw [List.length_cons] at depth
          omega
      | declare name kind =>
          obtain ⟨locals, declared⟩ := declared_declare stands name kind
          exact ⟨locals :: rest, declared, depth⟩

/-- A frame that is closed is not the one of the whole body. -/
theorem two_frames (scope : Scope) (nested : Nested (calls ++ [.pop])) :
    2 ≤ (after scope calls).declared.length := by
  obtain ⟨opened, stands, depth⟩ := declared_run ⟨scope, [[]]⟩
    (nested.earlier (List.prefix_append _ _)) rfl
  have declared : (after scope calls).declared = opened := stands.trans (List.append_nil _)
  have bounded := nested _ List.prefix_rfl
  rw [List.count_append, List.count_append] at bounded
  have counts := Call.count_pop
  rw [declared]
  omega

/-- The scope is what is written down after all calls, and its peak is what was in use when most was. -/
theorem faithful_after (start : scope = scopeOf fields 0 [[]]) (nested : Nested calls) :
    ∃ peak, Faithful fields peak (after scope calls) ∧
      (∀ earlier, earlier <+: calls → (after scope earlier).live.length ≤ peak) ∧
      ∃ earlier, earlier <+: calls ∧ (after scope earlier).live.length = peak := by
  induction calls using List.reverseRecOn with
  | nil =>
      refine ⟨0, ⟨List.cons_ne_nil _ _, start, ?_, Nat.le_refl 0⟩, ?_, [], List.prefix_rfl, rfl⟩
      · intro declaration before found
        exact absurd (List.suffix_nil.mp found) (List.cons_ne_nil _ _)
      · intro earlier early
        obtain rfl := List.prefix_nil.mp early
        exact Nat.le_refl 0
  | append_singleton calls last inductionHypothesis =>
      obtain ⟨peak, faithful, all, highest, early, attained⟩ :=
        inductionHypothesis (nested.earlier (List.prefix_append _ _))
      -- What is in use after the last call is all that can raise the peak.
      have called := faithful.call last fun isPop => two_frames scope (isPop ▸ nested)
      rw [← after_concat] at called
      refine ⟨_, called, ?_, ?_⟩
      · intro earlier early
        rcases List.prefix_concat_iff.mp early with rfl | before
        · exact Nat.le_max_right _ _
        · exact Nat.le_trans (all earlier before) (Nat.le_max_left _ _)
      · rcases Nat.le_total peak (after scope (calls ++ [last])).live.length with higher | lower
        · exact ⟨_, List.prefix_rfl, (Nat.max_eq_right higher).symm⟩
        · exact ⟨highest, early.trans (List.prefix_append _ _),
            attained.trans (Nat.max_eq_left lower).symm⟩

/-- What stands between the opening of a frame and its own closing leaves nothing behind. -/
theorem declared_closed (scope : Scope) (earlier : List Call) {inner : List Call}
    (balanced : Balanced inner) :
    (after scope (earlier ++ .push :: inner ++ [.pop])).declared = (after scope earlier).declared := by
  obtain ⟨opened, stands, depth⟩ := declared_run ((after scope earlier).call .push) balanced.1 rfl
  have single : opened.length = 1 := by
    have same := balanced.2
    omega
  obtain ⟨own, rfl⟩ := List.length_eq_one_iff.mp single
  rw [after_concat, after_append]
  exact congrArg List.tail stands

/-- Closing a frame brings back the names and the slots that there were when it was opened. -/
theorem scope_closed (start : scope = scopeOf fields 0 [[]]) {earlier inner : List Call}
    (nested : Nested (earlier ++ .push :: inner ++ [.pop])) (balanced : Balanced inner) :
    (after scope (earlier ++ .push :: inner ++ [.pop])).scope.nextSlot =
        (after scope earlier).scope.nextSlot ∧
      ∀ name, (after scope (earlier ++ .push :: inner ++ [.pop])).scope.lookup? name =
        (after scope earlier).scope.lookup? name := by
  have begins : earlier <+: earlier ++ .push :: inner ++ [.pop] :=
    (List.prefix_append _ _).trans (List.prefix_append _ _)
  obtain ⟨peak, closed, -, -⟩ := faithful_after start nested
  obtain ⟨lower, before, -, -⟩ := faithful_after start (nested.earlier begins)
  rw [closed.scope, before.scope, declared_closed scope earlier balanced]
  exact ⟨rfl, fun _ => rfl⟩

/-- A slot is never given out while a local has it, whether or not that local is hidden; as many slots are
counted as were in use at once; and closing a frame brings back the names and the slots that there were when
it was opened. -/
theorem live_slots_stay_apart {given : List Field} (opened : ofFields? given = some scope)
    (nested : Nested calls) :
    ((after scope calls).live.map Declaration.slot).Nodup ∧
      (∀ declaration ∈ (after scope calls).live,
        declaration.slot.toNat < (after scope calls).scope.nextSlot) ∧
      (after scope calls).scope.nextSlot ≤ (after scope calls).scope.peak ∧
      (∀ earlier, earlier <+: calls →
        (after scope earlier).live.length ≤ (after scope calls).scope.peak) ∧
      (∃ earlier, earlier <+: calls ∧
        (after scope earlier).live.length = (after scope calls).scope.peak) ∧
      ∀ before, calls = before ++ [.pop] →
        (∃ earlier inner, before = earlier ++ .push :: inner ∧ Balanced inner) ∧
        ∀ earlier inner, before = earlier ++ .push :: inner → Balanced inner →
          (after scope calls).scope.nextSlot = (after scope earlier).scope.nextSlot ∧
            ∀ name, (after scope calls).scope.lookup? name = (after scope earlier).scope.lookup? name := by
  have start := ofFields?_eq opened
  obtain ⟨peak, faithful, all, attained⟩ := faithful_after start nested
  have known : (after scope calls).scope.nextSlot = (after scope calls).live.length ∧
      (after scope calls).scope.peak = peak := by
    rw [faithful.scope]
    exact ⟨rfl, rfl⟩
  rw [known.1, known.2]
  refine ⟨faithful.consecutive.nodup, fun _ => faithful.consecutive.slot_lt, faithful.room, all, attained, ?_⟩
  rintro before rfl
  refine ⟨exists_matching nested, ?_⟩
  rintro earlier inner rfl balanced
  rw [← known.1]
  exact scope_closed start nested balanced

theorem hidden_locals_keep_their_slots :
    let fields : List Field := [⟨"x", .integer 1⟩]
    let scope : Scope :=
      { fields := [("x", ⟨.field 0, .number⟩)], frames := [⟨[], 0⟩], nextSlot := 0, peak := 0 }
    let earlier : List Call := [.declare "x" .number, .declare "x" .string]
    let inner : List Call := [.declare "x" .boolean, .push, .declare "y" .nil, .pop]
    let calls := earlier ++ .push :: inner ++ [.pop]
    ofFields? fields = some scope ∧ Nested calls ∧ Balanced inner ∧
      ((after scope calls).live.map Declaration.slot = [1, 0] ∧
        ((after scope calls).live.map Declaration.slot).Nodup) ∧
      ((after scope calls).scope.nextSlot = 2 ∧ (after scope calls).scope.peak = 4) ∧
      (after scope calls).scope.lookup? "x" = (after scope earlier).scope.lookup? "x" := by
  intro fields scope earlier inner calls
  have opened : ofFields? fields = some scope := rfl
  have nested : Nested calls := by decide
  have balanced : Balanced inner := by decide
  obtain ⟨apart, -, -, -, -, closed⟩ := live_slots_stay_apart opened nested
  obtain ⟨-, restored⟩ := closed (earlier ++ .push :: inner) rfl
  have again := (restored earlier inner rfl balanced).2 "x"
  exact ⟨opened, nested, balanced, ⟨by decide, apart⟩, by decide, again⟩

end Ledger
end Scope
end Lisp
end FragmentLisp
