import FragmentLisp.Machine.Arithmetic
import FragmentLisp.Machine.OperandStack

/-!
The stack machine that runs methods. One step decodes the instruction at the current offset and performs
it. A run takes a bounded number of steps, so that code that loops for ever is an unfinished run here
and not an endless evaluation.
-/

namespace FragmentLisp
namespace Machine

/-- What a run reads and never changes. -/
structure Program where
  code : Array UInt8
  constants : Array String
  stackLimit : Nat

structure State where
  offset : Nat
  stack : OperandStack
  locals : Array Value
  fields : Array Value
  output : String

/-- The state before the first instruction: an empty stack, and locals that are all nil. -/
def State.initial (locals : Nat) (fields : Array Value) (output : String) : State :=
  { offset := 0, stack := .empty, locals := Array.replicate locals .nil, fields, output }

inductive Step where
  | running (state : State)
  | returned (value : Option Value) (state : State)
  /-- The state is the one in which the instruction could not be performed. -/
  | faulted (fault : Fault) (state : State)

/-- Go on with a result, or stop in the state before the instruction. -/
@[inline] def attempt {Result : Type} (state : State) (result : Except Fault Result)
    (continuation : Result → Step) : Step :=
  match result with
  | .ok value => continuation value
  | .error fault => .faulted fault state

/-- Leave a result on a stack and go on with the following instruction. -/
def leave (program : Program) (state : State) (following : Nat) (stack : OperandStack)
    (value : Value) : Step :=
  attempt state (stack.push program.stackLimit value) fun stack =>
    .running { state with offset := following, stack }

def perform (program : Program) (state : State) (instruction : Instruction) : Step :=
  let following := state.offset + instruction.size
  match instruction with
  | .pushInteger value => leave program state following state.stack (.integer value)
  | .pushBoolean value => leave program state following state.stack (.boolean value)
  | .pushNil => leave program state following state.stack .nil
  | .pushConstant index =>
      match program.constants[index.toNat]? with
      | some text => leave program state following state.stack (.string text)
      | none => .faulted (.invalidConstant index) state
  | .pop =>
      attempt state (state.stack.pop state.offset) fun (_, stack) =>
        .running { state with offset := following, stack }
  | .arithmetic op =>
      attempt state (state.stack.popIntegers state.offset op.name) fun (left, right, stack) =>
        attempt state (op.apply left right) fun result =>
          leave program state following stack (.integer result)
  | .negate =>
      attempt state (state.stack.pop state.offset) fun (operand, stack) =>
        attempt state (OperandStack.expectInteger "-" operand) fun value =>
          attempt state (Arithmetic.negate value) fun result =>
            leave program state following stack (.integer result)
  | .equal =>
      attempt state (state.stack.pop state.offset) fun (right, stack) =>
        attempt state (stack.pop state.offset) fun (left, stack) =>
          leave program state following stack (.boolean (decide (left = right)))
  | .order op =>
      attempt state (state.stack.popIntegers state.offset op.name) fun (left, right, stack) =>
        leave program state following stack (.boolean (op.holds left right))
  | .not =>
      attempt state (state.stack.pop state.offset) fun (operand, stack) =>
        leave program state following stack (.boolean !operand.isTruthy)
  | .jumpIfFalse target =>
      attempt state (state.stack.pop state.offset) fun (condition, stack) =>
        .running
          { state with
            offset := if condition.isTruthy then following else target.toNat
            stack }
  | .jump target => .running { state with offset := target.toNat }
  | .storeLocal slot =>
      attempt state (state.stack.pop state.offset) fun (value, stack) =>
        if slot.toNat < state.locals.size then
          .running
            { state with
              offset := following
              stack
              locals := state.locals.setIfInBounds slot.toNat value }
        else
          .faulted (.invalidLocal slot) state
  | .loadLocal slot =>
      match state.locals[slot.toNat]? with
      | some value => leave program state following state.stack value
      | none => .faulted (.invalidLocal slot) state
  | .storeField index =>
      attempt state (state.stack.pop state.offset) fun (value, stack) =>
        if index.toNat < state.fields.size then
          .running
            { state with
              offset := following
              stack
              fields := state.fields.setIfInBounds index.toNat value }
        else
          .faulted (.invalidField index) state
  | .loadField index =>
      match state.fields[index.toNat]? with
      | some value => leave program state following state.stack value
      | none => .faulted (.invalidField index) state
  | .concat parts =>
      attempt state (state.stack.popMany parts.toNat state.offset) fun (values, stack) =>
        leave program state following stack (.string (String.join (values.map Value.printed)))
  | .count =>
      attempt state (state.stack.pop state.offset) fun (operand, stack) =>
        match operand with
        | .string text => leave program state following stack (.integer (Int64.ofNat text.length))
        | other => .faulted (.typeMismatch "count" "string" other.typeName) state
  | .print newline =>
      attempt state (state.stack.pop state.offset) fun (value, stack) =>
        let text := if newline then value.printed ++ "\n" else value.printed
        .running { state with offset := following, stack, output := state.output ++ text }
  | .return =>
      attempt state (state.stack.pop state.offset) fun (value, stack) =>
        .returned (some value) { state with offset := following, stack }
  | .returnVoid => .returned none { state with offset := following }

def step (program : Program) (state : State) : Step :=
  if state.offset < program.code.size then
    match Instruction.decodeAt program.code state.offset with
    | .ok instruction => perform program state instruction
    | .error error => .faulted (.undecodable error) state
  else
    .faulted .fellOffEnd state

inductive Outcome where
  | returned (value : Option Value) (state : State)
  | faulted (fault : Fault) (state : State)
  | unfinished (state : State)

/-- At most so many steps of a method. -/
def run (program : Program) : Nat → State → Outcome
  | 0, state => .unfinished state
  | steps + 1, state =>
      match step program state with
      | .running next => run program steps next
      | .returned value final => .returned value final
      | .faulted fault final => .faulted fault final

end Machine
end FragmentLisp
