import FragmentLisp.Instruction.Codec

/-!
The reasons for which a run stops without an answer.
-/

namespace FragmentLisp

inductive Fault where
  | divisionByZero
  | overflow (operation : String)
  | typeMismatch (operation expected found : String)
  | stackOverflow (limit : Nat)
  | stackUnderflow (offset : Nat)
  | invalidLocal (slot : UInt16)
  | invalidField (index : UInt16)
  | invalidConstant (index : UInt32)
  | undecodable (error : DecodeError)
  | fellOffEnd
deriving DecidableEq

def Fault.message : Fault → String
  | divisionByZero => "division by zero"
  | overflow operation => String.join ["integer overflow in ", operation]
  | typeMismatch operation expected found =>
      String.join [operation, " expects a ", expected, ", found ", found]
  | stackOverflow limit => String.join ["operand stack exceeded ", toString limit, " entries"]
  | stackUnderflow offset => String.join ["operand stack underflow at offset ", toString offset]
  | invalidLocal slot => String.join ["local slot ", toString slot.toNat, " out of range"]
  | invalidField index => String.join ["field ", toString index.toNat, " out of range"]
  | invalidConstant index => String.join ["constant ", toString index.toNat, " out of range"]
  | undecodable error => error.message
  | fellOffEnd => "execution ran past the end of the method"

end FragmentLisp
