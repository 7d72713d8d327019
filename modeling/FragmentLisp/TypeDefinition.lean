/-!
A type as a compiler makes it: how many fields its instances have, the string constants that its
methods share, and the methods with their code.
-/

namespace FragmentLisp

structure Signature where
  name : String
  arity : UInt8
  locals : UInt16
  /-- The largest height of the operand stack that the method declares. -/
  maxStack : UInt32
  returnsValue : Bool
deriving DecidableEq, Inhabited

structure Method where
  signature : Signature
  code : Array UInt8
deriving DecidableEq, Inhabited

structure TypeDefinition where
  name : String
  fieldCount : UInt16
  constants : List String
  methods : List Method
deriving DecidableEq, Inhabited

namespace TypeDefinition

def constructorName : String := "<init>"

def method? (definition : TypeDefinition) (name : String) : Option Method :=
  definition.methods.find? fun method => method.signature.name = name

end TypeDefinition
end FragmentLisp
