import FragmentLisp.Registry

/-!
Types as they lie in memory once they are loaded. The code of all methods is packed into one image, one
method behind the other, and each method keeps where its code lies there. Unpacking gives the type back.
-/

namespace FragmentLisp

structure LoadedMethod where
  signature : Signature
  start : Nat
  stop : Nat
deriving DecidableEq

structure LoadedType where
  name : String
  fieldCount : UInt16
  constants : List String
  methods : List LoadedMethod
  image : Array UInt8
deriving DecidableEq

namespace LoadedType

/-- Lay out methods whose code begins at an offset of the image. -/
def layOut : Nat → List Method → List LoadedMethod
  | _, [] => []
  | offset, method :: rest =>
      let stop := offset + method.code.size
      { signature := method.signature, start := offset, stop } :: layOut stop rest

/-- An image with the code of further methods behind it. -/
def pack (image : Array UInt8) (methods : List Method) : Array UInt8 :=
  methods.foldl (fun image method => image ++ method.code) image

def ofDefinition (definition : TypeDefinition) : LoadedType :=
  { name := definition.name
    fieldCount := definition.fieldCount
    constants := definition.constants
    methods := layOut 0 definition.methods
    image := pack #[] definition.methods }

def code (loaded : LoadedType) (method : LoadedMethod) : Array UInt8 :=
  loaded.image.extract method.start method.stop

def method? (loaded : LoadedType) (name : String) : Option LoadedMethod :=
  loaded.methods.find? fun method => method.signature.name = name

def unpackedMethod (loaded : LoadedType) (method : LoadedMethod) : Method :=
  { signature := method.signature, code := loaded.code method }

def unpacked (loaded : LoadedType) : TypeDefinition :=
  { name := loaded.name
    fieldCount := loaded.fieldCount
    constants := loaded.constants
    methods := loaded.methods.map loaded.unpackedMethod }

end LoadedType

namespace Registry

def loaded? (registry : Registry) (name : String) : Option LoadedType :=
  (registry.get? name).map LoadedType.ofDefinition

end Registry
end FragmentLisp
