/-!
Relocatable object files: named sections, and symbols that mark places in them. Names are bytes, since a
file may hold names that are no text. How a file is laid out as bytes is left to a library, an
`ObjectFormat`.
-/

namespace FragmentLisp

structure ObjectSection where
  name : List UInt8
  executable : Bool
  contents : List UInt8
deriving DecidableEq

structure ObjectSymbol where
  name : List UInt8
  /-- The number of the section that the symbol lies in, if it lies in one. -/
  sectionIndex? : Option Nat
  value : Nat
  size : Nat
  isFunction : Bool
deriving DecidableEq

structure ObjectFile where
  sections : List ObjectSection
  symbols : List ObjectSymbol
deriving DecidableEq

/-- Names end at a zero byte in images, so none of them may hold one. -/
structure ObjectFile.ZeroFree (file : ObjectFile) : Prop where
  sections : ∀ entry ∈ file.sections, (0 : UInt8) ∉ entry.name
  symbols : ∀ symbol ∈ file.symbols, (0 : UInt8) ∉ symbol.name

instance (file : ObjectFile) : Decidable file.ZeroFree :=
  decidable_of_iff ((∀ entry ∈ file.sections, (0 : UInt8) ∉ entry.name) ∧
      ∀ symbol ∈ file.symbols, (0 : UInt8) ∉ symbol.name)
    ⟨fun free => ⟨free.1, free.2⟩, fun free => ⟨free.sections, free.symbols⟩⟩

/-- A section of a file that has been opened. Its contents can still turn out to lie outside of the
file. -/
structure OpenedSection where
  name : List UInt8
  contents : Except String (List UInt8)

structure OpenedFile where
  sections : List OpenedSection
  symbols : List ObjectSymbol

def ObjectSection.opened (entry : ObjectSection) : OpenedSection :=
  { name := entry.name, contents := .ok entry.contents }

def ObjectFile.opened (file : ObjectFile) : OpenedFile :=
  { sections := file.sections.map ObjectSection.opened, symbols := file.symbols }

namespace OpenedFile

def findSection? (file : OpenedFile) (name : List UInt8) : Option Nat :=
  file.sections.findIdx? fun candidate => candidate.name = name

def function? (file : OpenedFile) (index : Nat) (name : List UInt8) : Option ObjectSymbol :=
  file.symbols.find? fun symbol =>
    symbol.isFunction && symbol.sectionIndex? = some index && symbol.name = name

end OpenedFile

/-- Something is refused for a reason, or the attempt crashes. A crash may leave a text. -/
inductive Failure (Reason : Type) where
  | refused (reason : Reason)
  | crashed (text? : Option String)
deriving DecidableEq

def Failure.map {Reason Other : Type} (convert : Reason → Other) : Failure Reason → Failure Other
  | refused reason => .refused (convert reason)
  | crashed text? => .crashed text?

/-- A library that writes object files as images and opens images again. -/
class ObjectFormat where
  write : ObjectFile → Except (Failure String) (List UInt8)
  read : List UInt8 → Except String OpenedFile

end FragmentLisp
