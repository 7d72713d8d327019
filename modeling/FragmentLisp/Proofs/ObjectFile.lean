import FragmentLisp.ObjectFile
import Mathlib.Algebra.GroupWithZero.Nat
import Mathlib.Algebra.Order.BigOperators.Group.List
import Mathlib.Algebra.Order.Group.Nat

/-!
What is known of a library that lays out object files. It writes every file whose names hold no zero byte
and crashes over any other, an image is hardly longer than what it holds, and an image that can be
addressed with 64 bits reads back as the file that it was made of.
-/

namespace FragmentLisp

def ObjectSymbol.moved (count : Nat) (symbol : ObjectSymbol) : ObjectSymbol :=
  { symbol with sectionIndex? := symbol.sectionIndex?.map (· + count) }

namespace ObjectFile

def names (file : ObjectFile) : List (List UInt8) :=
  (file.sections.map fun entry => entry.name) ++ file.symbols.map fun symbol => symbol.name

/-- Few enough sections with names, names that are short enough, and symbols that mark places within the
sections. -/
structure Regular (file : ObjectFile) : Prop where
  sections : file.sections.length ≤ 2 ^ 15
  named : ∀ entry ∈ file.sections, entry.name ≠ []
  names : (file.names.map fun name => name.length + 1).sum < 2 ^ 31
  placed : ∀ symbol ∈ file.symbols, ∃ index entry, symbol.sectionIndex? = some index ∧
    file.sections[index]? = some entry ∧ symbol.value + symbol.size ≤ entry.contents.length

/-- How many bytes the image of a file takes at most. Beside the names and the contents there are a record
of no more than 64 bytes for each section and each symbol, and the header and the tables. -/
def footprint (file : ObjectFile) : Nat :=
  1024 + (file.sections.map fun entry => entry.name.length + 65 + entry.contents.length).sum +
    (file.symbols.map fun symbol => symbol.name.length + 65).sum

/-- An opened file holds the sections of a file with all their contents, behind others with other names, and
its symbols, which mark the same places in the same sections. -/
def OpensAs (file : ObjectFile) (found : OpenedFile) : Prop :=
  ∃ before after, found.sections = before ++ (file.opened.sections ++ after) ∧
    (∀ extra ∈ before, ∀ entry ∈ file.sections, extra.name ≠ entry.name) ∧
    found.symbols = file.symbols.map (ObjectSymbol.moved before.length)

def ReadsBack [ObjectFormat] (file : ObjectFile) (image : List UInt8) : Prop :=
  ∃ found, ObjectFormat.read image = .ok found ∧ file.OpensAs found

end ObjectFile

class LawfulObjectFormat [ObjectFormat] : Prop where
  writes {file : ObjectFile} (free : file.ZeroFree) :
    ∃ image, ObjectFormat.write file = .ok image ∧ image.length ≤ file.footprint
  crashes : ∃ text?, ∀ file : ObjectFile, ¬ file.ZeroFree →
    ObjectFormat.write file = .error (.crashed text?)
  readsBack {file : ObjectFile} {image : List UInt8} (regular : file.Regular)
    (written : ObjectFormat.write file = .ok image) (addressable : image.length < 2 ^ 64) :
    file.ReadsBack image

section Laws

variable [ObjectFormat] [LawfulObjectFormat] {file : ObjectFile} {image : List UInt8}

theorem ObjectFile.zeroFree_of_write (written : ObjectFormat.write file = .ok image) :
    file.ZeroFree := by
  refine Decidable.byContradiction fun held => ?_
  obtain ⟨text?, crashes⟩ := LawfulObjectFormat.crashes
  cases written.symm.trans (crashes file held)

theorem ObjectFile.image_length_le (written : ObjectFormat.write file = .ok image) :
    image.length ≤ file.footprint := by
  obtain ⟨other, again, bounded⟩ := LawfulObjectFormat.writes (zeroFree_of_write written)
  rwa [Except.ok.inj (written.symm.trans again)]

theorem ObjectFile.crashed_of_write {failure : Failure String}
    (failed : ObjectFormat.write file = .error failure) : ∃ text?, failure = .crashed text? := by
  by_cases free : file.ZeroFree
  · obtain ⟨image, written, _⟩ := LawfulObjectFormat.writes free
    cases written.symm.trans failed
  · obtain ⟨text?, crashes⟩ := LawfulObjectFormat.crashes
    exact ⟨text?, Except.error.inj (failed.symm.trans (crashes file free))⟩

/-- Whether a file is written, and what becomes of it otherwise, is decided by its names alone. -/
theorem ObjectFile.write_error_iff {failure : Failure String} {other : ObjectFile}
    (alike : file.ZeroFree ↔ other.ZeroFree) :
    ObjectFormat.write file = .error failure ↔ ObjectFormat.write other = .error failure := by
  by_cases free : file.ZeroFree
  · obtain ⟨image, written, _⟩ := LawfulObjectFormat.writes free
    obtain ⟨otherImage, otherWritten, _⟩ := LawfulObjectFormat.writes (alike.mp free)
    rw [written, otherWritten]
    exact iff_of_false nofun nofun
  · obtain ⟨text?, crashes⟩ := LawfulObjectFormat.crashes
    rw [crashes file free, crashes other (mt alike.mpr free)]

end Laws

end FragmentLisp
