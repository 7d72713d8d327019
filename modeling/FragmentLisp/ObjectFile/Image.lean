import FragmentLisp.Bytes
import FragmentLisp.ObjectFile
import FragmentLisp.ObjectFile.StringTable

/-!
Object files as 64-bit little-endian ELF images, the format that the program uses. The header comes first,
then the contents of the sections, the symbol table and the string tables for symbols and for sections,
and last the section headers. Reading finds everything through the section headers and asks nothing else
of the layout.
-/

namespace FragmentLisp

inductive ImageError where
  | missingMagic
  | unknownMagic
  | shortHeader
  | unsupportedHeader
  | firstSectionOutside
  | sectionEntrySize
  | sectionHeadersOutside
  | missingNameSection
  | invalidNameSection
  | symbolsOutside
deriving DecidableEq

def ImageError.message : ImageError → String
  | missingMagic => "Could not read file magic"
  | unknownMagic => "Unknown file magic"
  | shortHeader => "Invalid ELF header size or alignment"
  | unsupportedHeader => "Unsupported ELF header"
  | firstSectionOutside => "Invalid ELF section header offset or size"
  | sectionEntrySize => "Invalid ELF section header entry size"
  | sectionHeadersOutside => "Invalid ELF section header offset/size/alignment"
  | missingNameSection => "Missing ELF e_shstrndx"
  | invalidNameSection => "Invalid ELF e_shstrndx"
  | symbolsOutside => "Invalid ELF symbol table data"

namespace Image

open Bytes

def headerSize : Nat := 64

def sectionHeaderSize : Nat := 64

def symbolSize : Nat := 24

def magic : List UInt8 := [0x7f, 0x45, 0x4c, 0x46, 0x02]

/-- The section number of symbols that lie in no section. -/
def absoluteSection : Nat := 0xfff1

/-- Section numbers from here on have meanings of their own. -/
def reservedSections : Nat := 0xff00

def padding (size : Nat) : List UInt8 :=
  List.replicate ((8 - size % 8) % 8) 0

structure SectionHeader where
  name : Nat
  type : Nat
  flags : Nat
  offset : Nat
  size : Nat
  link : Nat
  info : Nat
  alignment : Nat
  entrySize : Nat

def programType : Nat := 1

def symbolTableType : Nat := 2

def stringTableType : Nat := 3

def noBitsType : Nat := 8

def SectionHeader.encode (header : SectionHeader) : List UInt8 :=
  littleEndian 4 header.name ++ littleEndian 4 header.type ++ littleEndian 8 header.flags ++
    littleEndian 8 0 ++ littleEndian 8 header.offset ++ littleEndian 8 header.size ++
    littleEndian 4 header.link ++ littleEndian 4 header.info ++
    littleEndian 8 header.alignment ++ littleEndian 8 header.entrySize

def encodeSymbol (names : StringTable) (symbol : ObjectSymbol) : List UInt8 :=
  let sectionNumber :=
    match symbol.sectionIndex? with
    | some index => index + 1
    | none => absoluteSection
  littleEndian 4 (names.offset symbol.name) ++ [if symbol.isFunction then 2 else 1, 0] ++
    littleEndian 2 sectionNumber ++ littleEndian 8 symbol.value ++ littleEndian 8 symbol.size

def encodeHeader (sectionHeaders sectionCount : Nat) : List UInt8 :=
  magic ++ [1, 1] ++ List.replicate 9 0 ++ littleEndian 2 1 ++ littleEndian 2 62 ++
    littleEndian 4 1 ++ littleEndian 8 0 ++ littleEndian 8 0 ++ littleEndian 8 sectionHeaders ++
    littleEndian 4 0 ++ littleEndian 2 headerSize ++ littleEndian 2 0 ++ littleEndian 2 0 ++
    littleEndian 2 sectionHeaderSize ++ littleEndian 2 sectionCount ++
    littleEndian 2 (sectionCount - 1)

def symbolTableName : List UInt8 := utf8 ".symtab"

def symbolNamesName : List UInt8 := utf8 ".strtab"

def sectionNamesName : List UInt8 := utf8 ".shstrtab"

def contentHeaders (names : StringTable) : Nat → List ObjectSection → List SectionHeader
  | _, [] => []
  | offset, entry :: rest =>
      { name := names.offset entry.name
        type := programType
        flags := if entry.executable then 6 else 2
        offset
        size := entry.contents.length
        link := 0
        info := 0
        alignment := 1
        entrySize := 0 } :: contentHeaders names (offset + entry.contents.length) rest

/-- The image of an object file. -/
def encode (file : ObjectFile) : List UInt8 :=
  let contents := file.sections.flatMap fun entry => entry.contents
  let symbolNames := StringTable.ofNames (file.symbols.map fun symbol => symbol.name)
  let sectionNames :=
    StringTable.ofNames
      ((file.sections.map fun entry => entry.name) ++
        [symbolTableName, symbolNamesName, sectionNamesName])
  let symbols := List.replicate symbolSize 0 ++ file.symbols.flatMap (encodeSymbol symbolNames)
  let contentsEnd := headerSize + contents.length
  let symbolsStart := contentsEnd + (padding contentsEnd).length
  let symbolNamesStart := symbolsStart + symbols.length
  let sectionNamesStart := symbolNamesStart + symbolNames.bytes.length
  let namesEnd := sectionNamesStart + sectionNames.bytes.length
  let headersStart := namesEnd + (padding namesEnd).length
  let sectionCount := file.sections.length + 4
  let noSection : SectionHeader := ⟨0, 0, 0, 0, 0, 0, 0, 0, 0⟩
  let symbolTable : SectionHeader :=
    { name := sectionNames.offset symbolTableName
      type := symbolTableType
      flags := 0
      offset := symbolsStart
      size := symbols.length
      link := sectionCount - 2
      info := file.symbols.length + 1
      alignment := 8
      entrySize := symbolSize }
  let symbolNamesHeader : SectionHeader :=
    { name := sectionNames.offset symbolNamesName
      type := stringTableType
      flags := 0
      offset := symbolNamesStart
      size := symbolNames.bytes.length
      link := 0
      info := 0
      alignment := 1
      entrySize := 0 }
  let sectionNamesHeader : SectionHeader :=
    { name := sectionNames.offset sectionNamesName
      type := stringTableType
      flags := 0
      offset := sectionNamesStart
      size := sectionNames.bytes.length
      link := 0
      info := 0
      alignment := 1
      entrySize := 0 }
  let headers :=
    noSection :: contentHeaders sectionNames headerSize file.sections ++
      [symbolTable, symbolNamesHeader, sectionNamesHeader]
  encodeHeader headersStart sectionCount ++ contents ++ padding contentsEnd ++ symbols ++
    symbolNames.bytes ++ sectionNames.bytes ++ padding namesEnd ++
    headers.flatMap SectionHeader.encode

def wordAt (bytes : List UInt8) (offset width : Nat) : Nat :=
  ofLittleEndian ((bytes.drop offset).take width)

def decodeSectionHeader (bytes : List UInt8) : SectionHeader :=
  { name := wordAt bytes 0 4
    type := wordAt bytes 4 4
    flags := wordAt bytes 8 8
    offset := wordAt bytes 24 8
    size := wordAt bytes 32 8
    link := wordAt bytes 40 4
    info := wordAt bytes 44 4
    alignment := wordAt bytes 48 8
    entrySize := wordAt bytes 56 8 }

def records (size : Nat) : Nat → List UInt8 → List (List UInt8)
  | 0, _ => []
  | count + 1, bytes => bytes.take size :: records size count (bytes.drop size)

/-- The bytes that a header leads to, if they lie in the file. -/
def contentsOf? (bytes : List UInt8) (header : SectionHeader) : Option (List UInt8) :=
  if header.type = noBitsType then some []
  else if bytes.length < header.offset + header.size then none
  else some ((bytes.drop header.offset).take header.size)

def decodeSymbol (names entry : List UInt8) : Option ObjectSymbol :=
  (StringTable.nameAt? names (wordAt entry 0 4)).map fun name =>
    let sectionNumber := wordAt entry 6 2
    { name
      sectionIndex? :=
        if sectionNumber = 0 ∨ reservedSections ≤ sectionNumber then none
        else some sectionNumber
      value := wordAt entry 8 8
      size := wordAt entry 16 8
      isFunction := wordAt entry 4 1 % 16 = 2 }

def decodeSymbols (bytes : List UInt8) (headers : List SectionHeader) :
    Except ImageError (List ObjectSymbol) :=
  match headers.find? fun header => header.type = symbolTableType with
  | none => .ok []
  | some table =>
      match contentsOf? bytes table with
      | none => .error .symbolsOutside
      | some contents =>
          let names := (headers[table.link]?.bind (contentsOf? bytes)).getD []
          let entries := records symbolSize (contents.length / symbolSize) contents
          .ok ((entries.drop 1).filterMap (decodeSymbol names))

def decodeSectionHeaders (bytes : List UInt8) : Except ImageError (List SectionHeader) :=
  let start := wordAt bytes 40 8
  let entrySize := wordAt bytes 58 2
  let count := wordAt bytes 60 2
  if start = 0 then .ok []
  else if entrySize ≠ sectionHeaderSize then .error .sectionEntrySize
  else if count = 0 ∧ bytes.length < start + sectionHeaderSize then .error .firstSectionOutside
  else
    let count := if count = 0 then (decodeSectionHeader (bytes.drop start)).size else count
    if count = 0 then .ok []
    else if bytes.length < start + sectionHeaderSize * count then .error .sectionHeadersOutside
    else .ok ((records sectionHeaderSize count (bytes.drop start)).map decodeSectionHeader)

/-- The section that a header leads to. A section whose name cannot be read counts as unnamed. -/
def decodeSection (bytes names : List UInt8) (header : SectionHeader) : OpenedSection :=
  { name := (StringTable.nameAt? names header.name).getD []
    contents :=
      match contentsOf? bytes header with
      | some contents => .ok contents
      | none => .error "Invalid ELF section size or offset" }

def decodeSections (bytes : List UInt8) (headers : List SectionHeader) :
    Except ImageError OpenedFile :=
  let nameIndex := wordAt bytes 62 2
  if headers.isEmpty then .ok { sections := [], symbols := [] }
  else if nameIndex = 0 then .error .missingNameSection
  else
    match headers[nameIndex]? with
    | none => .error .invalidNameSection
    | some nameHeader =>
        let names := (contentsOf? bytes nameHeader).getD []
        (decodeSymbols bytes headers).map fun symbols =>
          { sections := headers.map (decodeSection bytes names), symbols }

def decode (bytes : List UInt8) : Except ImageError OpenedFile :=
  if bytes.length < 16 then .error .missingMagic
  else if bytes.take 5 ≠ magic then .error .unknownMagic
  else if bytes.length < headerSize then .error .shortHeader
  else if wordAt bytes 5 1 ≠ 1 ∨ wordAt bytes 6 1 ≠ 1 then .error .unsupportedHeader
  else (decodeSectionHeaders bytes).bind (decodeSections bytes)

def zeroByteText : String := "assertion failed: !string.contains(&0)"

instance format : ObjectFormat where
  write file := if file.ZeroFree then .ok (encode file) else .error (.crashed (some zeroByteText))
  read bytes := (decode bytes).mapError ImageError.message

end Image
end FragmentLisp
