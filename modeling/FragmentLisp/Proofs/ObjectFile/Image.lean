import FragmentLisp.ObjectFile.Image
import FragmentLisp.Proofs.Bytes
import FragmentLisp.Proofs.ObjectFile
import FragmentLisp.Proofs.ObjectFile.StringTable

/-!
Reading an image gives back the object file that it was made of, behind an empty section and in front of
the three tables that the image adds. Section numbers therefore grow by one. This holds for every regular
file whose names have no zero byte, and so the format is lawful.
-/

namespace FragmentLisp
namespace Image

open Bytes

/-! Words and records. -/

theorem wordAt_head {width value : Nat} (rest : List UInt8) (fits : value < 256 ^ width) :
    wordAt (littleEndian width value ++ rest) 0 width = value := by
  rw [wordAt, List.drop_zero, List.take_left' (littleEndian_length width value),
    of_littleEndian_of_lt fits]

theorem wordAt_skip {field rest : List UInt8} {offset width : Nat} (skip : field.length ≤ offset) :
    wordAt (field ++ rest) offset width = wordAt rest (offset - field.length) width := by
  rw [wordAt, wordAt, List.drop_append, List.drop_of_length_le skip, List.nil_append]

theorem wordAt_last {width value : Nat} (fits : value < 256 ^ width) :
    wordAt (littleEndian width value) 0 width = value := by
  have found := @wordAt_head width value [] fits
  rwa [List.append_nil] at found

theorem records_flatMap {Item : Type} {size : Nat} (encodeItem : Item → List UInt8)
    (sized : ∀ item, (encodeItem item).length = size) (items : List Item) :
    records size items.length (items.flatMap encodeItem) = items.map encodeItem := by
  induction items with
  | nil => rfl
  | cons item rest inductionHypothesis =>
      rw [List.length_cons, records, List.flatMap_cons, List.take_left' (sized item),
        List.drop_left' (sized item), inductionHypothesis, List.map_cons]

theorem contentsOf_segment {bytes segment : List UInt8} (before after : List UInt8) {header : SectionHeader}
    (split : bytes = before ++ (segment ++ after)) (stored : header.type ≠ noBitsType)
    (start : header.offset = before.length) (length : header.size = segment.length) :
    contentsOf? bytes header = some segment := by
  have inside : ¬ bytes.length < before.length + segment.length := by
    rw [split]
    simp only [List.length_append]
    omega
  rw [contentsOf?, if_neg stored, start, length, if_neg inside, split, List.drop_left,
    List.take_left]

structure SectionHeader.Fits (header : SectionHeader) : Prop where
  name : header.name < 256 ^ 4
  type : header.type < 256 ^ 4
  flags : header.flags < 256 ^ 8
  offset : header.offset < 256 ^ 8
  size : header.size < 256 ^ 8
  link : header.link < 256 ^ 4
  info : header.info < 256 ^ 4
  alignment : header.alignment < 256 ^ 8
  entrySize : header.entrySize < 256 ^ 8

theorem encode_header_length (header : SectionHeader) :
    header.encode.length = sectionHeaderSize := by
  simp [SectionHeader.encode, sectionHeaderSize]

theorem decode_encode_header {header : SectionHeader} (fits : header.Fits) :
    decodeSectionHeader header.encode = header := by
  simp only [decodeSectionHeader, SectionHeader.encode, List.append_assoc, wordAt_skip,
    littleEndian_length, Nat.reduceLeDiff, Nat.reduceSub, Nat.le_refl]
  rw [wordAt_head _ fits.name, wordAt_head _ fits.type, wordAt_head _ fits.flags,
    wordAt_head _ fits.offset, wordAt_head _ fits.size, wordAt_head _ fits.link,
    wordAt_head _ fits.info, wordAt_head _ fits.alignment, wordAt_last fits.entrySize]

theorem encodeHeader_length (start count : Nat) : (encodeHeader start count).length = headerSize := by
  simp [encodeHeader, magic, headerSize]

theorem header_words {start count : Nat} (rest : List UInt8) (startFits : start < 256 ^ 8)
    (countFits : count < 256 ^ 2) :
    (encodeHeader start count ++ rest).take 5 = magic ∧
      wordAt (encodeHeader start count ++ rest) 5 1 = 1 ∧
      wordAt (encodeHeader start count ++ rest) 6 1 = 1 ∧
      wordAt (encodeHeader start count ++ rest) 40 8 = start ∧
      wordAt (encodeHeader start count ++ rest) 58 2 = sectionHeaderSize ∧
      wordAt (encodeHeader start count ++ rest) 60 2 = count ∧
      wordAt (encodeHeader start count ++ rest) 62 2 = count - 1 := by
  have lastFits : count - 1 < 256 ^ 2 := by omega
  have sizeFits : sectionHeaderSize < 256 ^ 2 := by decide
  refine ⟨by simp [encodeHeader, magic], by simp [encodeHeader, magic, wordAt, ofLittleEndian],
    by simp [encodeHeader, magic, wordAt, ofLittleEndian], ?_, ?_, ?_, ?_⟩
  all_goals
    simp only [encodeHeader, magic, List.append_assoc, wordAt_skip, List.length_cons,
      List.length_nil, List.length_replicate, littleEndian_length, Nat.reduceAdd, Nat.reduceLeDiff,
      Nat.reduceSub]
  · exact wordAt_head _ startFits
  · exact wordAt_head _ sizeFits
  · exact wordAt_head _ countFits
  · exact wordAt_head _ lastFits

/-! Symbols. -/

structure SymbolFits (names : StringTable) (symbol : ObjectSymbol) : Prop where
  name : StringTable.nameAt? names.bytes (names.offset symbol.name) = some symbol.name
  offset : names.offset symbol.name < 256 ^ 4
  placed : ∃ index, symbol.sectionIndex? = some index ∧ index + 1 < reservedSections
  value : symbol.value < 256 ^ 8
  size : symbol.size < 256 ^ 8

theorem encodeSymbol_length (names : StringTable) (symbol : ObjectSymbol) :
    (encodeSymbol names symbol).length = symbolSize := by
  simp [encodeSymbol, symbolSize]

theorem decode_encodeSymbol {names : StringTable} {symbol : ObjectSymbol}
    (fits : SymbolFits names symbol) :
    decodeSymbol names.bytes (encodeSymbol names symbol) = some (symbol.moved 1) := by
  obtain ⟨index, placed, ordinary⟩ := fits.placed
  have numberFits : index + 1 < 256 ^ 2 := by
    unfold reservedSections at ordinary
    omega
  have kind : wordAt (encodeSymbol names symbol) 4 1 = if symbol.isFunction then 2 else 1 := by
    simp only [encodeSymbol, List.append_assoc, wordAt_skip, littleEndian_length, Nat.le_refl,
      Nat.reduceSub]
    cases symbol.isFunction <;> simp [wordAt, ofLittleEndian]
  simp only [decodeSymbol, kind]
  simp only [encodeSymbol, placed, List.append_assoc, wordAt_skip, List.length_cons,
    List.length_nil, littleEndian_length, Nat.reduceAdd, Nat.reduceLeDiff, Nat.reduceSub,
    Nat.le_refl]
  rw [wordAt_head _ fits.offset, wordAt_head _ numberFits, wordAt_head _ fits.value,
    wordAt_last fits.size, fits.name]
  cases function : symbol.isFunction <;>
    simp [ObjectSymbol.moved, placed, ordinary, function]

/-! Sections. -/

theorem sections_of_contentHeaders {names : StringTable} {sections : List ObjectSection}
    (named : ∀ entry ∈ sections,
      StringTable.nameAt? names.bytes (names.offset entry.name) = some entry.name)
    {bytes before after : List UInt8}
    (split : bytes = before ++ ((sections.flatMap fun entry => entry.contents) ++ after)) :
    (contentHeaders names before.length sections).map (decodeSection bytes names.bytes) =
      sections.map ObjectSection.opened := by
  induction sections generalizing before with
  | nil => rfl
  | cons entry rest inductionHypothesis =>
      rw [List.flatMap_cons, List.append_assoc] at split
      have others := @inductionHypothesis
        (fun other member => named other (List.mem_cons_of_mem _ member)) (before ++ entry.contents)
        (by rw [split, List.append_assoc])
      rw [List.length_append] at others
      have stored : programType ≠ noBitsType := by decide
      rw [contentHeaders, List.map_cons, others, decodeSection, named entry List.mem_cons_self,
        contentsOf_segment before _ split stored rfl rfl]
      rfl

theorem contentHeaders_length (names : StringTable) (offset : Nat)
    (sections : List ObjectSection) :
    (contentHeaders names offset sections).length = sections.length := by
  induction sections generalizing offset with
  | nil => rfl
  | cons entry rest inductionHypothesis =>
      rw [contentHeaders, List.length_cons, inductionHypothesis, List.length_cons]

theorem contentHeaders_type {names : StringTable} {offset : Nat} {sections : List ObjectSection}
    {header : SectionHeader} (member : header ∈ contentHeaders names offset sections) :
    header.type = programType := by
  induction sections generalizing offset with
  | nil => simp [contentHeaders] at member
  | cons entry rest inductionHypothesis =>
      rcases List.mem_cons.mp member with rfl | later
      · rfl
      · exact inductionHypothesis later

theorem contentHeaders_fit {names : StringTable} {offset : Nat} {sections : List ObjectSection}
    (named : ∀ entry ∈ sections, names.offset entry.name < 256 ^ 4)
    (within : offset + (sections.flatMap fun entry => entry.contents).length < 256 ^ 8)
    {header : SectionHeader} (member : header ∈ contentHeaders names offset sections) :
    header.Fits := by
  induction sections generalizing offset with
  | nil => simp [contentHeaders] at member
  | cons entry rest inductionHypothesis =>
      rw [List.flatMap_cons, List.length_append] at within
      rcases List.mem_cons.mp member with rfl | later
      · have positive : 0 < 256 ^ 4 := by decide
        have flags : (if entry.executable then 6 else 2) < 256 ^ 8 := by
          split <;> decide
        constructor <;> simp only [programType] <;> first
          | exact named entry List.mem_cons_self
          | exact flags
          | omega
      · exact inductionHypothesis
          (fun other inside => named other (List.mem_cons_of_mem _ inside)) (by omega) later

/-! The layout of an image. -/

section Layout

variable (file : ObjectFile)

def contentBytes : List UInt8 :=
  file.sections.flatMap fun entry => entry.contents

def symbolNames : StringTable :=
  StringTable.ofNames (file.symbols.map fun symbol => symbol.name)

def sectionNames : StringTable :=
  StringTable.ofNames
    ((file.sections.map fun entry => entry.name) ++
      [symbolTableName, symbolNamesName, sectionNamesName])

def symbolRecords : List UInt8 :=
  List.replicate symbolSize 0 ++ file.symbols.flatMap (encodeSymbol (symbolNames file))

def contentsEnd : Nat :=
  headerSize + (contentBytes file).length

def symbolsStart : Nat :=
  contentsEnd file + (padding (contentsEnd file)).length

def symbolNamesStart : Nat :=
  symbolsStart file + (symbolRecords file).length

def sectionNamesStart : Nat :=
  symbolNamesStart file + (symbolNames file).bytes.length

def namesEnd : Nat :=
  sectionNamesStart file + (sectionNames file).bytes.length

def headersStart : Nat :=
  namesEnd file + (padding (namesEnd file)).length

def sectionCount : Nat :=
  file.sections.length + 4

def emptyHeader : SectionHeader :=
  ⟨0, 0, 0, 0, 0, 0, 0, 0, 0⟩

def symbolTableHeader : SectionHeader :=
  { name := (sectionNames file).offset symbolTableName
    type := symbolTableType
    flags := 0
    offset := symbolsStart file
    size := (symbolRecords file).length
    link := sectionCount file - 2
    info := file.symbols.length + 1
    alignment := 8
    entrySize := symbolSize }

def symbolNamesHeader : SectionHeader :=
  { name := (sectionNames file).offset symbolNamesName
    type := stringTableType
    flags := 0
    offset := symbolNamesStart file
    size := (symbolNames file).bytes.length
    link := 0
    info := 0
    alignment := 1
    entrySize := 0 }

def sectionNamesHeader : SectionHeader :=
  { name := (sectionNames file).offset sectionNamesName
    type := stringTableType
    flags := 0
    offset := sectionNamesStart file
    size := (sectionNames file).bytes.length
    link := 0
    info := 0
    alignment := 1
    entrySize := 0 }

def headers : List SectionHeader :=
  emptyHeader :: contentHeaders (sectionNames file) headerSize file.sections ++
    [symbolTableHeader file, symbolNamesHeader file, sectionNamesHeader file]

theorem encode_eq :
    encode file = encodeHeader (headersStart file) (sectionCount file) ++ (contentBytes file ++
      (padding (contentsEnd file) ++ (symbolRecords file ++ ((symbolNames file).bytes ++
        ((sectionNames file).bytes ++ (padding (namesEnd file) ++
          (headers file).flatMap SectionHeader.encode)))))) := by
  simp only [← List.append_assoc]
  rfl

end Layout

structure Writable (file : ObjectFile) : Prop where
  zeroFree : file.ZeroFree
  named : ∀ entry ∈ file.sections, entry.name ≠ []
  symbols : ∀ symbol ∈ file.symbols, ∃ index,
    symbol.sectionIndex? = some index ∧ index + 1 < reservedSections ∧
      symbol.value < 256 ^ 8 ∧ symbol.size < 256 ^ 8
  sectionCount : file.sections.length + 4 < 256 ^ 2
  symbolCount : file.symbols.length + 1 < 256 ^ 4
  sectionNameTable : (Image.sectionNames file).bytes.length < 256 ^ 4
  symbolNameTable : (Image.symbolNames file).bytes.length < 256 ^ 4
  length : (encode file).length < 256 ^ 8

section Reading

variable {file : ObjectFile}

theorem headers_length (file : ObjectFile) : (headers file).length = sectionCount file := by
  simp [headers, contentHeaders_length, sectionCount]

theorem headers_bytes_length (file : ObjectFile) :
    ((headers file).flatMap SectionHeader.encode).length =
      sectionHeaderSize * sectionCount file := by
  have sized : ((headers file).map fun header => header.encode.length).sum =
      (headers file).length * sectionHeaderSize := by
    rw [List.map_congr_left (fun header _ => encode_header_length header)]
    simp
  rw [List.length_flatMap, sized, headers_length, Nat.mul_comm]

theorem encode_length (file : ObjectFile) :
    (encode file).length = headersStart file + sectionHeaderSize * sectionCount file := by
  rw [encode_eq]
  simp only [List.length_append, encodeHeader_length, headers_bytes_length, headersStart, namesEnd,
    sectionNamesStart, symbolNamesStart, symbolsStart, contentsEnd]
  omega

theorem drop_headersStart (file : ObjectFile) :
    (encode file).drop (headersStart file) = (headers file).flatMap SectionHeader.encode := by
  rw [encode_eq]
  simp only [← List.append_assoc]
  apply List.drop_left'
  simp only [List.length_append, encodeHeader_length, headersStart, namesEnd,
    sectionNamesStart, symbolNamesStart, symbolsStart, contentsEnd]

theorem contents_of_symbolTable (file : ObjectFile) :
    contentsOf? (encode file) (symbolTableHeader file) = some (symbolRecords file) := by
  refine contentsOf_segment (encodeHeader (headersStart file) (sectionCount file) ++
    (contentBytes file ++ padding (contentsEnd file))) ((symbolNames file).bytes ++
      ((sectionNames file).bytes ++ (padding (namesEnd file) ++
        (headers file).flatMap SectionHeader.encode))) ?_ ?_ ?_ rfl
  · rw [encode_eq]
    simp only [List.append_assoc]
  · change symbolTableType ≠ noBitsType
    decide
  · simp only [symbolTableHeader, symbolsStart, contentsEnd, List.length_append,
      encodeHeader_length]
    omega

theorem contents_of_symbolNames (file : ObjectFile) :
    contentsOf? (encode file) (symbolNamesHeader file) = some (symbolNames file).bytes := by
  refine contentsOf_segment (encodeHeader (headersStart file) (sectionCount file) ++
    (contentBytes file ++ (padding (contentsEnd file) ++ symbolRecords file)))
    ((sectionNames file).bytes ++ (padding (namesEnd file) ++
      (headers file).flatMap SectionHeader.encode)) ?_ ?_ ?_ rfl
  · rw [encode_eq]
    simp only [List.append_assoc]
  · change stringTableType ≠ noBitsType
    decide
  · simp only [symbolNamesHeader, symbolNamesStart, symbolsStart, contentsEnd, List.length_append,
      encodeHeader_length]
    omega

theorem contents_of_sectionNames (file : ObjectFile) :
    contentsOf? (encode file) (sectionNamesHeader file) = some (sectionNames file).bytes := by
  refine contentsOf_segment (encodeHeader (headersStart file) (sectionCount file) ++
    (contentBytes file ++ (padding (contentsEnd file) ++ (symbolRecords file ++
      (symbolNames file).bytes)))) (padding (namesEnd file) ++
        (headers file).flatMap SectionHeader.encode) ?_ ?_ ?_ rfl
  · rw [encode_eq]
    simp only [List.append_assoc]
  · change stringTableType ≠ noBitsType
    decide
  · simp only [sectionNamesHeader, sectionNamesStart, symbolNamesStart, symbolsStart, contentsEnd,
      List.length_append, encodeHeader_length]
    omega

theorem headers_fit (writable : Writable file) {header : SectionHeader}
    (member : header ∈ headers file) : header.Fits := by
  have total := writable.length
  have symbolCount := writable.symbolCount
  have sectionCountFits := writable.sectionCount
  have named : ∀ name ∈ (file.sections.map fun entry => entry.name) ++
      [symbolTableName, symbolNamesName, sectionNamesName],
      (sectionNames file).offset name < 256 ^ 4 := by
    intro name inside
    exact Nat.lt_trans (StringTable.offset_lt_length inside) writable.sectionNameTable
  have symbolTableNamed := named symbolTableName (by simp)
  have symbolNamesNamed := named symbolNamesName (by simp)
  have sectionNamesNamed := named sectionNamesName (by simp)
  rw [encode_length] at total
  simp only [headersStart, namesEnd, sectionNamesStart, symbolNamesStart, symbolsStart,
    contentsEnd] at total
  rw [headers, List.cons_append, List.mem_cons, List.mem_append] at member
  rcases member with rfl | content | table
  · constructor <;> decide
  · refine contentHeaders_fit ?_ ?_ content
    · intro entry inside
      exact named entry.name (List.mem_append_left _ (List.mem_map.mpr ⟨entry, inside, rfl⟩))
    · change headerSize + (contentBytes file).length < 256 ^ 8
      omega
  · simp only [List.mem_cons, List.not_mem_nil, or_false] at table
    rcases table with rfl | rfl | rfl
    all_goals
      constructor <;> simp only [symbolTableHeader, symbolNamesHeader, sectionNamesHeader,
        symbolTableType, stringTableType, symbolSize, sectionCount, sectionNamesStart,
        symbolNamesStart, symbolsStart, contentsEnd] <;> omega

theorem image_words (writable : Writable file) :
    (encode file).take 5 = magic ∧ wordAt (encode file) 5 1 = 1 ∧ wordAt (encode file) 6 1 = 1 ∧
      wordAt (encode file) 40 8 = headersStart file ∧
      wordAt (encode file) 58 2 = sectionHeaderSize ∧
      wordAt (encode file) 60 2 = sectionCount file ∧
      wordAt (encode file) 62 2 = sectionCount file - 1 := by
  have total := writable.length
  have length := encode_length file
  have startFits : headersStart file < 256 ^ 8 := by omega
  have countFits : sectionCount file < 256 ^ 2 := writable.sectionCount
  rw [encode_eq]
  exact header_words _ startFits countFits

theorem decodeSectionHeaders_encode (writable : Writable file) :
    decodeSectionHeaders (encode file) = .ok (headers file) := by
  have length := encode_length file
  obtain ⟨_, _, _, start, entrySize, count, _⟩ := image_words writable
  have startPositive : headersStart file ≠ 0 := by
    unfold headersStart namesEnd sectionNamesStart symbolNamesStart symbolsStart contentsEnd
      headerSize
    omega
  have countPositive : sectionCount file ≠ 0 := by
    unfold sectionCount
    omega
  unfold decodeSectionHeaders
  simp only [start, entrySize, count, startPositive, countPositive, if_false, ne_eq, not_true,
    false_and, length, Nat.lt_irrefl]
  rw [drop_headersStart, ← headers_length,
    records_flatMap SectionHeader.encode encode_header_length, List.map_map]
  have restored : (headers file).map (decodeSectionHeader ∘ SectionHeader.encode) =
      (headers file).map id :=
    List.map_congr_left fun header member => decode_encode_header (headers_fit writable member)
  rw [restored, List.map_id]

theorem decodeSymbols_encode (writable : Writable file) :
    decodeSymbols (encode file) (headers file) = .ok (file.symbols.map (ObjectSymbol.moved 1)) := by
  have table : (headers file).find? (fun header => header.type = symbolTableType) =
      some (symbolTableHeader file) := by
    have others : (contentHeaders (sectionNames file) headerSize file.sections).find?
        (fun header => decide (header.type = symbolTableType)) = none := by
      rw [List.find?_eq_none]
      intro header member
      rw [contentHeaders_type member]
      decide
    rw [headers, List.cons_append, List.find?_cons_of_neg (by decide), List.find?_append, others]
    rfl
  have linked : (headers file)[(symbolTableHeader file).link]? = some (symbolNamesHeader file) := by
    have index : (symbolTableHeader file).link =
        (contentHeaders (sectionNames file) headerSize file.sections).length + 2 := by
      rw [contentHeaders_length]
      rfl
    rw [index, headers, List.cons_append, List.getElem?_cons_succ,
      List.getElem?_append_right (by omega)]
    simp
  have sized : (symbolRecords file).length / symbolSize = file.symbols.length + 1 := by
    have all : (file.symbols.map fun symbol => (encodeSymbol (symbolNames file) symbol).length).sum
        = file.symbols.length * symbolSize := by
      rw [List.map_congr_left fun symbol _ => encodeSymbol_length (symbolNames file) symbol]
      simp
    rw [symbolRecords, List.length_append, List.length_replicate, List.length_flatMap, all]
    unfold symbolSize
    omega
  unfold decodeSymbols
  rw [table]
  simp only [linked, contents_of_symbolTable, Option.bind_some, contents_of_symbolNames,
    Option.getD_some, sized]
  rw [records, symbolRecords, List.drop_left' List.length_replicate,
    records_flatMap _ (encodeSymbol_length _), List.drop_one, List.tail_cons, List.filterMap_map]
  have readable : ∀ symbol ∈ file.symbols,
      decodeSymbol (symbolNames file).bytes (encodeSymbol (symbolNames file) symbol) =
        some (symbol.moved 1) := by
    intro symbol member
    have inside : symbol.name ∈ file.symbols.map fun symbol => symbol.name :=
      List.mem_map.mpr ⟨symbol, member, rfl⟩
    obtain ⟨index, placed, ordinary, value, size⟩ := writable.symbols symbol member
    exact decode_encodeSymbol
      ⟨StringTable.nameAt_offset inside (writable.zeroFree.symbols symbol member),
        Nat.lt_trans (StringTable.offset_lt_length inside) writable.symbolNameTable,
        ⟨index, placed, ordinary⟩, value, size⟩
  simp only [Function.comp_def]
  rw [List.filterMap_congr (g := some ∘ ObjectSymbol.moved 1) readable, List.filterMap_eq_map]

def emptySection : OpenedSection :=
  { name := [], contents := .ok [] }

theorem opensAs_of_decode (writable : Writable file) :
    ∃ found, decode (encode file) = .ok found ∧ file.OpensAs found := by
  have length := encode_length file
  obtain ⟨magical, littleEndian, version, _, _, _, last⟩ := image_words writable
  have long : headerSize ≤ (encode file).length := by
    rw [length]
    unfold headersStart namesEnd sectionNamesStart symbolNamesStart symbolsStart contentsEnd
    omega
  have sections : decodeSections (encode file) (headers file) =
      .ok { sections := (headers file).map (decodeSection (encode file) (sectionNames file).bytes)
            symbols := file.symbols.map (ObjectSymbol.moved 1) } := by
    have named : (headers file)[sectionCount file - 1]? = some (sectionNamesHeader file) := by
      have index : sectionCount file - 1 =
          (contentHeaders (sectionNames file) headerSize file.sections).length + 3 := by
        rw [contentHeaders_length]
        rfl
      rw [index, headers, List.cons_append, List.getElem?_cons_succ,
        List.getElem?_append_right (by omega)]
      simp
    have present : (headers file).isEmpty = false := rfl
    have positive : sectionCount file - 1 ≠ 0 := by
      unfold sectionCount
      omega
    unfold decodeSections
    simp only [last, named, present, positive, if_false, Bool.false_eq_true,
      contents_of_sectionNames, decodeSymbols_encode writable]
    rfl
  have own : (contentHeaders (sectionNames file) headerSize file.sections).map
      (decodeSection (encode file) (sectionNames file).bytes) =
        file.sections.map ObjectSection.opened := by
    have split := encode_eq file
    rw [← encodeHeader_length (headersStart file) (sectionCount file)]
    refine sections_of_contentHeaders ?_ split
    intro entry member
    exact StringTable.nameAt_offset (List.mem_append_left
      [symbolTableName, symbolNamesName, sectionNamesName]
      (List.mem_map.mpr ⟨entry, member, rfl⟩ :
        entry.name ∈ file.sections.map fun entry => entry.name))
      (writable.zeroFree.sections entry member)
  have first : decodeSection (encode file) (sectionNames file).bytes emptyHeader = emptySection := by
    have unnamed := StringTable.nameAt_of_spells (StringTable.ofNames_first
      ((file.sections.map fun entry => entry.name) ++
        [symbolTableName, symbolNamesName, sectionNamesName])) List.not_mem_nil
    change StringTable.nameAt? (sectionNames file).bytes 0 = some [] at unnamed
    simp [decodeSection, emptyHeader, emptySection, unnamed, contentsOf?, noBitsType]
  have short : ¬ (encode file).length < 16 := by
    unfold headerSize at long
    omega
  let tables := [symbolTableHeader file, symbolNamesHeader file, sectionNamesHeader file].map
    (decodeSection (encode file) (sectionNames file).bytes)
  refine ⟨⟨[emptySection] ++ (file.opened.sections ++ tables),
    file.symbols.map (ObjectSymbol.moved 1)⟩, ?_, [emptySection], tables, rfl, ?_, rfl⟩
  · unfold decode
    rw [if_neg short, if_neg (by simp [magical]), if_neg (by omega),
      if_neg (by simp [littleEndian, version]), decodeSectionHeaders_encode writable]
    simp only [Except.bind]
    rw [sections, headers, List.map_append, List.map_cons, first, own]
    rfl
  · intro extra member entry inside same
    obtain rfl := List.mem_singleton.mp member
    exact writable.named entry inside same.symm

theorem padding_length (size : Nat) : (padding size).length < 8 := by
  rw [padding, List.length_replicate]
  omega

theorem symbolRecords_length (file : ObjectFile) :
    (symbolRecords file).length = 24 + file.symbols.length * 24 := by
  have each := List.map_congr_left fun symbol (_ : symbol ∈ file.symbols) =>
    encodeSymbol_length (symbolNames file) symbol
  rw [symbolRecords, List.length_append, List.length_replicate, List.length_flatMap, each,
    List.map_const', List.sum_replicate, Nat.nsmul_eq_mul]
  rfl

theorem footprint_eq (file : ObjectFile) :
    file.footprint = 1024 + ((file.sections.map fun entry => entry.name.length + 1).sum +
      file.sections.length * 64 + (contentBytes file).length) +
        ((file.symbols.map fun symbol => symbol.name.length + 1).sum + file.symbols.length * 64) := by
  have sections : ∀ sections : List ObjectSection,
      (sections.map fun entry => entry.name.length + 65 + entry.contents.length).sum =
        (sections.map fun entry => entry.name.length + 1).sum + sections.length * 64 +
          (sections.flatMap fun entry => entry.contents).length := by
    intro sections
    induction sections with
    | nil => rfl
    | cons entry rest inductionHypothesis =>
        simp only [List.map_cons, List.sum_cons, List.length_cons, List.flatMap_cons,
          List.length_append, inductionHypothesis]
        omega
  have symbols : ∀ symbols : List ObjectSymbol,
      (symbols.map fun symbol => symbol.name.length + 65).sum =
        (symbols.map fun symbol => symbol.name.length + 1).sum + symbols.length * 64 := by
    intro symbols
    induction symbols with
    | nil => rfl
    | cons symbol rest inductionHypothesis =>
        simp only [List.map_cons, List.sum_cons, List.length_cons, inductionHypothesis]
        omega
  rw [ObjectFile.footprint, sections, symbols]
  rfl

/-- The tables of names are hardly longer than the names. -/
theorem nameTables_length (file : ObjectFile) :
    (sectionNames file).bytes.length ≤
        27 + (file.sections.map fun entry => entry.name.length + 1).sum ∧
      (symbolNames file).bytes.length ≤
        1 + (file.symbols.map fun symbol => symbol.name.length + 1).sum := by
  have sections := StringTable.ofNames_length ((file.sections.map fun entry => entry.name) ++
    [symbolTableName, symbolNamesName, sectionNamesName])
  have symbols := StringTable.ofNames_length (file.symbols.map fun symbol => symbol.name)
  have own : ([symbolTableName, symbolNamesName, sectionNamesName].map fun name =>
      name.length + 1).sum = 26 := rfl
  rw [List.map_append, List.sum_append, own, List.map_map] at sections
  rw [List.map_map] at symbols
  simp only [Function.comp_def] at sections symbols
  exact ⟨by unfold sectionNames; omega, symbols⟩

theorem encode_length_le (file : ObjectFile) : (encode file).length ≤ file.footprint := by
  obtain ⟨sections, symbols⟩ := nameTables_length file
  have firstPadding := padding_length (contentsEnd file)
  have lastPadding := padding_length (namesEnd file)
  rw [encode_length, footprint_eq, headersStart]
  generalize (padding (namesEnd file)).length = last at lastPadding ⊢
  rw [namesEnd, sectionNamesStart, symbolNamesStart, symbolRecords_length, symbolsStart]
  generalize (padding (contentsEnd file)).length = first at firstPadding ⊢
  rw [contentsEnd, sectionCount]
  unfold headerSize sectionHeaderSize
  omega

theorem writable_of_regular (regular : file.Regular) (zeroFree : file.ZeroFree)
    (addressable : (encode file).length < 2 ^ 64) : Writable file := by
  obtain ⟨sectionTable, symbolTable⟩ := nameTables_length file
  have few := regular.sections
  have names := regular.names
  rw [ObjectFile.names, List.map_append, List.sum_append, List.map_map, List.map_map] at names
  simp only [Function.comp_def] at names
  have counted : file.symbols.length ≤
      (file.symbols.map fun symbol => symbol.name.length + 1).sum := by
    have each := List.card_nsmul_le_sum
      (file.symbols.map fun symbol => symbol.name.length + 1) 1 fun length member => by
        obtain ⟨symbol, _, rfl⟩ := List.mem_map.mp member
        omega
    rwa [List.length_map, Nat.nsmul_eq_mul, Nat.mul_one] at each
  refine ⟨zeroFree, regular.named, ?_, by omega, by omega, by omega, by omega, addressable⟩
  intro symbol member
  obtain ⟨index, entry, placed, held, within⟩ := regular.placed symbol member
  have bounded := (List.getElem?_eq_some_iff.mp held).1
  have contents : entry.contents.length ≤ (contentBytes file).length := by
    rw [contentBytes, List.length_flatMap]
    exact List.le_sum_of_mem (List.mem_map.mpr ⟨entry, List.mem_of_getElem? held, rfl⟩)
  have length := encode_length file
  unfold headersStart namesEnd sectionNamesStart symbolNamesStart symbolsStart contentsEnd at length
  unfold reservedSections
  exact ⟨index, placed, by omega, by omega, by omega⟩

theorem format_write_eq (file : ObjectFile) :
    ObjectFormat.write file =
      if file.ZeroFree then .ok (encode file) else .error (.crashed (some zeroByteText)) :=
  rfl

instance : LawfulObjectFormat where
  writes {file} free := ⟨encode file, by rw [format_write_eq, if_pos free], encode_length_le file⟩
  crashes := ⟨some zeroByteText, fun file held => by rw [format_write_eq, if_neg held]⟩
  readsBack {file image} regular written addressable := by
    rw [format_write_eq] at written
    by_cases free : file.ZeroFree
    · rw [if_pos free] at written
      obtain rfl := Except.ok.inj written
      obtain ⟨found, decoded, opens⟩ :=
        opensAs_of_decode (writable_of_regular regular free addressable)
      refine ⟨found, ?_, opens⟩
      change (decode (encode file)).mapError ImageError.message = .ok found
      rw [decoded]
      rfl
    · rw [if_neg free] at written
      cases written

end Reading

end Image
end FragmentLisp
