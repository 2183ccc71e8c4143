import Saad.X64.GlobalData
import Saad.X64.SymbolsApart

/-! # The data of a global is assembled as it is

Each line of the data puts its bytes into the section and nothing else. So by induction on the lines
the section gets the bytes of the global, with a relocation for each of its pointers.
-/

namespace Saad

open General

section Texts

theorem asmParseNumber_byteText : ∀ byte : BitVec 8, asmParseNumber (x64ByteText byte) = some byte.toNat := by
  decide

theorem isDigit_digitByte : ∀ n < 10, isDigit (digitByte n) = true := by decide

theorem byteText_digits (byte : BitVec 8) : ∀ c ∈ x64ByteText byte, isDigit c = true := by
  have below := byte.isLt
  have digit : ∀ n, n < 10 → ∀ c ∈ [digitByte n], isDigit c = true := by
    intro n lt c member
    rw [List.mem_singleton.mp member]
    exact isDigit_digitByte n lt
  intro c member
  obtain member | ones := List.mem_append.mp member
  · obtain hundreds | tens := List.mem_append.mp member
    · split at hundreds
      · exact digit _ (by omega) c hundreds
      · exact absurd hundreds List.not_mem_nil
    · split at tens
      · exact digit _ (by omega) c tens
      · exact absurd tens List.not_mem_nil
  · exact digit _ (by omega) c ones

theorem byteText_ne_nil (byte : BitVec 8) : x64ByteText byte ≠ [] := by
  simp [x64ByteText]

theorem length_byteText_le (byte : BitVec 8) : (x64ByteText byte).length ≤ 3 := by
  unfold x64ByteText
  dsimp only
  split <;> split <;> simp

/-- Bytes that neither are blanks nor begin a comment or string. -/
def IsWordByte (c : BitVec 8) : Prop :=
  c ≠ 0x22 ∧ c ≠ 0x27 ∧ c ≠ 0x3B ∧ isAsmBlank c = false ∧ c ≠ 0x0A ∧ c ≠ 0x0D ∧ c ≠ comma

theorem wordByte_of_digit : ∀ c : BitVec 8, isDigit c = true → IsWordByte c := by
  unfold IsWordByte
  decide

theorem wordByte_of_symbolByte : ∀ c : BitVec 8, isSymbolByte c = true → IsWordByte c := by
  unfold IsWordByte
  decide

theorem length_byteList_le (bytes : List (BitVec 8)) : (x64ByteList bytes).length ≤ 5 * bytes.length := by
  cases bytes with
  | nil => exact le_rfl
  | cons byte rest =>
    have first := length_byteText_le byte
    have others : (rest.flatMap fun byte => comma :: 0x20 :: x64ByteText byte).length ≤ 5 * rest.length := by
      induction rest with
      | nil => exact le_rfl
      | cons byte rest ih =>
        have next := length_byteText_le byte
        simp only [List.flatMap_cons, List.length_append, List.length_cons]
        omega
    rw [x64ByteList, List.length_append, List.length_cons]
    omega

/-- The list of bytes is read as one item for each byte. -/
theorem splitOn_byteList (first : Text) (free : comma ∉ first) (bytes : List (BitVec 8)) :
    (first ++ bytes.flatMap fun byte => comma :: 0x20 :: x64ByteText byte).splitOn comma =
      first :: bytes.map fun byte => 0x20 :: x64ByteText byte := by
  induction bytes generalizing first with
  | nil => simp [List.splitOn_eq_singleton free]
  | cons byte rest ih =>
    have next_free : comma ∉ 0x20 :: x64ByteText byte := by
      intro member
      obtain same | digit := List.mem_cons.mp member
      · revert same
        decide
      · exact (wordByte_of_digit _ (byteText_digits byte _ digit)).2.2.2.2.2.2 rfl
    have next := ih (0x20 :: x64ByteText byte) next_free
    rw [List.flatMap_cons, List.cons_append, List.splitOn_append_cons_self_of_not_mem free, List.map_cons]
    exact congrArg _ next

end Texts

section Objects

namespace AsmObject

variable {obj next : AsmObject} {name : Text} {index : ℕ}

theorem findSymbol_eq (obj : AsmObject) (name : Text) :
    obj.findSymbol name = (obj.symbols.map AsmSymbol.name).findIdx? (· = name) := by
  rw [List.findIdx?_map]
  rfl

/-- A symbol is found under the same index when other symbols come behind it. -/
theorem findSymbol_of_names_prefix (found : obj.findSymbol name = some index)
    (grows : obj.symbols.map AsmSymbol.name <+: next.symbols.map AsmSymbol.name) :
    next.findSymbol name = some index := by
  obtain ⟨more, names⟩ := grows
  rw [findSymbol_eq] at found ⊢
  rw [← names, List.findIdx?_append, found]
  rfl

/-- The symbol with the name is the same from then on, and at most it comes behind the others. -/
theorem asmSymbol_spec (obj : AsmObject) (name : Text) :
    ∃ more, (obj.asmSymbol name).2 = { obj with symbols := obj.symbols ++ more } ∧
      (obj.asmSymbol name).2.findSymbol name = some (obj.asmSymbol name).1 := by
  unfold asmSymbol
  cases found : obj.findSymbol name with
  | some index => exact ⟨[], by rw [List.append_nil], found⟩
  | none =>
    refine ⟨[{ name }], rfl, ?_⟩
    have absent := found
    simp only [findSymbol] at absent ⊢
    rw [List.findIdx?_append, absent]
    simp

end AsmObject

end Objects

/-- Bytes and relocations are behind those of the section, there may be more symbols, and all else is
as before. -/
structure Appended (as after : Assembler) (out : List (BitVec 8)) (added : List (AsmSectionId × AsmReloc)) :
    Prop where
  bytes : after.obj.bytes = Function.update as.obj.bytes as.sectionId (as.bytes ++ out)
  alignment : after.obj.alignment = as.obj.alignment
  symbols : as.obj.symbols <+: after.obj.symbols
  relocs : after.obj.relocs = as.obj.relocs ++ added
  sectionId : after.sectionId = as.sectionId
  scope : after.scope = as.scope
  itemCount : after.itemCount = as.itemCount
  labelItem : after.labelItem = as.labelItem

namespace Appended

variable {as next after : Assembler} {out more : List (BitVec 8)} {added others : List (AsmSectionId × AsmReloc)}

theorem refl (as : Assembler) : Appended as as [] [] where
  bytes := by rw [List.append_nil, Assembler.bytes, Function.update_eq_self]
  alignment := rfl
  symbols := List.prefix_rfl
  relocs := (List.append_nil _).symm
  sectionId := rfl
  scope := rfl
  itemCount := rfl
  labelItem := rfl

theorem put (as : Assembler) (out : List (BitVec 8)) : Appended as (as.put out) out [] where
  bytes := rfl
  alignment := rfl
  symbols := List.prefix_rfl
  relocs := (List.append_nil _).symm
  sectionId := rfl
  scope := rfl
  itemCount := rfl
  labelItem := rfl

theorem bytes_eq (appended : Appended as after out added) : after.bytes = as.bytes ++ out := by
  rw [Assembler.bytes, appended.sectionId, appended.bytes, Function.update_self]

theorem trans (first : Appended as next out added) (second : Appended next after more others) :
    Appended as after (out ++ more) (added ++ others) where
  bytes := by
    rw [second.bytes, first.bytes_eq, first.bytes, first.sectionId, Function.update_idem, List.append_assoc]
  alignment := second.alignment.trans first.alignment
  symbols := first.symbols.trans second.symbols
  relocs := by rw [second.relocs, first.relocs, List.append_assoc]
  sectionId := second.sectionId.trans first.sectionId
  scope := second.scope.trans first.scope
  itemCount := second.itemCount.trans first.itemCount
  labelItem := second.labelItem.trans first.labelItem

end Appended

section Lines

variable (asmInstruction : Assembler → Text → Text → ℕ → Text → Except Text Assembler)
variable (as : Assembler) (number : ℕ)

/-- A line of data is read as its directive. -/
theorem asmLine_directive {word rest : Text} (known : word ∈ Assembler.dataDirectives)
    (plain : ∀ c ∈ rest, c ≠ 0x22 ∧ c ≠ 0x27 ∧ c ≠ 0x3B)
    (head : ∃ c tail, rest = c :: tail ∧ IsWordByte c) (last : ∃ start c, rest = start ++ [c] ∧ IsWordByte c)
    (short : rest.length < 1000) :
    as.asmLine asmInstruction number (directiveLine word rest) =
      as.asmDataLine word rest number (word ++ 0x20 :: rest) := by
  have words : ∀ word ∈ Assembler.dataDirectives, word.length ≤ 5 ∧
      (∀ c ∈ word, IsWordByte c) ∧ word ≠ [] ∧ word ≠ asciiBytes "bits" ∧ word ≠ asciiBytes "default" ∧
      word ≠ asciiBytes "section" ∧ word ≠ asciiBytes "extern" ∧ word ≠ asciiBytes "global" := by
    unfold IsWordByte
    decide
  obtain ⟨length, bytes, nonempty, not_bits, not_default, not_section, not_imported, not_global⟩ := words word known
  obtain ⟨first, tail, rest_eq, first_word⟩ := head
  obtain ⟨start, final, ends, final_word⟩ := last
  have line_eq : directiveLine word rest = (0x09 :: (word ++ 0x20 :: start)) ++ [final] := by
    rw [directiveLine, ends]
    simp
  have stripped : asmStripComment false (directiveLine word rest) = directiveLine word rest := by
    apply asmStripComment_of_plain
    intro c member
    obtain rfl | member := List.mem_cons.mp member
    · decide
    obtain inWord | member := List.mem_append.mp member
    · obtain ⟨double, single, comment, -⟩ := bytes c inWord
      exact ⟨double, single, comment⟩
    obtain rfl | inRest := List.mem_cons.mp member
    · decide
    · exact plain c inRest
  have trimmed : asmTrimEnd (directiveLine word rest) = directiveLine word rest := by
    obtain ⟨-, -, -, blank, -, cr, -⟩ := final_word
    rw [line_eq]
    apply List.rdropWhile_concat_neg
    rw [blank, beq_false_of_ne cr]
    decide
  have skipped : asmSkipSpaces (directiveLine word rest) = word ++ 0x20 :: rest := by
    obtain ⟨c, others, word_eq⟩ := List.exists_cons_of_ne_nil nonempty
    have blank := (bytes c (by rw [word_eq]; exact List.mem_cons_self)).2.2.2.1
    rw [asmSkipSpaces, directiveLine, List.dropWhile_cons_of_pos (by decide), word_eq, List.cons_append,
      List.dropWhile_cons_of_neg (by simp [blank])]
  have no_label : asmLabel as.scope (directiveLine word rest) = none := by
    unfold asmLabel
    rw [stripped, trimmed]
    rfl
  have first_part : ((word ++ 0x20 :: rest).takeWhile fun c => !isAsmBlank c).take 31 = word := by
    rw [List.takeWhile_append_of_pos fun c member => by rw [(bytes c member).2.2.2.1]; rfl,
      List.takeWhile_cons_of_neg (by decide), List.append_nil, List.take_of_length_le (by omega)]
  have second_part : asmSkipSpaces ((word ++ 0x20 :: rest).drop word.length) = rest := by
    rw [List.drop_left, asmSkipSpaces, List.dropWhile_cons_of_pos (by decide), rest_eq,
      List.dropWhile_cons_of_neg (by simp [first_word.2.2.2.1])]
  have fits : ¬1024 ≤ (directiveLine word rest).length := by
    rw [directiveLine, List.length_cons, List.length_append, List.length_cons]
    omega
  have some_text : word ++ 0x20 :: rest ≠ [] := List.append_ne_nil_of_left_ne_nil nonempty _
  unfold Assembler.asmLine
  dsimp only
  rw [if_neg fits, stripped, trimmed, skipped, if_neg some_text, no_label]
  unfold Assembler.asmDirective
  dsimp only
  rw [first_part, second_part, if_neg (not_or.mpr ⟨not_bits, not_default⟩), if_neg not_section,
    if_neg (not_or.mpr ⟨not_imported, not_global⟩), if_pos known]

theorem ends_of_wordBytes {text : Text} (nonempty : text ≠ []) (bytes : ∀ c ∈ text, IsWordByte c) :
    (∃ c tail, text = c :: tail ∧ IsWordByte c) ∧ ∃ start c, text = start ++ [c] ∧ IsWordByte c := by
  obtain ⟨c, tail, text_eq⟩ := List.exists_cons_of_ne_nil nonempty
  refine ⟨⟨c, tail, text_eq, bytes c (by rw [text_eq]; exact List.mem_cons_self)⟩,
    text.dropLast, text.getLast nonempty, (List.dropLast_append_getLast nonempty).symm, ?_⟩
  exact bytes _ (List.getLast_mem nonempty)

theorem plain_of_wordBytes {text : Text} (bytes : ∀ c ∈ text, IsWordByte c) :
    ∀ c ∈ text, c ≠ 0x22 ∧ c ≠ 0x27 ∧ c ≠ 0x3B := by
  intro c member
  obtain ⟨double, single, comment, -⟩ := bytes c member
  exact ⟨double, single, comment⟩

theorem decimalText_wordBytes (n : ℕ) : ∀ c ∈ decimalText n, IsWordByte c :=
  fun _ member => wordByte_of_digit _ (isDigit_of_mem_decimalText member)

/-- The blanks around an item are left out. -/
theorem trim_item {item : Text} (blanks : Text) (all : ∀ c ∈ blanks, isAsmBlank c = true)
    (nonempty : item ≠ []) (bytes : ∀ c ∈ item, IsWordByte c) :
    (asmSkipSpaces (blanks ++ item)).rdropWhile (fun c => isAsmBlank c || c == 0x0A || c == 0x0D) = item := by
  obtain ⟨⟨c, tail, item_eq, head⟩, start, final, ends, last⟩ := ends_of_wordBytes nonempty bytes
  have skipped : asmSkipSpaces (blanks ++ item) = item := by
    rw [asmSkipSpaces, List.dropWhile_append_of_pos all, item_eq,
      List.dropWhile_cons_of_neg (by simp [head.2.2.2.1])]
  obtain ⟨-, -, -, blank, lf, cr, -⟩ := last
  rw [skipped, ends]
  apply List.rdropWhile_concat_neg
  rw [blank, beq_false_of_ne lf, beq_false_of_ne cr]
  decide

section Put

theorem put_put (as : Assembler) (first second : List (BitVec 8)) :
    (as.put first).put second = as.put (first ++ second) := by
  simp [Assembler.put, AsmObject.put]

theorem put_nil (as : Assembler) : as.put [] = as := by
  simp [Assembler.put, AsmObject.put]

end Put

theorem asmDataItem_byte (byte : BitVec 8) (blanks : Text) (all : ∀ c ∈ blanks, isAsmBlank c = true)
    (text : Text) : as.asmDataItem 1 number text (blanks ++ x64ByteText byte) = .ok (as.put [byte]) := by
  have trimmed := trim_item blanks all (byteText_ne_nil byte)
    fun c member => wordByte_of_digit c (byteText_digits byte c member)
  have bytes : littleEndian 1 (byte.toNat : ℤ) = [byte] := by
    simp [littleEndian]
  unfold Assembler.asmDataItem
  dsimp only
  rw [trimmed, if_neg (byteText_ne_nil byte), asmParseNumber_byteText]
  exact congrArg (fun out => Except.ok (as.put out)) bytes

theorem foldlM_bytes (text : Text) (bytes : List (BitVec 8)) (as : Assembler) :
    (bytes.map fun byte => 0x20 :: x64ByteText byte).foldlM
      (fun as item => as.asmDataItem 1 number text item) as = .ok (as.put bytes) := by
  induction bytes generalizing as with
  | nil =>
    rw [put_nil]
    rfl
  | cons byte rest ih =>
    have item := asmDataItem_byte as number byte [0x20] (by decide) text
    rw [List.singleton_append] at item
    rw [List.map_cons, List.foldlM_cons, item]
    exact (ih (as.put [byte])).trans (by rw [put_put, List.singleton_append])

theorem byteList_bytes (bytes : List (BitVec 8)) :
    ∀ c ∈ x64ByteList bytes, isDigit c = true ∨ c = comma ∨ c = 0x20 := by
  cases bytes with
  | nil => exact fun c member => absurd member List.not_mem_nil
  | cons byte rest =>
    intro c member
    obtain first | others := List.mem_append.mp member
    · exact .inl (byteText_digits byte c first)
    · obtain ⟨next, -, member⟩ := List.mem_flatMap.mp others
      obtain rfl | member := List.mem_cons.mp member
      · exact .inr (.inl rfl)
      obtain rfl | digit := List.mem_cons.mp member
      · exact .inr (.inr rfl)
      · exact .inl (byteText_digits next c digit)

/-- A list of bytes begins and ends with a digit. -/
theorem byteList_ends {bytes : List (BitVec 8)} (nonempty : bytes ≠ []) :
    (∃ c tail, x64ByteList bytes = c :: tail ∧ IsWordByte c) ∧
      ∃ start c, x64ByteList bytes = start ++ [c] ∧ IsWordByte c := by
  obtain ⟨byte, rest, rfl⟩ := List.exists_cons_of_ne_nil nonempty
  have digits (byte : BitVec 8) := ends_of_wordBytes (byteText_ne_nil byte)
    fun c member => wordByte_of_digit c (byteText_digits byte c member)
  constructor
  · obtain ⟨c, tail, text, word⟩ := (digits byte).1
    exact ⟨c, tail ++ rest.flatMap fun byte => comma :: 0x20 :: x64ByteText byte,
      by rw [x64ByteList, text, List.cons_append], word⟩
  · obtain rfl | ⟨others, final, rfl⟩ := List.eq_nil_or_concat rest
    · obtain ⟨start, c, text, word⟩ := (digits byte).2
      exact ⟨start, c, by rw [x64ByteList, text, List.flatMap_nil, List.append_nil], word⟩
    · obtain ⟨start, c, text, word⟩ := (digits final).2
      refine ⟨x64ByteText byte ++ (others.flatMap fun byte => comma :: 0x20 :: x64ByteText byte) ++
        comma :: 0x20 :: start, c, ?_, word⟩
      simp [x64ByteList, text]

/-- A line of bytes puts them into the section. -/
theorem asmLine_db {bytes : List (BitVec 8)} (nonempty : bytes ≠ []) (short : bytes.length ≤ 16) :
    as.asmLine asmInstruction number (dbLine bytes) = .ok (as.put bytes) := by
  obtain ⟨head, last⟩ := byteList_ends nonempty
  have length := length_byteList_le bytes
  have plain : ∀ c ∈ x64ByteList bytes, c ≠ 0x22 ∧ c ≠ 0x27 ∧ c ≠ 0x3B := by
    intro c member
    obtain digit | rfl | rfl := byteList_bytes bytes c member
    · obtain ⟨double, single, comment, -⟩ := wordByte_of_digit c digit
      exact ⟨double, single, comment⟩
    · decide
    · decide
  rw [dbLine, asmLine_directive asmInstruction as number (by decide) plain head last (by omega)]
  unfold Assembler.asmDataLine
  dsimp only
  rw [if_neg (by decide), if_neg (by decide), if_pos rfl]
  obtain ⟨byte, rest, rfl⟩ := List.exists_cons_of_ne_nil nonempty
  have free : comma ∉ x64ByteText byte :=
    fun member => (wordByte_of_digit _ (byteText_digits byte _ member)).2.2.2.2.2.2 rfl
  have first := asmDataItem_byte as number byte [] (by simp)
  simp only [List.nil_append] at first
  rw [x64ByteList, splitOn_byteList _ free, List.foldlM_cons, first]
  exact (foldlM_bytes number _ rest _).trans (by rw [put_put, List.singleton_append])

/-- A line of zeros puts them into the section. -/
theorem asmLine_times {zeros : ℕ} (fits : zeros < 2 ^ 31) :
    as.asmLine asmInstruction number (timesLine zeros) = .ok (as.put (List.replicate zeros 0)) := by
  have digits := decimalText_wordBytes zeros
  obtain ⟨⟨c, tail, text, word⟩, -⟩ := ends_of_wordBytes (decimalText_ne_nil zeros) digits
  have length := length_decimalText_le (show 0 < 10 by decide) (show zeros < 10 ^ 10 by omega)
  have behind : (asciiBytes " db 0").length = 5 := rfl
  have plain : ∀ c ∈ decimalText zeros ++ asciiBytes " db 0", c ≠ 0x22 ∧ c ≠ 0x27 ∧ c ≠ 0x3B := by
    intro c member
    obtain digit | other := List.mem_append.mp member
    · exact plain_of_wordBytes digits c digit
    · have all : ∀ c ∈ asciiBytes " db 0", c ≠ 0x22 ∧ c ≠ 0x27 ∧ c ≠ 0x3B := by decide
      exact all c other
  have count : atoi (decimalText zeros ++ asciiBytes " db 0") = zeros := atoi_decimalText fits rfl
  have value : strstr (decimalText zeros ++ asciiBytes " db 0") (asciiBytes "db") = some (asciiBytes "db 0") := by
    have free : byteOf 'd' ∉ decimalText zeros := by
      intro member
      have digit := isDigit_of_mem_decimalText member
      revert digit
      decide
    exact (strstr_append free).trans (by decide)
  rw [timesLine, asmLine_directive asmInstruction as number (by decide) plain
    ⟨c, tail ++ asciiBytes " db 0", by rw [text, List.cons_append], word⟩
    ⟨decimalText zeros ++ asciiBytes " db ", byteOf '0', by simp [asciiBytes, byteOf],
      wordByte_of_digit _ (by decide)⟩
    (by rw [List.length_append]; omega)]
  unfold Assembler.asmDataLine
  dsimp only
  rw [if_neg (by decide), if_pos rfl, count, value, Int.toNat_natCast]
  rfl

theorem asmLine_align {align : ℕ} (fits : align < 2 ^ 31) (inData : as.sectionId ≠ .text) :
    as.asmLine asmInstruction number (alignLine align) =
      .ok ((as.raiseAlignment align).asmAlign align) := by
  have digits := decimalText_wordBytes align
  obtain ⟨head, last⟩ := ends_of_wordBytes (decimalText_ne_nil align) digits
  have length := length_decimalText_le (show 0 < 10 by decide) (show align < 10 ^ 10 by omega)
  have count : atoi (decimalText align) = align := by
    have read : atoi (decimalText align ++ []) = align := atoi_decimalText fits rfl
    rwa [List.append_nil] at read
  rw [alignLine, asmLine_directive asmInstruction as number (by decide) (plain_of_wordBytes digits) head last (by omega)]
  unfold Assembler.asmDataLine
  dsimp only
  rw [if_pos rfl, count]
  exact if_neg inData

/-- A field of the section that gets the address of a global. -/
structure IsPointer (after : Assembler) (target : SymbolName) (place : ℤ) (entry : AsmSectionId × AsmReloc) :
    Prop where
  sectionId : entry.1 = after.sectionId
  offset : entry.2.offset = place
  kind : entry.2.kind = .abs64
  /-- The symbol that the assembler keeps of the name. -/
  symbol : after.obj.findSymbol (target.bytes.take 158) = some entry.2.symbol
  addend : entry.2.addend = 0
  trailing : entry.2.trailing = 0

/-- Later lines leave the field alone. -/
theorem IsPointer.after {next after : Assembler} {target : SymbolName} {place : ℤ}
    {entry : AsmSectionId × AsmReloc} {out : List (BitVec 8)} {added : List (AsmSectionId × AsmReloc)}
    (pointer : IsPointer next target place entry) (appended : Appended next after out added) :
    IsPointer after target place entry where
  sectionId := pointer.sectionId.trans appended.sectionId.symm
  offset := pointer.offset
  kind := pointer.kind
  symbol := AsmObject.findSymbol_of_names_prefix pointer.symbol (appended.symbols.map _)
  addend := pointer.addend
  trailing := pointer.trailing

/-- The address of a symbol is eight zeros, and a field for a linker. -/
theorem asmLine_dq (target : SymbolName) :
    ∃ after entry, as.asmLine asmInstruction number (dqLine target) = .ok after ∧
      Appended as after (List.replicate 8 0) [entry] ∧ IsPointer after target as.bytes.length entry := by
  have bytes : ∀ c ∈ x64SymbolText target.bytes, IsWordByte c :=
    fun c member => wordByte_of_symbolByte c (symbolText_valid target c member)
  have nonempty : x64SymbolText target.bytes ≠ [] := List.cons_ne_nil _ _
  obtain ⟨head, last⟩ := ends_of_wordBytes nonempty bytes
  have short : (x64SymbolText target.bytes).length < 1000 := by
    rw [x64SymbolText_eq, List.length_cons, List.length_take]
    omega
  have one : (x64SymbolText target.bytes).splitOn comma = [x64SymbolText target.bytes] :=
    List.splitOn_eq_singleton fun member => (bytes comma member).2.2.2.2.2.2 rfl
  have trimmed := trim_item [] (by simp) nonempty bytes
  have no_number : asmParseNumber (x64SymbolText target.bytes) = none := by
    unfold asmParseNumber
    rw [x64SymbolText_eq]
    split
    · exact (if_neg (by decide)).trans (if_neg (by decide))
    · rfl
  obtain ⟨more, grows, found⟩ := as.obj.asmSymbol_spec (target.bytes.take 158)
  let symbol := (as.obj.asmSymbol (target.bytes.take 158)).1
  let reloc : AsmReloc := { offset := as.bytes.length, kind := .abs64, symbol, addend := 0, trailing := 0 }
  let obj := (as.obj.asmSymbol (target.bytes.take 158)).2
  refine ⟨{ as with obj := (obj.asmAddReloc as.sectionId reloc).put as.sectionId (List.replicate 8 0) },
    (as.sectionId, reloc), ?_, ?_, ?_⟩
  · rw [dqLine, asmLine_directive asmInstruction as number (by decide) (plain_of_wordBytes bytes) head last short]
    unfold Assembler.asmDataLine
    dsimp only
    rw [if_neg (by decide), if_neg (by decide), if_neg (by decide), if_neg (by decide), if_neg (by decide),
      one, List.foldlM_cons]
    unfold Assembler.asmDataItem
    dsimp only
    rw [List.nil_append] at trimmed
    rw [trimmed, if_neg nonempty, no_number, asmSymbolName_symbolText]
    rfl
  · constructor
    case bytes => simp only [AsmObject.put, AsmObject.asmAddReloc, obj, grows, Assembler.bytes]
    case alignment => simp only [AsmObject.put, AsmObject.asmAddReloc, obj, grows]
    case symbols =>
      simp only [AsmObject.put, AsmObject.asmAddReloc, obj, grows]
      exact List.prefix_append _ _
    case relocs => simp only [AsmObject.put, AsmObject.asmAddReloc, obj, grows]
    case sectionId => rfl
    case scope => rfl
    case itemCount => rfl
    case labelItem => rfl
  · exact ⟨rfl, rfl, rfl, found, rfl, rfl⟩

end Lines

section Run

variable {asmInstruction : Assembler → Text → Text → ℕ → Text → Except Text Assembler}

/-- The bytes that no relocation covers are those of the data, from an offset on. -/
structure SameFrom (data out : List (BitVec 8)) (relocs : List IrReloc) (offset : ℕ) : Prop where
  length : offset + out.length = data.length
  same : ∀ i, offset ≤ i → (∀ reloc ∈ relocs, i < reloc.offset ∨ reloc.offset + 8 ≤ i) →
    out[i - offset]? = data[i]?

/-- What plain bytes put in front of what comes behind them. -/
theorem SameFrom.of_bytes {data out : List (BitVec 8)} {relocs : List IrReloc} {offset count : ℕ}
    (inside : offset + count ≤ data.length) (behind : SameFrom data out relocs (offset + count)) :
    SameFrom data ((data.drop offset).take count ++ out) relocs offset where
  length := by
    have length := behind.length
    rw [List.length_append, List.length_take, List.length_drop]
    omega
  same := by
    intro i le uncovered
    have front : ((data.drop offset).take count).length = count := by
      rw [List.length_take, List.length_drop]
      omega
    by_cases now : i < offset + count
    · rw [List.getElem?_append_left (by omega), List.getElem?_take_of_lt (by omega), List.getElem?_drop]
      congr 1
      omega
    · rw [List.getElem?_append_right (by omega), front, ← behind.same i (by omega) uncovered]
      congr 1
      omega

/-- What a pointer puts in front of what comes behind it. -/
theorem SameFrom.of_pointer {data out zeros : List (BitVec 8)} {reloc : IrReloc} {relocs : List IrReloc}
    (eight : zeros.length = 8) (behind : SameFrom data out relocs (reloc.offset + 8))
    (here : reloc ∈ relocs) : SameFrom data (zeros ++ out) relocs reloc.offset where
  length := by
    have length := behind.length
    rw [List.length_append]
    omega
  same := by
    intro i le uncovered
    obtain before | after := uncovered reloc here
    · omega
    · rw [List.getElem?_append_right (by omega), eight, ← behind.same i after uncovered, Nat.sub_sub]

theorem asmLines_cons {as next : Assembler} {number : ℕ} {line : Text} {rest : List Text}
    (step : as.asmLine asmInstruction (number + 1) line = .ok next) :
    Assembler.asmLines asmInstruction as number (line :: rest) =
      Assembler.asmLines asmInstruction next (number + 1) rest := by
  rw [Assembler.asmLines, step]

theorem SameFrom.mono {data out : List (BitVec 8)} {relocs more : List IrReloc} {offset : ℕ}
    (same : SameFrom data out relocs offset) (subset : ∀ reloc ∈ relocs, reloc ∈ more) :
    SameFrom data out more offset where
  length := same.length
  same := fun i le uncovered => same.same i le fun reloc member => uncovered reloc (subset reloc member)

section Relocs

variable {relocs : List IrReloc} {offset : ℕ}

/-- In order, and a pointer does not go over the next one. -/
def InOrder (relocs : List IrReloc) : Prop := relocs.Pairwise fun a b => a.offset + 8 ≤ b.offset

theorem relocsFrom_sublist (offset : ℕ) (relocs : List IrReloc) : (relocsFrom offset relocs).Sublist relocs :=
  List.dropWhile_sublist _

theorem relocsFrom_eq_self (behind : ∀ reloc ∈ relocs, offset ≤ reloc.offset) :
    relocsFrom offset relocs = relocs := by
  cases relocs with
  | nil => rfl
  | cons reloc rest =>
    have le := behind reloc List.mem_cons_self
    exact List.dropWhile_cons_of_neg (by simpa using le)

theorem le_of_mem_relocsFrom (order : InOrder relocs) :
    ∀ reloc ∈ relocsFrom offset relocs, offset ≤ reloc.offset := by
  have sorted : InOrder (relocsFrom offset relocs) := order.sublist (relocsFrom_sublist offset relocs)
  have head := relocsFrom_behind relocs offset
  cases from_eq : relocsFrom offset relocs with
  | nil => exact fun reloc member => absurd member List.not_mem_nil
  | cons first rest =>
    rw [from_eq] at sorted head
    have first_le := head first rfl
    intro reloc member
    obtain rfl | later := List.mem_cons.mp member
    · exact first_le
    · have apart := List.rel_of_pairwise_cons sorted later
      omega

theorem dataStop_le_of_mem (order : InOrder relocs) (data : List (BitVec 8)) :
    ∀ reloc ∈ relocs, dataStop data relocs ≤ reloc.offset ∨ data.length ≤ reloc.offset := by
  intro reloc member
  cases relocs with
  | nil => exact absurd member List.not_mem_nil
  | cons first rest =>
    have le : first.offset ≤ reloc.offset := by
      obtain rfl | later := List.mem_cons.mp member
      · exact le_rfl
      · have apart := List.rel_of_pairwise_cons order later
        omega
    rw [dataStop]
    split <;> omega

end Relocs

/-- The section got the bytes of the data from an offset on, and the pointers that are there. -/
def AssembledFrom (symbol : ℕ → SymbolName) (data : List (BitVec 8)) (relocs : List IrReloc) (offset : ℕ)
    (as after : Assembler) : Prop :=
  ∃ out added, Appended as after out added ∧ SameFrom data out relocs offset ∧
    List.Forall₂ (fun reloc entry =>
        IsPointer after (symbol reloc.target) ((as.bytes.length : ℤ) - offset + reloc.offset) entry)
      (relocsFrom offset relocs) added

section Steps

variable {symbol : ℕ → SymbolName} {data : List (BitVec 8)} {relocs : List IrReloc} {offset : ℕ}
variable {as next after : Assembler}

/-- Plain bytes end in front of the next pointer, so the pointers that are left stay the same. -/
theorem AssembledFrom.of_bytes {count : ℕ} (order : InOrder relocs)
    (inside : ∀ reloc ∈ relocs, reloc.offset + 8 ≤ data.length)
    (stops : offset + count ≤ dataStop data (relocsFrom offset relocs))
    (behind : AssembledFrom symbol data (relocsFrom offset relocs) (offset + count)
      (as.put ((data.drop offset).take count)) after) : AssembledFrom symbol data relocs offset as after := by
  obtain ⟨out, added, appended, same, pointers⟩ := behind
  have sublist := relocsFrom_sublist offset relocs
  have fits := stops.trans (dataStop_le data _)
  have left : relocsFrom (offset + count) (relocsFrom offset relocs) = relocsFrom offset relocs := by
    apply relocsFrom_eq_self
    intro reloc member
    have ends := inside reloc (sublist.mem member)
    obtain stop | outside := dataStop_le_of_mem (order.sublist sublist) data reloc member
    · exact stops.trans stop
    · omega
  have length : (as.put ((data.drop offset).take count)).bytes.length = as.bytes.length + count := by
    rw [(Appended.put as _).bytes_eq, List.length_append, List.length_take, List.length_drop]
    omega
  rw [left] at pointers
  refine ⟨(data.drop offset).take count ++ out, added, (Appended.put as _).trans appended,
    SameFrom.of_bytes fits (same.mono fun _ member => sublist.mem member), ?_⟩
  apply pointers.imp
  intro reloc entry pointer
  rw [length] at pointer
  convert pointer using 1
  push_cast
  ring

/-- A pointer is eight bytes, and the next one can only be behind it. -/
theorem AssembledFrom.of_pointer {reloc : IrReloc} {zeros : List (BitVec 8)} {entry : AsmSectionId × AsmReloc}
    (order : InOrder relocs) (head : (relocsFrom reloc.offset relocs).head? = some reloc)
    (eight : zeros.length = 8) (first : Appended as next zeros [entry])
    (pointer : IsPointer next (symbol reloc.target) as.bytes.length entry)
    (behind : AssembledFrom symbol data (relocsFrom reloc.offset relocs) (reloc.offset + 8) next after) :
    AssembledFrom symbol data relocs reloc.offset as after := by
  obtain ⟨out, added, appended, same, pointers⟩ := behind
  have sublist := relocsFrom_sublist reloc.offset relocs
  have sorted : InOrder (relocsFrom reloc.offset relocs) := order.sublist sublist
  obtain ⟨tail, split⟩ := List.head?_eq_some_iff.mp head
  rw [split] at sorted
  have left : relocsFrom (reloc.offset + 8) (reloc :: tail) = tail := by
    rw [relocsFrom, List.dropWhile_cons_of_pos (by simp)]
    apply relocsFrom_eq_self
    intro other member
    exact List.rel_of_pairwise_cons sorted member
  have length : next.bytes.length = as.bytes.length + 8 := by
    rw [first.bytes_eq, List.length_append, eight]
  rw [split, left] at pointers
  have member : reloc ∈ relocs := sublist.mem (by rw [split]; exact List.mem_cons_self)
  refine ⟨zeros ++ out, entry :: added, first.trans appended,
    SameFrom.of_pointer eight (same.mono fun _ member => sublist.mem member) member, ?_⟩
  rw [split]
  apply List.Forall₂.cons
  · convert pointer.after appended using 1
    omega
  · apply pointers.imp
    intro other entry pointer
    rw [length] at pointer
    convert pointer using 1
    push_cast
    ring

end Steps

/-- The lines from an offset on put the bytes from there on into the section. -/
theorem asmLines_dataLines (symbol : ℕ → SymbolName) {data : List (BitVec 8)} (size_lt : data.length < 2 ^ 31)
    {relocs : List IrReloc} {offset : ℕ} (order : InOrder relocs)
    (inside : ∀ reloc ∈ relocs, reloc.offset + 8 ≤ data.length) (le : offset ≤ data.length) (as : Assembler)
    (number : ℕ) :
    ∃ after, Assembler.asmLines asmInstruction as number (dataLines symbol data relocs offset) = .ok after ∧
      AssembledFrom symbol data relocs offset as after := by
  fun_induction dataLines symbol data relocs offset generalizing as number with
  | case2 relocs offset outside =>
    have none_left : relocsFrom offset relocs = [] := by
      apply List.eq_nil_iff_forall_not_mem.mpr
      intro reloc member
      have behind := le_of_mem_relocsFrom order reloc member
      have fits := inside reloc ((relocsFrom_sublist offset relocs).mem member)
      omega
    refine ⟨as, rfl, [], [], .refl as, ⟨?_, fun i from_le _ => ?_⟩, by rw [none_left]; exact .nil⟩
    · rw [List.length_nil]
      omega
    · rw [List.getElem?_nil, eq_comm, List.getElem?_eq_none_iff]
      omega
  | case1 relocs offset there ih =>
    have sublist := relocsFrom_sublist offset relocs
    have stop_le := dataStop_le data (relocsFrom offset relocs)
    specialize ih (order.sublist sublist) fun reloc member => inside reloc (sublist.mem member)
    obtain ⟨reloc, head, rfl, step⟩ | ⟨count, positive, stops, zeros, step⟩ |
      ⟨count, positive, small, stops, step⟩ := dataStep_cases symbol there (relocsFrom_behind relocs offset)
    · rw [step] at ih ⊢
      obtain ⟨next, entry, line, first, pointer⟩ :=
        asmLine_dq asmInstruction as (number + 1) (symbol reloc.target)
      have fits := inside reloc (sublist.mem (List.mem_of_mem_head? head))
      obtain ⟨after, rest, behind⟩ := ih fits next (number + 1)
      exact ⟨after, (asmLines_cons line).trans rest,
        .of_pointer order head (List.length_replicate ..) first pointer behind⟩
    · rw [step] at ih ⊢
      have line := asmLine_times asmInstruction as (number + 1) (show count < 2 ^ 31 by omega)
      rw [← zeros] at line
      obtain ⟨after, rest, behind⟩ := ih (by omega) _ (number + 1)
      exact ⟨after, (asmLines_cons line).trans rest, .of_bytes order inside stops behind⟩
    · rw [step] at ih ⊢
      have length : ((data.drop offset).take count).length = count := by
        rw [List.length_take, List.length_drop]
        omega
      have line := asmLine_db asmInstruction as (number + 1) (List.ne_nil_of_length_pos (by omega))
        (length.le.trans small)
      obtain ⟨after, rest, behind⟩ := ih (by omega) _ (number + 1)
      exact ⟨after, (asmLines_cons line).trans rest, .of_bytes order inside stops behind⟩

/-- By offset, the pointers are in order. -/
theorem sortedRelocs_inOrder (global : DataGlobal) : InOrder global.sortedRelocs := by
  have perm : global.sortedRelocs.Perm global.relocs := List.mergeSort_perm _ _
  have sorted : global.sortedRelocs.Pairwise fun a b => decide (a.offset ≤ b.offset) = true := by
    apply List.pairwise_mergeSort
    · intro a b c
      simp only [decide_eq_true_eq]
      omega
    · intro a b
      simp only [Bool.or_eq_true, decide_eq_true_eq]
      omega
  have apart := (perm.pairwise_iff fun {a b} apart => apart.symm).mpr global.relocs_apart
  apply (sorted.and apart).imp
  intro a b both
  have le := of_decide_eq_true both.1
  omega

/-- What the lines of the data of a global put into the section, behind zeros up to the alignment. -/
structure DataAssembled (symbol : ℕ → SymbolName) (global : DataGlobal) (as after : Assembler) (padding : ℕ)
    (out : List (BitVec 8)) (sorted : List IrReloc) (added : List (AsmSectionId × AsmReloc)) : Prop where
  padding_lt : padding < global.align
  aligned : global.align ∣ as.bytes.length + padding
  bytes : after.obj.bytes =
    Function.update as.obj.bytes as.sectionId (as.bytes ++ List.replicate padding 0 ++ out)
  length : out.length = max 1 global.data.length
  /-- All bytes but those of the pointers are as they are in the data. -/
  same : ∀ i < global.data.length, (∀ reloc ∈ global.relocs, i < reloc.offset ∨ reloc.offset + 8 ≤ i) →
    out[i]? = global.data[i]?
  /-- There is one field for each relocation, and no other one. -/
  relocs : after.obj.relocs = as.obj.relocs ++ added
  perm : sorted.Perm global.relocs
  pointers : List.Forall₂ (fun reloc entry =>
    IsPointer after (symbol reloc.target) (as.bytes.length + padding + reloc.offset : ℕ) entry) sorted added

/-- The lines behind the label, from any place of a section. -/
theorem asmLines_lines (symbol : ℕ → SymbolName) (global : DataGlobal) (as : Assembler) (number : ℕ) :
    ∃ after out added,
      Assembler.asmLines asmInstruction as number (global.lines symbol) = .ok after ∧
      Appended as after out added ∧ out.length = max 1 global.data.length ∧
      (∀ i < global.data.length, (∀ reloc ∈ global.relocs, i < reloc.offset ∨ reloc.offset + 8 ≤ i) →
        out[i]? = global.data[i]?) ∧
      List.Forall₂ (fun reloc entry =>
          IsPointer after (symbol reloc.target) (as.bytes.length + reloc.offset : ℕ) entry)
        global.sortedRelocs added := by
  have perm : global.sortedRelocs.Perm global.relocs := List.mergeSort_perm _ _
  by_cases empty : global.data.length = 0
  · have no_relocs : global.sortedRelocs = [] := by
      apply List.eq_nil_iff_forall_not_mem.mpr
      intro reloc member
      have inside := global.relocs_inside reloc (perm.mem_iff.mp member)
      omega
    have no_lines : dataLines symbol global.data global.sortedRelocs 0 = [] := by
      rw [dataLines, if_neg (by omega)]
    have line := asmLine_db asmInstruction as (number + 1) (List.cons_ne_nil 0 []) (by decide)
    refine ⟨as.put [0], [0], [], ?_, .put as [0], by rw [empty]; rfl, fun i inside _ => by omega, ?_⟩
    · rw [DataGlobal.lines, no_lines, if_pos empty, List.nil_append, asmLines_cons line]
      rfl
    · rw [no_relocs]
      exact .nil
  · obtain ⟨after, lines, out, added, appended, same, pointers⟩ :=
      asmLines_dataLines symbol global.size_lt (sortedRelocs_inOrder global)
        (fun reloc member => global.relocs_inside reloc (perm.mem_iff.mp member)) (Nat.zero_le _) as number
    have all_left : relocsFrom 0 global.sortedRelocs = global.sortedRelocs :=
      relocsFrom_eq_self fun _ _ => Nat.zero_le _
    have length := same.length
    refine ⟨after, out, added, ?_, appended, by omega, fun i _ uncovered => ?_, ?_⟩
    · rw [DataGlobal.lines, if_neg empty, List.append_nil]
      exact lines
    · exact same.same i (Nat.zero_le i) fun reloc member => uncovered reloc (perm.mem_iff.mp member)
    · rw [all_left] at pointers
      apply pointers.imp
      intro reloc entry pointer
      convert pointer using 1
      push_cast
      ring

/-- The zeros of an alignment. -/
theorem asmAlign_spec (as : Assembler) {align : ℕ} (positive : 0 < align) :
    ∃ padding, padding < align ∧ align ∣ as.bytes.length + padding ∧
      as.asmAlign align = as.put (List.replicate padding 0) := by
  by_cases more : 1 < align
  · have low := Int.emod_nonneg (-(as.bytes.length : ℤ)) (show (align : ℤ) ≠ 0 by omega)
    have high := Int.emod_lt_of_pos (-(as.bytes.length : ℤ)) (show (0 : ℤ) < align by omega)
    refine ⟨(-(as.bytes.length : ℤ) % align).toNat, by omega, ?_, ?_⟩
    · apply Int.natCast_dvd_natCast.mp
      push_cast
      rw [Int.toNat_of_nonneg low]
      apply Int.dvd_of_emod_eq_zero
      rw [Int.add_emod_emod]
      simp
    · rw [Assembler.asmAlign, if_pos (by exact_mod_cast more)]
  · obtain rfl : align = 1 := by omega
    exact ⟨0, by decide, one_dvd _, by rw [Assembler.asmAlign, if_neg (by decide), List.replicate_zero, put_nil]⟩

/-- The symbols and labels say what is defined. -/
theorem isDefined_congr {as other : Assembler} (name : Text) (symbols : other.obj.symbols = as.obj.symbols)
    (labels : other.labelItem = as.labelItem) : other.isDefined name = as.isDefined name := by
  unfold Assembler.isDefined AsmObject.asmSymbol AsmObject.findSymbol
  rw [symbols, labels]
  cases as.obj.symbols.findIdx? fun symbol => decide (symbol.name = name) with
  | some index => simp only [symbols]
  | none => rfl

/-- The symbol with the name has a place in the section. -/
def StandsAt (after : Assembler) (name : Text) (sectionId : AsmSectionId) (place : ℕ) : Prop :=
  ∃ index, after.obj.findSymbol name = some index ∧
    (after.obj.symbols[index]?.map fun symbol => (symbol.sectionId, symbol.offset)) =
      some (some sectionId, place)

theorem StandsAt.after {next after : Assembler} {name : Text} {sectionId : AsmSectionId} {place : ℕ}
    {out : List (BitVec 8)} {added : List (AsmSectionId × AsmReloc)} (stands : StandsAt next name sectionId place)
    (appended : Appended next after out added) : StandsAt after name sectionId place := by
  obtain ⟨index, found, here⟩ := stands
  refine ⟨index, AsmObject.findSymbol_of_names_prefix found (appended.symbols.map _), ?_⟩
  obtain ⟨more, symbols⟩ := appended.symbols
  obtain ⟨symbol, at_index, same⟩ := Option.map_eq_some_iff.mp here
  rw [← symbols, List.getElem?_append_left (List.getElem?_eq_some_iff.mp at_index).1, at_index, Option.map_some,
    same]

theorem asmLine_label (as : Assembler) (number : ℕ) (name : SymbolName)
    (free : as.isDefined (name.bytes.take 158) = false) (inData : as.sectionId ≠ .text) :
    ∃ next, as.asmLine asmInstruction number (labelLine name) = .ok next ∧ next.obj.bytes = as.obj.bytes ∧
      next.obj.relocs = as.obj.relocs ∧ next.sectionId = as.sectionId ∧
      StandsAt next (name.bytes.take 158) as.sectionId as.bytes.length := by
  obtain ⟨more, grows, found⟩ := as.obj.asmSymbol_spec (name.bytes.take 158)
  have short : ¬1024 ≤ (labelLine name).length := by
    rw [labelLine, List.length_append, x64SymbolText_eq, List.length_cons, List.length_take, List.length_singleton]
    omega
  have plain : ∀ c ∈ labelLine name, c ≠ 0x22 ∧ c ≠ 0x27 ∧ c ≠ 0x3B := by
    intro c member
    obtain inName | last := List.mem_append.mp member
    · obtain ⟨double, single, comment, -⟩ := plain_of_symbolByte c (symbolText_valid name c inName)
      exact ⟨double, single, comment⟩
    · rw [List.mem_singleton.mp last]
      decide
  have trimmed : asmTrimEnd (labelLine name) = labelLine name := List.rdropWhile_concat_neg _ _ _ (by decide)
  have some_text : asmSkipSpaces (asmTrimEnd (asmStripComment false (labelLine name))) ≠ [] := by
    rw [asmStripComment_of_plain plain, trimmed, labelLine, x64SymbolText_eq, List.cons_append, asmSkipSpaces,
      List.dropWhile_cons_of_neg (by decide)]
    exact List.cons_ne_nil _ _
  let index := (as.obj.asmSymbol (name.bytes.take 158)).1
  let obj := (as.obj.asmSymbol (name.bytes.take 158)).2
  let place : AsmSymbol → AsmSymbol := fun entry =>
    { entry with sectionId := some as.sectionId, offset := as.bytes.length }
  refine ⟨{ as with obj := obj.setSymbol index place, scope := cut 160 (name.bytes.take 158) },
    ?_, ?_, ?_, rfl, index, ?_, ?_⟩
  · unfold Assembler.asmLine
    dsimp only
    rw [if_neg short, if_neg some_text, labelLine, asmLabel_global]
    dsimp only
    unfold Assembler.defineLabel
    dsimp only
    rw [free, if_neg Bool.false_ne_true, if_neg inData]
    have global : decide ((x64SymbolText name.bytes ++ [colon]).head? = some dot) = false := by
      rw [x64SymbolText_eq]
      rfl
    rw [global]
    simp only [Bool.false_eq_true, if_false, Assembler.bytes, obj, grows]
    rfl
  · simp only [AsmObject.setSymbol, obj, grows]
  · simp only [AsmObject.setSymbol, obj, grows]
  · have names : (obj.setSymbol index place).symbols.map AsmSymbol.name = obj.symbols.map AsmSymbol.name := by
      apply List.ext_getElem?
      intro i
      rw [List.getElem?_map, List.getElem?_map, AsmObject.setSymbol, List.getElem?_modify, Option.map_eq_map,
        Option.map_map]
      congr 1
      funext entry
      rw [Function.comp_apply]
      split <;> rfl
    rw [AsmObject.findSymbol_eq, names, ← AsmObject.findSymbol_eq]
    exact found
  · obtain ⟨inside, -⟩ := List.findIdx?_eq_some_iff_getElem.mp found
    have at_index : obj.symbols[index]? = some obj.symbols[index] := List.getElem?_eq_getElem inside
    simp only [AsmObject.setSymbol, List.getElem?_modify, at_index, if_true, Option.map_eq_map, Option.map_some,
      place]

section Short

theorem length_directiveLine (word rest : Text) :
    (directiveLine word rest).length = word.length + rest.length + 2 := by
  rw [directiveLine, List.length_cons, List.length_append, List.length_cons]
  omega

theorem length_symbolText_le (name : SymbolName) : (x64SymbolText name.bytes).length ≤ 159 := by
  rw [x64SymbolText_eq, List.length_cons, List.length_take]
  omega

theorem dataLines_short (symbol : ℕ → SymbolName) {data : List (BitVec 8)} (size_lt : data.length < 2 ^ 31)
    (relocs : List IrReloc) (offset : ℕ) : ∀ line ∈ dataLines symbol data relocs offset, line.length < 1024 := by
  fun_induction dataLines symbol data relocs offset with
  | case2 relocs offset outside => exact fun line member => absurd member List.not_mem_nil
  | case1 relocs offset there ih =>
    intro line member
    obtain rfl | later := List.mem_cons.mp member
    · have stop_le := dataStop_le data (relocsFrom offset relocs)
      obtain ⟨reloc, -, -, step⟩ | ⟨count, -, stops, -, step⟩ | ⟨count, -, small, -, step⟩ :=
        dataStep_cases symbol there (relocsFrom_behind relocs offset)
      · have short := length_symbolText_le (symbol reloc.target)
        have word : (asciiBytes "dq").length = 2 := rfl
        rw [step, dqLine, length_directiveLine]
        omega
      · have digits := length_decimalText_le (show 0 < 10 by decide) (show count < 10 ^ 10 by omega)
        have word : (asciiBytes "times").length = 5 := rfl
        have zero : (asciiBytes " db 0").length = 5 := rfl
        rw [step, timesLine, length_directiveLine, List.length_append]
        omega
      · have bytes := length_byteList_le ((data.drop offset).take count)
        have taken : ((data.drop offset).take count).length ≤ count := List.length_take_le _ _
        have word : (asciiBytes "db").length = 2 := rfl
        rw [step, dbLine, length_directiveLine]
        omega
    · exact ih line later

theorem x64EmitGlobalData_short (symbol : ℕ → SymbolName) (global : DataGlobal) :
    ∀ line ∈ x64EmitGlobalData symbol global, line.length < 1024 := by
  intro line member
  obtain rfl | member := List.mem_cons.mp member
  · have digits := length_decimalText_le (show 0 < 10 by decide)
      (show global.align < 10 ^ 10 by have := global.align_lt; omega)
    have word : (asciiBytes "align").length = 5 := rfl
    rw [alignLine, length_directiveLine]
    omega
  obtain rfl | member := List.mem_cons.mp member
  · have short := length_symbolText_le global.symbolName
    rw [labelLine, List.length_append, List.length_singleton]
    omega
  obtain inData | zero := List.mem_append.mp member
  · exact dataLines_short symbol global.size_lt _ 0 line inData
  · split at zero
    · rw [List.mem_singleton.mp zero]
      decide
    · exact absurd zero List.not_mem_nil

end Short

/-- The data of a global behind the zeros of its alignment. -/
theorem dataAssembled_of_lines {symbol : ℕ → SymbolName} {global : DataGlobal} {as mid : Assembler}
    {padding number : ℕ} (padding_lt : padding < global.align)
    (aligned : global.align ∣ as.bytes.length + padding)
    (bytes : mid.obj.bytes = Function.update as.obj.bytes as.sectionId (as.bytes ++ List.replicate padding 0))
    (relocs : mid.obj.relocs = as.obj.relocs) (sectionId : mid.sectionId = as.sectionId) :
    ∃ after out added, Assembler.asmLines asmInstruction mid number (global.lines symbol) = .ok after ∧
      DataAssembled symbol global as after padding out global.sortedRelocs added ∧
      Appended mid after out added := by
  obtain ⟨after, out, added, lines, appended, length, same, pointers⟩ :=
    @asmLines_lines asmInstruction symbol global mid number
  have start : mid.bytes = as.bytes ++ List.replicate padding 0 := by
    rw [Assembler.bytes, sectionId, bytes, Function.update_self]
  refine ⟨after, out, added, lines, ⟨padding_lt, aligned, ?_, length, same, ?_, List.mergeSort_perm _ _, ?_⟩,
    appended⟩
  · rw [appended.bytes, bytes, sectionId, start, Function.update_idem]
  · rw [appended.relocs, relocs]
  · rw [start, List.length_append, List.length_replicate] at pointers
    exact pointers

/-- Two pointers that are not in order, between bytes and zeros. -/
def twoPointers : DataGlobal where
  kind := .data
  name := asciiBytes "__data0"
  align := 8
  data := [1, 2] ++ List.replicate 16 0 ++ List.replicate 12 0
  relocs := [⟨10, 0⟩, ⟨2, 0⟩]
  name_valid := by decide
  name_no_dot := by decide
  align_pos := by decide
  align_lt := by decide
  size_lt := by decide
  relocs_inside := by decide
  relocs_apart := by decide

/-- Nothing is assembled yet, and the lines are for the data section. -/
def emptyAssembler : Assembler where
  obj := { bytes := fun _ => [], alignment := fun _ => 8, symbols := [], relocs := [] }
  sectionId := .data
  scope := []
  itemCount := 0
  labelItem := fun _ => none

end Run

end Saad
