import Saad.Std.Decimal
import Saad.X64.AsmLayout
import Saad.X64.AsmSymbols

/-! # The lines that the assembler reads

Each line is a label, a directive or an instruction. The lines of data put bytes into the section,
and the address of a symbol is a field that a linker fills in.
-/

namespace Saad

open General

def comma : BitVec 8 := byteOf ','

inductive AsmSectionId where
  | text
  | data
  | rdata
deriving DecidableEq, Repr

structure AsmSymbol where
  name : Text
  /-- None when it is not defined here. -/
  sectionId : Option AsmSectionId := none
  offset : ℕ := 0
  isGlobal : Bool := false
  isExtern : Bool := false
deriving DecidableEq, Repr

/-- What the assembler makes. The field of a relocation is in a section. -/
structure AsmObject where
  bytes : AsmSectionId → List (BitVec 8)
  alignment : AsmSectionId → ℤ
  symbols : List AsmSymbol
  relocs : List (AsmSectionId × AsmReloc)

/-- The section and the scope of labels, and the items of the text with the labels before them. -/
structure Assembler where
  obj : AsmObject
  sectionId : AsmSectionId
  scope : Text
  itemCount : ℕ
  labelItem : ℕ → Option ℕ

namespace AsmObject

variable (obj : AsmObject)

def findSymbol (name : Text) : Option ℕ := obj.symbols.findIdx? fun symbol => symbol.name = name

/-- The symbol with the name, which is made when there is none yet. -/
def asmSymbol (name : Text) : ℕ × AsmObject :=
  match obj.findSymbol name with
  | some index => (index, obj)
  | none => (obj.symbols.length, { obj with symbols := obj.symbols ++ [{ name }] })

def put (sectionId : AsmSectionId) (bytes : List (BitVec 8)) : AsmObject :=
  { obj with bytes := Function.update obj.bytes sectionId (obj.bytes sectionId ++ bytes) }

def asmAddReloc (sectionId : AsmSectionId) (reloc : AsmReloc) : AsmObject :=
  { obj with relocs := obj.relocs ++ [(sectionId, reloc)] }

/-- What is known of a symbol changes. -/
def setSymbol (index : ℕ) (change : AsmSymbol → AsmSymbol) : AsmObject :=
  { obj with symbols := obj.symbols.modify index change }

end AsmObject

section Numbers

/-- `asm_skip_spaces` -/
def asmSkipSpaces (text : Text) : Text := text.dropWhile isAsmBlank

/-- A number that is all of the text. -/
def asmParseNumber (text : Text) : Option ℤ :=
  if text.length < 40 then
    match text with
    | [] => none
    | first :: rest =>
      if first = byteOf '-' then
        let (value, behind) := strtoull 0 rest
        if behind = [] then some (int64 (-int64 value)) else none
      else if isDigit first then
        let (value, behind) := strtoull 0 (first :: rest)
        if behind = [] then some (int64 value) else none
      else none
  else none

end Numbers

/-- The text of an error, in a buffer of 512 bytes. -/
def asmFail (line : ℕ) (message text : Text) : Text :=
  cut 512 (asciiBytes "line " ++ decimalText line ++ asciiBytes ": " ++ message ++ asciiBytes ": " ++
    text.take 200)

namespace Assembler

variable (as : Assembler)

/-- The bytes of the section that is assembled. -/
def bytes : List (BitVec 8) := as.obj.bytes as.sectionId

def put (bytes : List (BitVec 8)) : Assembler := { as with obj := as.obj.put as.sectionId bytes }

/-- The alignment of the section is the biggest of its data. -/
def raiseAlignment (align : ℤ) : Assembler :=
  let alignment := Function.update as.obj.alignment as.sectionId (max align (as.obj.alignment as.sectionId))
  { as with obj := { as.obj with alignment } }

/-- Zeros until the size is a multiple of the alignment. -/
def asmAlign (align : ℤ) : Assembler :=
  if 1 < align then as.put (List.replicate (-(as.bytes.length : ℤ) % align).toNat 0) else as

/-- One value of `db`, `dw`, `dd` or `dq`. -/
def asmDataItem (size line : ℕ) (text : Text) (item : Text) : Except Text Assembler :=
  let item := (asmSkipSpaces item).rdropWhile fun c => isAsmBlank c || c == 0x0A || c == 0x0D
  if item = [] then .ok as
  else
    match asmParseNumber item with
    | some value => .ok (as.put (littleEndian size value))
    | none =>
      if size = 8 then
        let (symbol, obj) := as.obj.asmSymbol (asmSymbolName item (some as.scope) 160)
        let reloc : AsmReloc :=
          { offset := as.bytes.length, kind := .abs64, symbol, addend := 0, trailing := 0 }
        .ok { as with obj := (obj.asmAddReloc as.sectionId reloc).put as.sectionId (List.replicate 8 0) }
      else .error (asmFail line (asciiBytes "a value that isn't a number") text)

def asmDataLine (directive rest : Text) (line : ℕ) (text : Text) : Except Text Assembler :=
  if directive = asciiBytes "align" then
    let align := atoi rest
    let as := as.raiseAlignment align
    if as.sectionId = .text then
      .error (asmFail line (asciiBytes "align in the text section isn't supported") text)
    else .ok (as.asmAlign align)
  else if directive = asciiBytes "times" then
    let count := atoi rest
    match strstr rest (asciiBytes "db") with
    | none => .error (asmFail line (asciiBytes "times only takes db") text)
    | some db => .ok (as.put (List.replicate count.toNat (BitVec.ofInt 8 (atoi (db.drop 2)))))
  else
    let size := if directive = asciiBytes "db" then 1 else if directive = asciiBytes "dw" then 2
      else if directive = asciiBytes "dd" then 4 else 8
    (rest.splitOn comma).foldlM (fun as item => as.asmDataItem size line text item) as

/-- If the symbol with the name has a place already. -/
def isDefined (name : Text) : Bool :=
  let (symbol, obj) := as.obj.asmSymbol name
  (obj.symbols[symbol]?.bind AsmSymbol.sectionId).isSome || (as.labelItem symbol).isSome

/-- A label is a symbol at this place. -/
def defineLabel (line : ℕ) (isLocal : Bool) (name : Text) : Except Text Assembler :=
  let (symbol, obj) := as.obj.asmSymbol name
  if as.isDefined name then .error (asmFail line (asciiBytes "a label that is already defined") name)
  else
    let as := { as with obj, scope := if isLocal then as.scope else cut 160 name }
    if as.sectionId = .text then
      .ok { as with labelItem := Function.update as.labelItem symbol (some as.itemCount) }
    else
      .ok { as with obj := obj.setSymbol symbol fun entry =>
        { entry with sectionId := some as.sectionId, offset := as.bytes.length } }

def dataDirectives : List Text :=
  [asciiBytes "db", asciiBytes "dw", asciiBytes "dd", asciiBytes "dq", asciiBytes "times", asciiBytes "align"]

/-- The section of a name. -/
def sectionOf (name : Text) : Option AsmSectionId :=
  if name = asciiBytes ".rodata" then some .rdata
  else if name = asciiBytes ".text" then some .text
  else if name = asciiBytes ".data" then some .data
  else if name = asciiBytes ".rdata" then some .rdata
  else none

section Lines

-- An instruction of the text section: its mnemonic, what is behind it, the line number and the text.
variable (asmInstruction : Assembler → Text → Text → ℕ → Text → Except Text Assembler)

/-- A line with a first word that is not a label. -/
def asmDirective (line : ℕ) (text : Text) : Except Text Assembler :=
  let word := (text.takeWhile fun c => !isAsmBlank c).take 31
  let rest := asmSkipSpaces (text.drop word.length)
  if word = asciiBytes "bits" ∨ word = asciiBytes "default" then .ok as
  else if word = asciiBytes "section" then
    match sectionOf rest with
    | none => .error (asmFail line (asciiBytes "a section that the assembler doesn't know") rest)
    | some sectionId => .ok { as with sectionId }
  else if word = asciiBytes "extern" ∨ word = asciiBytes "global" then
    let (symbol, obj) := as.obj.asmSymbol (asmExtern rest)
    .ok { as with obj := obj.setSymbol symbol fun entry =>
      if word = asciiBytes "extern" then { entry with isExtern := true } else { entry with isGlobal := true } }
  else if word ∈ dataDirectives then as.asmDataLine word rest line text
  else if as.sectionId = .text then asmInstruction as word rest line text
  else .error (asmFail line (asciiBytes "an instruction outside of the text section") text)

/-- One line of the text. -/
def asmLine (line : ℕ) (bytes : Text) : Except Text Assembler :=
  if 1024 ≤ bytes.length then .error (asciiBytes "line " ++ decimalText line ++ asciiBytes " is too long")
  else
    let text := asmSkipSpaces (asmTrimEnd (asmStripComment false bytes))
    if text = [] then .ok as
    else
      match asmLabel as.scope bytes with
      | some name => as.defineLabel line (bytes.head? = some dot) name
      | none => asmDirective as asmInstruction line text

/-- The lines one after the other, as far as they are right. The number is of the line before. -/
def asmLines (as : Assembler) : ℕ → List Text → Except Text Assembler
  | _, [] => .ok as
  | number, bytes :: rest =>
    match asmLine as asmInstruction (number + 1) bytes with
    | .ok as => asmLines as (number + 1) rest
    | .error error => .error error

end Lines

end Assembler

end Saad

/-! # The lines of the data of a global

The bytes of a global are written in one pass. A relocation is the address of its target, a run of
zeros is one line, and the bytes between are in lines of at most 16.
-/

namespace Saad

open General

/-- A global with data, as the functions of the IR make it. -/
structure DataGlobal extends IrGlobal where
  name_valid : ∀ byte ∈ name, isSymbolByte byte = true
  name_no_dot : name.head? ≠ some dot
  align_pos : 0 < align
  align_lt : align < 2 ^ 31
  /-- The size is an `int`. -/
  size_lt : data.length < 2 ^ 31
  relocs_inside : ∀ reloc ∈ relocs, reloc.offset + 8 ≤ data.length
  relocs_apart : relocs.Pairwise fun a b => a.offset + 8 ≤ b.offset ∨ b.offset + 8 ≤ a.offset

def DataGlobal.symbolName (global : DataGlobal) : SymbolName :=
  ⟨global.name, global.name_valid, global.name_no_dot⟩

section Texts

def digitByte (n : ℕ) : BitVec 8 := BitVec.ofNat 8 (0x30 + n)

/-- A byte in decimal, without `printf`. -/
def x64ByteText (byte : BitVec 8) : Text :=
  let n := byte.toNat
  (if 100 ≤ n then [digitByte (n / 100)] else []) ++ (if 10 ≤ n then [digitByte (n / 10 % 10)] else []) ++
    [digitByte (n % 10)]

def x64ByteList : List (BitVec 8) → Text
  | [] => []
  | byte :: rest => x64ByteText byte ++ rest.flatMap fun byte => comma :: 0x20 :: x64ByteText byte

/-- A line with a directive and what is behind it. -/
def directiveLine (word rest : Text) : Text := 0x09 :: (word ++ 0x20 :: rest)

def alignLine (align : ℕ) : Text := directiveLine (asciiBytes "align") (decimalText align)

def labelLine (name : SymbolName) : Text := x64SymbolText name.bytes ++ [colon]

def dqLine (target : SymbolName) : Text := directiveLine (asciiBytes "dq") (x64SymbolText target.bytes)

def timesLine (zeros : ℕ) : Text :=
  directiveLine (asciiBytes "times") (decimalText zeros ++ asciiBytes " db 0")

def dbLine (bytes : List (BitVec 8)) : Text := directiveLine (asciiBytes "db") (x64ByteList bytes)

end Texts

section Loop

/-- The zeros that the bytes begin with. -/
def zeroRun (bytes : List (BitVec 8)) : ℕ := (bytes.takeWhile (· == 0)).length

/-- How many bytes are in one line, from the count so far: up to 16, until 8 zeros or more. -/
def chunkLength : ℕ → List (BitVec 8) → ℕ
  | n, [] => n
  | n, byte :: rest =>
    if n < 16 then
      if 0 < n ∧ byte = 0 ∧ 8 ≤ zeroRun (byte :: rest) then n else chunkLength (n + 1) rest
    else n

/-- The relocations from an offset on, when they are in order. -/
def relocsFrom (offset : ℕ) (relocs : List IrReloc) : List IrReloc :=
  relocs.dropWhile fun reloc => reloc.offset < offset

variable (symbol : ℕ → SymbolName) (data : List (BitVec 8))

/-- Where plain bytes end: at the next relocation or at the end of the data. -/
def dataStop (relocs : List IrReloc) : ℕ :=
  match relocs with
  | [] => data.length
  | reloc :: _ => if reloc.offset < data.length then reloc.offset else data.length

/-- The line at an offset and how many bytes it is, when the relocations are those from there on. -/
def dataStep (relocs : List IrReloc) (offset : ℕ) : Text × ℕ :=
  match relocs.head?.filter fun reloc => reloc.offset = offset with
  | some reloc => (dqLine (symbol reloc.target), 8)
  | none =>
    let stop := dataStop data relocs
    let span := (data.drop offset).take (stop - offset)
    let zeros := zeroRun span
    if 8 ≤ zeros ∨ (0 < zeros ∧ offset + zeros = stop) then (timesLine zeros, zeros)
    else
      let n := chunkLength 0 span
      (dbLine (span.take n), n)

variable {symbol data}

section Steps

variable {relocs : List IrReloc} {offset : ℕ} {bytes : List (BitVec 8)}

theorem zeroRun_le (bytes : List (BitVec 8)) : zeroRun bytes ≤ bytes.length :=
  (List.takeWhile_prefix _).length_le

theorem take_zeroRun (bytes : List (BitVec 8)) : bytes.take (zeroRun bytes) = List.replicate (zeroRun bytes) 0 := by
  have front : bytes.take (zeroRun bytes) = bytes.takeWhile (· == 0) :=
    (List.prefix_iff_eq_take.mp (List.takeWhile_prefix _)).symm
  rw [front]
  apply List.eq_replicate_iff.mpr
  refine ⟨rfl, fun byte member => ?_⟩
  simpa using List.mem_takeWhile_imp member

theorem chunkLength_bounds (n : ℕ) (bytes : List (BitVec 8)) :
    n ≤ chunkLength n bytes ∧ chunkLength n bytes ≤ max n 16 ∧ chunkLength n bytes ≤ n + bytes.length := by
  fun_induction chunkLength n bytes with
  | case1 n => simp
  | case2 n byte rest small ends => simp
  | case3 n byte rest small goes ih =>
    simp only [List.length_cons]
    omega
  | case4 n byte rest full => simp

theorem chunkLength_pos (nonempty : bytes ≠ []) : 0 < chunkLength 0 bytes := by
  cases bytes with
  | nil => exact absurd rfl nonempty
  | cons byte rest =>
    have bounds := chunkLength_bounds (0 + 1) rest
    rw [chunkLength, if_pos (by decide), if_neg (by simp)]
    omega

theorem dataStop_le (data : List (BitVec 8)) (relocs : List IrReloc) : dataStop data relocs ≤ data.length := by
  cases relocs with
  | nil => exact le_rfl
  | cons reloc relocs =>
    rw [dataStop]
    split <;> omega

/-- What a line can be: the address of a relocation, some zeros, or some bytes. The relocations are
those from the offset on. -/
theorem dataStep_cases (symbol : ℕ → SymbolName) (inside : offset < data.length)
    (behind : ∀ reloc ∈ relocs.head?, offset ≤ reloc.offset) :
    (∃ reloc, relocs.head? = some reloc ∧ reloc.offset = offset ∧
      dataStep symbol data relocs offset = (dqLine (symbol reloc.target), 8)) ∨
    (∃ count, 0 < count ∧ offset + count ≤ dataStop data relocs ∧
      (data.drop offset).take count = List.replicate count 0 ∧
      dataStep symbol data relocs offset = (timesLine count, count)) ∨
    ∃ count, 0 < count ∧ count ≤ 16 ∧ offset + count ≤ dataStop data relocs ∧
      dataStep symbol data relocs offset = (dbLine ((data.drop offset).take count), count) := by
  cases here : relocs.head?.filter fun reloc => decide (reloc.offset = offset) with
  | some reloc =>
    obtain ⟨head, same⟩ := Option.filter_eq_some_iff.mp here
    refine .inl ⟨reloc, head, of_decide_eq_true same, ?_⟩
    rw [dataStep, here]
  | none =>
    have stop_le := dataStop_le data relocs
    have later : offset < dataStop data relocs := by
      cases relocs with
      | nil => exact inside
      | cons reloc relocs =>
        have le := behind reloc rfl
        have other : reloc.offset ≠ offset := by
          intro same
          simp [same] at here
        rw [dataStop]
        split <;> omega
    let span := (data.drop offset).take (dataStop data relocs - offset)
    have length : span.length = dataStop data relocs - offset := by
      simp only [span, List.length_take, List.length_drop]
      omega
    have taken : ∀ count, count ≤ span.length → span.take count = (data.drop offset).take count := by
      intro count le
      rw [List.take_take, min_eq_left (by omega)]
    have zeros_le := zeroRun_le span
    by_cases run : 8 ≤ zeroRun span ∨ (0 < zeroRun span ∧ offset + zeroRun span = dataStop data relocs)
    · refine .inr (.inl ⟨zeroRun span, by omega, by omega, ?_, ?_⟩)
      · rw [← taken _ zeros_le, take_zeroRun]
      · simp only [dataStep, here]
        exact if_pos run
    · have bounds := chunkLength_bounds 0 span
      have positive : 0 < chunkLength 0 span := by
        apply chunkLength_pos
        apply List.ne_nil_of_length_pos
        omega
      refine .inr (.inr ⟨chunkLength 0 span, positive, by omega, by omega, ?_⟩)
      rw [← taken _ (by omega)]
      simp only [dataStep, here]
      exact if_neg run

theorem relocsFrom_behind (relocs : List IrReloc) (offset : ℕ) :
    ∀ reloc ∈ (relocsFrom offset relocs).head?, offset ≤ reloc.offset := by
  intro reloc head
  have stays := List.head?_dropWhile_not (fun reloc : IrReloc => decide (reloc.offset < offset)) relocs
  rw [relocsFrom, Option.mem_def] at head
  rw [head] at stays
  simpa using stays

theorem dataStep_pos (symbol : ℕ → SymbolName) (inside : offset < data.length)
    (behind : ∀ reloc ∈ relocs.head?, offset ≤ reloc.offset) : 0 < (dataStep symbol data relocs offset).2 := by
  obtain ⟨reloc, -, -, step⟩ | ⟨count, positive, -, -, step⟩ | ⟨count, positive, -, -, step⟩ :=
    dataStep_cases symbol inside behind
  · rw [step]
    exact Nat.zero_lt_succ 7
  · rw [step]
    exact positive
  · rw [step]
    exact positive

end Steps

/-- The lines from an offset on. Relocations in front of it are done. -/
def dataLines (symbol : ℕ → SymbolName) (data : List (BitVec 8)) (relocs : List IrReloc) (offset : ℕ) : List Text :=
  if offset < data.length then
    (dataStep symbol data (relocsFrom offset relocs) offset).1 ::
      dataLines symbol data (relocsFrom offset relocs)
        (offset + (dataStep symbol data (relocsFrom offset relocs) offset).2)
  else []
termination_by data.length - offset
decreasing_by
  next inside =>
    have positive := dataStep_pos symbol inside (relocsFrom_behind relocs offset)
    omega

end Loop

/-- The relocations by offset. No two have the same offset, so their order is the one of `qsort`. -/
def DataGlobal.sortedRelocs (global : DataGlobal) : List IrReloc :=
  global.relocs.mergeSort fun a b => a.offset ≤ b.offset

/-- All lines behind the label. -/
def DataGlobal.lines (symbol : ℕ → SymbolName) (global : DataGlobal) : List Text :=
  dataLines symbol global.data global.sortedRelocs 0 ++ if global.data.length = 0 then [dbLine [0]] else []

def x64EmitGlobalData (symbol : ℕ → SymbolName) (global : DataGlobal) : List Text :=
  alignLine global.align :: labelLine global.symbolName :: global.lines symbol

end Saad
