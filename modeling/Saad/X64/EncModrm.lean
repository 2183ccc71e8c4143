import Saad.X64.AsmLayout

/-! # The encoding of operands

`enc_modrm` writes the prefixes, the opcode, the ModRM byte and what follows it. The decoder is the
one of the processor's manual.
-/

namespace Saad

open General

/-- A general register as an operand. `spl`, `bpl`, `sil` and `dil` are the numbers 4 to 7 in 8 bits. -/
structure AsmRegister where
  reg : BitVec 4
  width : ℕ
  high8 : Bool
  high8_eq : high8 = (width == 1 && decide (4 ≤ reg.toNat ∧ reg.toNat ≤ 7))
deriving DecidableEq, Repr

/-- What is between the brackets. `rsp` can't be an index. -/
inductive AsmAddress where
  | rip (symbol : Text) (disp : ℤ)
  | based (base : BitVec 4) (index : Option (BitVec 4)) (disp : ℤ) (no_rsp : index ≠ some 4)
deriving DecidableEq, Repr

inductive AsmOperand where
  | reg (register : AsmRegister)
  | xmm (reg : BitVec 4)
  | mem (address : AsmAddress) (width : ℕ)
  | imm (value : ℤ)
  | label (symbol : Text)
deriving DecidableEq, Repr

/-- The instruction that is being encoded, and the symbols of the object. -/
structure AsmEncoder where
  symbols : List Text
  bytes : List (BitVec 8)
  relocs : List AsmReloc
  ripField : Option ℕ
deriving DecidableEq, Repr

/-- The symbol with the name, which is made when there is none yet. -/
def asmSymbol (symbols : List Text) (name : Text) : List Text × ℕ :=
  match symbols.idxOf? name with
  | some index => (symbols, index)
  | none => (symbols ++ [name], symbols.length)

def AsmEncoder.put (e : AsmEncoder) (bytes : List (BitVec 8)) : AsmEncoder := { e with bytes := e.bytes ++ bytes }

def fitsI32 (value : ℤ) : Bool := decide (-2 ^ 31 ≤ value ∧ value ≤ 2 ^ 31 - 1)

section Encoding

/-- Whether `reg & 8` is set. -/
def highBit (reg : BitVec 4) : Bool := reg.getLsbD 3

/-- The bits of `reg & 7`. -/
def lowBits (reg : BitVec 4) : BitVec 8 := (reg &&& 7).setWidth 8

/-- A ModRM or SIB byte. -/
def threeFields (high : BitVec 2) (middle low : BitVec 8) : BitVec 8 :=
  (high.setWidth 8 <<< 6) ||| (middle <<< 3) ||| low

/-- The bits of the operand in the REX prefix: X and B, and whether its register needs the prefix. -/
def rexOfOperand : AsmOperand → Option (Bool × Bool × Bool)
  | .reg register => some (false, highBit register.reg, register.high8)
  | .xmm reg => some (false, highBit reg, false)
  | .mem (.rip _ _) _ => some (false, false, false)
  | .mem (.based base index _ _) _ => some (index.any highBit, highBit base, false)
  | .imm _ => none
  | .label _ => none

def rexByte (w r x b : Bool) : BitVec 8 :=
  0x40 ||| (if w then 8 else 0) ||| (if r then 4 else 0) ||| (if b then 1 else 0) ||| (if x then 2 else 0)

/-- The size of a displacement: none, a byte or four. `rbp` and `r13` always have one. -/
def modOf (base : BitVec 4) (disp : ℤ) : BitVec 2 :=
  if disp = 0 ∧ lowBits base ≠ 5 then 0 else if fitsI8 disp then 1 else 2

/-- The ModRM byte and what follows it. -/
def encOperand (e : AsmEncoder) (reg : BitVec 4) : AsmOperand → Option AsmEncoder
  | .reg register => some (e.put [threeFields 3 (lowBits reg) (lowBits register.reg)])
  | .xmm number => some (e.put [threeFields 3 (lowBits reg) (lowBits number)])
  | .mem (.rip symbol disp) _ =>
    let e := e.put [threeFields 0 (lowBits reg) 5]
    let (symbols, index) := asmSymbol e.symbols symbol
    some { symbols := symbols
           bytes := e.bytes ++ littleEndian 4 0
           relocs := e.relocs ++ [{ offset := e.bytes.length, kind := .rel32, symbol := index, addend := disp, trailing := 0 }]
           ripField := some e.bytes.length }
  | .mem (.based base index disp _) _ =>
    if !fitsI32 disp then none
    else
      let mod := modOf base disp
      let e := match index with
        | some index => e.put [threeFields mod (lowBits reg) 4, threeFields 0 (lowBits index) (lowBits base)]
        | none =>
          if lowBits base = 4 then e.put [threeFields mod (lowBits reg) 4, 0x24]
          else e.put [threeFields mod (lowBits reg) (lowBits base)]
      some (if mod = 1 then e.put (littleEndian 1 disp) else if mod = 2 then e.put (littleEndian 4 disp) else e)
  | .imm _ => none
  | .label _ => none

/-- Encodes a register or an opcode's extension in the reg field, and an operand. The legacy prefix
is 0 when there is none. -/
def encModrm (e : AsmEncoder) (legacy : BitVec 8) (rexW : Bool) (opcode : List (BitVec 8)) (reg : BitVec 4)
    (regHigh8 : Bool) (rm : AsmOperand) : Option AsmEncoder :=
  match rexOfOperand rm with
  | none => none
  | some (x, b, high8) =>
    let e := if legacy ≠ 0 then e.put [legacy] else e
    let e := if rexW || highBit reg || regHigh8 || x || b || high8 then e.put [rexByte rexW (highBit reg) x b] else e
    encOperand (e.put opcode) reg rm

/-- The bytes after a rip-relative displacement, such as an immediate. -/
def encFinish (e : AsmEncoder) : AsmEncoder :=
  match e.ripField with
  | some field => { e with relocs := e.relocs.map fun reloc =>
      if reloc.offset = (field : ℤ) then { reloc with trailing := e.bytes.length - (field + 4) } else reloc }
  | none => e

end Encoding

/-! ## The opcodes of `asm_encode` -/

section Opcodes

/-- `add`, `or`, `adc`, `sbb`, `and`, `sub`, `xor` and `cmp` with registers and memory. -/
def aluOpcodes : List (List (BitVec 8)) :=
  (List.range 8).flatMap fun op => (List.range 4).map fun form => [BitVec.ofNat 8 (op * 8 + form)]

/-- The instructions with one byte: numbers in `add` and so on, `test`, `mov`, `lea`, `movsxd`, the unary
ones, the shifts and `call`. -/
def byteOpcodes : List (List (BitVec 8)) :=
  [0x80, 0x81, 0x83, 0x84, 0x85, 0x88, 0x89, 0x8A, 0x8B, 0xC6, 0xC7, 0x8D, 0x63, 0xF6, 0xF7, 0xFE, 0xFF, 0xD2, 0xD3,
    0xD0, 0xD1, 0xC0, 0xC1].map fun op => [op]

/-- `setcc`. -/
def setOpcodes : List (List (BitVec 8)) := (List.range 16).map fun cc => [0x0F, BitVec.ofNat 8 (0x90 + cc)]

/-- `movzx`, `movsx`, `imul`, `bt` with a number, and the SSE instructions. -/
def escapedOpcodes : List (List (BitVec 8)) :=
  [0xB6, 0xB7, 0xBE, 0xBF, 0xAF, 0xBA, 0x10, 0x11, 0x28, 0x29, 0x6E, 0x7E, 0x58, 0x5C, 0x59, 0x5E, 0x2E, 0x57, 0x5A,
    0x51, 0x2A, 0x2C].map fun op => [0x0F, op]

def asmOpcodes : List (List (BitVec 8)) := aluOpcodes ++ byteOpcodes ++ setOpcodes ++ escapedOpcodes

/-- No prefix, or one for 16 bits or the SSE instructions. -/
def legacyPrefixes : List (BitVec 8) := [0, 0x66, 0xF2, 0xF3]

end Opcodes

/-! ## Decoding -/

/-- The operand of the rm field. -/
inductive DecodedRm where
  | register (number : BitVec 4)
  | memory (base index : Option (BitVec 4)) (scale : ℕ) (disp : ℤ)
  | ripRelative (disp : ℤ)
deriving DecidableEq, Repr

structure DecodedInst where
  legacy : Option (BitVec 8)
  rex : Option (BitVec 4)
  opcode : List (BitVec 8)
  reg : BitVec 4
  rm : DecodedRm
deriving DecidableEq, Repr

section Decoding

def decodeLegacy : List (BitVec 8) → Option (BitVec 8) × List (BitVec 8)
  | byte :: rest =>
    if byte = 0x66 ∨ byte = 0xF2 ∨ byte = 0xF3 then (some byte, rest) else (none, byte :: rest)
  | [] => (none, [])

/-- A REX prefix is 4 in the high half, and W, R, X and B. -/
def decodeRex : List (BitVec 8) → Option (BitVec 4) × List (BitVec 8)
  | byte :: rest => if byte >>> 4 = 4 then (some (byte.setWidth 4), rest) else (none, byte :: rest)
  | [] => (none, [])

/-- One byte, or two when the first is `0F`. -/
def decodeOpcode : List (BitVec 8) → Option (List (BitVec 8) × List (BitVec 8))
  | [] => none
  | byte :: rest =>
    if byte = 0x0F then
      match rest with
      | second :: rest => some ([byte, second], rest)
      | [] => none
    else some ([byte], rest)

/-- A sign-extended displacement. -/
def decodeDisp (count : ℕ) (bytes : List (BitVec 8)) : Option (ℤ × List (BitVec 8)) :=
  if count ≤ bytes.length then some (readSigned (bytes.take count), bytes.drop count) else none

/-- The three bits of a field with the bit of the REX prefix above them. -/
def withHighBit (bit : Bool) (low : BitVec 3) : BitVec 4 := BitVec.ofBool bit ++ low

/-- A number of bytes by the mod field: none, 1 or 4. -/
def dispSize (mod : BitVec 2) : ℕ := if mod = 1 then 1 else if mod = 2 then 4 else 0

/-- The SIB byte: no index when its number is 4, and no base but 4 bytes for number 5 without mod. -/
def decodeSib (rex : BitVec 4) (mod : BitVec 2) : List (BitVec 8) → Option (DecodedRm × List (BitVec 8))
  | [] => none
  | sib :: rest =>
    let index := withHighBit (rex.getLsbD 1) (sib.extractLsb' 3 3)
    let index := if index = 4 then none else some index
    let scale := 2 ^ (sib.extractLsb' 6 2).toNat
    if sib.extractLsb' 0 3 = 5 ∧ mod = 0 then
      (decodeDisp 4 rest).map fun disp => (.memory none index scale disp.1, disp.2)
    else
      (decodeDisp (dispSize mod) rest).map fun disp =>
        (.memory (some (withHighBit (rex.getLsbD 0) (sib.extractLsb' 0 3))) index scale disp.1, disp.2)

/-- The rm field with the bytes that follow it. -/
def decodeRm (rex : BitVec 4) (mod : BitVec 2) (rm : BitVec 3) (rest : List (BitVec 8)) :
    Option (DecodedRm × List (BitVec 8)) :=
  if mod = 3 then some (.register (withHighBit (rex.getLsbD 0) rm), rest)
  else if rm = 4 then decodeSib rex mod rest
  else if rm = 5 ∧ mod = 0 then (decodeDisp 4 rest).map fun disp => (.ripRelative disp.1, disp.2)
  else (decodeDisp (dispSize mod) rest).map fun disp =>
    (.memory (some (withHighBit (rex.getLsbD 0) rm)) none 1 disp.1, disp.2)

/-- An instruction with a ModRM byte, and the bytes behind it. -/
def decodeInst (bytes : List (BitVec 8)) : Option (DecodedInst × List (BitVec 8)) :=
  let (legacy, bytes) := decodeLegacy bytes
  let (rex, bytes) := decodeRex bytes
  match decodeOpcode bytes with
  | some (opcode, modrm :: bytes) =>
    let bits := rex.getD 0
    (decodeRm bits (modrm.extractLsb' 6 2) (modrm.extractLsb' 0 3) bytes).map fun rm =>
      ({ legacy := legacy, rex := rex, opcode := opcode,
         reg := withHighBit (bits.getLsbD 2) (modrm.extractLsb' 3 3), rm := rm.1 }, rm.2)
  | _ => none

/-- The register of an access to 8 bits. -/
inductive ByteRegister where
  | low (number : BitVec 4)
  | high (number : BitVec 4)
deriving DecidableEq, Repr

/-- Without a REX prefix, the numbers 4 to 7 are `ah`, `ch`, `dh` and `bh`. -/
def byteRegister (rex : Option (BitVec 4)) (number : BitVec 4) : ByteRegister :=
  if rex.isNone ∧ 4 ≤ number.toNat ∧ number.toNat ≤ 7 then .high (number - 4) else .low number

end Decoding

/-! ## The bits of the bytes -/

section Fields

/-- The three bits that a field has of a register. -/
def low3 (reg : BitVec 4) : BitVec 3 := reg.setWidth 3

theorem withHighBit_low3 : ∀ reg : BitVec 4, withHighBit (highBit reg) (low3 reg) = reg := by decide

theorem low3_eq_four : ∀ reg : BitVec 4, low3 reg = 4 ↔ lowBits reg = 4 := by decide

theorem low3_eq_five : ∀ reg : BitVec 4, low3 reg = 5 ↔ lowBits reg = 5 := by decide

theorem threeFields_high : ∀ (high : BitVec 2) (middle low : BitVec 4),
    (threeFields high (lowBits middle) (lowBits low)).extractLsb' 6 2 = high := by decide

theorem threeFields_middle : ∀ (high : BitVec 2) (middle low : BitVec 4),
    (threeFields high (lowBits middle) (lowBits low)).extractLsb' 3 3 = low3 middle := by decide

theorem threeFields_low : ∀ (high : BitVec 2) (middle low : BitVec 4),
    (threeFields high (lowBits middle) (lowBits low)).extractLsb' 0 3 = low3 low := by decide

theorem rexByte_high (w r x b : Bool) : rexByte w r x b >>> 4 = 4 := by
  revert w r x b
  decide

theorem rexByte_bits (w r x b : Bool) :
    ((rexByte w r x b).setWidth 4).getLsbD 3 = w ∧ ((rexByte w r x b).setWidth 4).getLsbD 2 = r ∧
      ((rexByte w r x b).setWidth 4).getLsbD 1 = x ∧ ((rexByte w r x b).setWidth 4).getLsbD 0 = b := by
  revert w r x b
  decide

theorem rexByte_not_legacy (w r x b : Bool) :
    ¬(rexByte w r x b = 0x66 ∨ rexByte w r x b = 0xF2 ∨ rexByte w r x b = 0xF3) := by
  revert w r x b
  decide

end Fields

/-! ## What was written is read back -/

/-- The operand as the decoder is to read it. A rip-relative one gets its displacement later. -/
def decodedRm : AsmOperand → DecodedRm
  | .reg register => .register register.reg
  | .xmm reg => .register reg
  | .mem (.rip _ _) _ => .ripRelative 0
  | .mem (.based base index disp _) _ => .memory (some base) index 1 disp
  | .imm _ => .ripRelative 0
  | .label _ => .ripRelative 0

/-- A register, an address in the signed range of 32 bits, or a rip-relative one. -/
def Encodable : AsmOperand → Prop
  | .reg _ => True
  | .xmm _ => True
  | .mem (.rip _ _) _ => True
  | .mem (.based _ _ disp _) _ => -2 ^ 31 ≤ disp ∧ disp ≤ 2 ^ 31 - 1
  | .imm _ => False
  | .label _ => False

section RoundTrip

variable {e : AsmEncoder} {reg : BitVec 4} {rex : BitVec 4}

theorem decodeDisp_littleEndian {count : ℕ} {value : ℤ} (fits : value.bmod (256 ^ count) = value)
    (rest : List (BitVec 8)) : decodeDisp count (littleEndian count value ++ rest) = some (value, rest) := by
  have length := length_littleEndian count value
  have enough : count ≤ (littleEndian count value ++ rest).length := by
    rw [List.length_append, length]
    exact Nat.le_add_right _ _
  rw [decodeDisp, if_pos enough, List.take_left' length, List.drop_left' length, readSigned_littleEndian, fits]

/-- The bytes of a displacement of the size that the mod field tells. -/
def dispBytes (mod : BitVec 2) (disp : ℤ) : List (BitVec 8) := littleEndian (dispSize mod) disp

theorem decodeDisp_dispBytes {base : BitVec 4} {disp : ℤ} (fits : -2 ^ 31 ≤ disp ∧ disp ≤ 2 ^ 31 - 1)
    (rest : List (BitVec 8)) :
    decodeDisp (dispSize (modOf base disp)) (dispBytes (modOf base disp) disp ++ rest) = some (disp, rest) := by
  apply decodeDisp_littleEndian
  rw [modOf]
  split_ifs with none byte
  · rw [none.1]
    rfl
  · have range := of_decide_eq_true byte
    apply Int.bmod_eq_of_le <;> simp [dispSize] <;> omega
  · apply Int.bmod_eq_of_le <;> simp [dispSize] <;> omega

/-- Without mod there is no displacement, and the base is not one that needs it. -/
theorem modOf_zero {base : BitVec 4} {disp : ℤ} (none : modOf base disp = 0) : lowBits base ≠ 5 := by
  rw [modOf] at none
  split_ifs at none with zero byte
  · exact zero.2
  · cases none
  · cases none

theorem modOf_ne_three (base : BitVec 4) (disp : ℤ) : modOf base disp ≠ 3 := by
  rw [modOf]
  split_ifs <;> decide

/-- The displacement after the ModRM and SIB bytes. -/
theorem put_dispBytes (e : AsmEncoder) (base : BitVec 4) (disp : ℤ) :
    (if modOf base disp = 1 then e.put (littleEndian 1 disp) else if modOf base disp = 2 then e.put (littleEndian 4 disp)
      else e) = e.put (dispBytes (modOf base disp) disp) := by
  rw [dispBytes, dispSize]
  split_ifs
  · rfl
  · rfl
  · rw [littleEndian, AsmEncoder.put, List.append_nil]

/-- The bytes of the operand are read as the operand, whatever follows them. -/
def ReadsAs (rex : BitVec 4) (reg : BitVec 4) (bytes : List (BitVec 8)) (rm : DecodedRm) : Prop :=
  ∃ modrm tail, bytes = modrm :: tail ∧ modrm.extractLsb' 3 3 = low3 reg ∧
    ∀ rest, decodeRm rex (modrm.extractLsb' 6 2) (modrm.extractLsb' 0 3) (tail ++ rest) = some (rm, rest)

theorem readsAs_register (number : BitVec 4) (rexB : rex.getLsbD 0 = highBit number) :
    ReadsAs rex reg [threeFields 3 (lowBits reg) (lowBits number)] (.register number) := by
  refine ⟨_, _, rfl, threeFields_middle _ _ _, fun rest => ?_⟩
  rw [threeFields_high, threeFields_low, decodeRm, if_pos rfl, rexB, withHighBit_low3]
  rfl

theorem readsAs_rip : ReadsAs rex reg (threeFields 0 (lowBits reg) (lowBits 5) :: littleEndian 4 0) (.ripRelative 0) := by
  refine ⟨_, _, rfl, threeFields_middle _ _ _, fun rest => ?_⟩
  have five : low3 5 = 5 := rfl
  rw [threeFields_high, threeFields_low, decodeRm, if_neg (by decide), if_neg (by decide), if_pos ⟨five, rfl⟩,
    decodeDisp_littleEndian (by decide)]
  rfl

section Based

variable {base : BitVec 4} {disp : ℤ}

/-- A base without an index, which is not `rsp` or `r12`. -/
theorem readsAs_base (rexB : rex.getLsbD 0 = highBit base) (fits : -2 ^ 31 ≤ disp ∧ disp ≤ 2 ^ 31 - 1)
    (noSib : lowBits base ≠ 4) :
    ReadsAs rex reg (threeFields (modOf base disp) (lowBits reg) (lowBits base) :: dispBytes (modOf base disp) disp)
      (.memory (some base) none 1 disp) := by
  refine ⟨_, _, rfl, threeFields_middle _ _ _, fun rest => ?_⟩
  have notFour : low3 base ≠ 4 := fun four => noSib ((low3_eq_four base).mp four)
  have notRip : ¬(low3 base = 5 ∧ modOf base disp = 0) := fun both =>
    modOf_zero both.2 ((low3_eq_five base).mp both.1)
  rw [threeFields_high, threeFields_low, decodeRm, if_neg (modOf_ne_three base disp), if_neg notFour, if_neg notRip,
    decodeDisp_dispBytes fits, rexB, withHighBit_low3]
  rfl

/-- A SIB byte with the bits of an index and the base. -/
theorem readsAs_sib {index : BitVec 4} {found : Option (BitVec 4)} (rexB : rex.getLsbD 0 = highBit base)
    (rexX : rex.getLsbD 1 = highBit index) (isIndex : (if index = 4 then none else some index) = found)
    (fits : -2 ^ 31 ≤ disp ∧ disp ≤ 2 ^ 31 - 1) :
    ReadsAs rex reg (threeFields (modOf base disp) (lowBits reg) (lowBits 4) ::
      threeFields 0 (lowBits index) (lowBits base) :: dispBytes (modOf base disp) disp)
      (.memory (some base) found 1 disp) := by
  refine ⟨_, _, rfl, threeFields_middle _ _ _, fun rest => ?_⟩
  have four : low3 4 = 4 := rfl
  have notBare : ¬(low3 base = 5 ∧ modOf base disp = 0) := fun both =>
    modOf_zero both.2 ((low3_eq_five base).mp both.1)
  rw [threeFields_high, threeFields_low, decodeRm, if_neg (modOf_ne_three base disp), if_pos four, List.cons_append,
    decodeSib, threeFields_high, threeFields_middle, threeFields_low, if_neg notBare, decodeDisp_dispBytes fits,
    rexB, rexX, withHighBit_low3, withHighBit_low3, isIndex]
  rfl

end Based

/-- The operand is encoded, and read back by a decoder that has its bits of the REX prefix. -/
theorem encOperand_readsAs (e : AsmEncoder) (reg : BitVec 4) {rm : AsmOperand} {x b high8 : Bool} (encodable : Encodable rm)
    (bits : rexOfOperand rm = some (x, b, high8)) (rexX : rex.getLsbD 1 = x) (rexB : rex.getLsbD 0 = b) :
    ∃ bytes e', encOperand e reg rm = some e' ∧ e'.bytes = e.bytes ++ bytes ∧ ReadsAs rex reg bytes (decodedRm rm) := by
  cases rm with
  | reg register =>
    cases bits
    exact ⟨_, _, rfl, rfl, readsAs_register _ rexB⟩
  | xmm number =>
    cases bits
    exact ⟨_, _, rfl, rfl, readsAs_register _ rexB⟩
  | mem address width =>
    cases address with
    | rip symbol disp =>
      refine ⟨_, _, rfl, ?_, readsAs_rip⟩
      rw [AsmEncoder.put, List.append_assoc]
      rfl
    | based base index disp no_rsp =>
      have fits : fitsI32 disp = true := decide_eq_true encodable
      cases bits
      simp only [encOperand, fits, Bool.not_true, Bool.false_eq_true, if_false, put_dispBytes]
      cases index with
      | some index =>
        refine ⟨_, _, rfl, List.append_assoc .., readsAs_sib rexB ?_ (if_neg ?_) encodable⟩
        · exact rexX
        · exact fun same => no_rsp (congrArg some same)
      | none =>
        split_ifs with sib
        · have lows : lowBits base = lowBits 4 := sib
          refine ⟨_, _, rfl, List.append_assoc .., ?_⟩
          have reads : ReadsAs rex reg (threeFields (modOf base disp) (lowBits reg) (lowBits 4) ::
              threeFields 0 (lowBits 4) (lowBits base) :: dispBytes (modOf base disp) disp)
              (.memory (some base) none 1 disp) := readsAs_sib rexB rexX (if_pos rfl) encodable
          rw [lows] at reads
          exact reads
        · exact ⟨_, _, rfl, List.append_assoc .., readsAs_base rexB encodable sib⟩
  | imm value => cases bits
  | label symbol => cases bits

/-- An opcode of one byte that is no prefix, or `0F` and another byte. -/
def isOpcode : List (BitVec 8) → Bool
  | [byte] => byte != 0x0F && byte != 0x66 && byte != 0xF2 && byte != 0xF3 && byte >>> 4 != 4
  | [byte, _] => byte == 0x0F
  | _ => false

theorem asmOpcodes_isOpcode : ∀ opcode ∈ asmOpcodes, isOpcode opcode = true := by decide

/-- An opcode is not taken for a prefix, and read back. -/
theorem decode_opcode {opcode : List (BitVec 8)} (valid : isOpcode opcode = true) (rest : List (BitVec 8)) :
    decodeLegacy (opcode ++ rest) = (none, opcode ++ rest) ∧ decodeRex (opcode ++ rest) = (none, opcode ++ rest) ∧
      decodeOpcode (opcode ++ rest) = some (opcode, rest) := by
  cases opcode with
  | nil => cases valid
  | cons byte more =>
    cases more with
    | nil =>
      simp only [isOpcode, Bool.and_eq_true, bne_iff_ne, ne_eq] at valid
      obtain ⟨⟨⟨⟨notEscape, not66⟩, notF2⟩, notF3⟩, notRex⟩ := valid
      simp only [List.cons_append, List.nil_append, decodeLegacy, decodeRex, decodeOpcode, not66, notF2, notF3, notRex,
        notEscape, or_self, if_false, and_self]
    | cons second more =>
      cases more with
      | nil =>
        obtain rfl : byte = 0x0F := eq_of_beq valid
        exact ⟨rfl, rfl, rfl⟩
      | cons third more => cases valid

/-- The bytes of the legacy prefix, and of the REX prefix when there is one. -/
def legacyBytes (legacy : BitVec 8) : List (BitVec 8) := if legacy ≠ 0 then [legacy] else []

def rexBytes (need w r x b : Bool) : List (BitVec 8) := if need then [rexByte w r x b] else []

theorem decodeLegacy_bytes {legacy : BitVec 8} (known : legacy ∈ legacyPrefixes) {tail : List (BitVec 8)}
    (plain : decodeLegacy tail = (none, tail)) :
    decodeLegacy (legacyBytes legacy ++ tail) = (if legacy = 0 then none else some legacy, tail) := by
  rw [legacyBytes]
  simp only [legacyPrefixes, List.mem_cons, List.not_mem_nil, or_false] at known
  rcases known with rfl | rfl | rfl | rfl
  · exact plain
  · rfl
  · rfl
  · rfl

/-- The REX prefix comes behind the legacy prefix, in front of the opcode. -/
theorem decodeRex_bytes (need w r x b : Bool) {tail : List (BitVec 8)} (legacyFree : decodeLegacy tail = (none, tail))
    (plain : decodeRex tail = (none, tail)) :
    decodeLegacy (rexBytes need w r x b ++ tail) = (none, rexBytes need w r x b ++ tail) ∧
      decodeRex (rexBytes need w r x b ++ tail) = (if need then some ((rexByte w r x b).setWidth 4) else none, tail) := by
  rw [rexBytes]
  cases need with
  | false => exact ⟨legacyFree, plain⟩
  | true =>
    simp only [if_true, List.cons_append, List.nil_append, decodeLegacy, decodeRex, if_neg (rexByte_not_legacy w r x b),
      if_pos (rexByte_high w r x b), and_self]

/-- The bits of the REX prefix, which are all zero when there is no need for it. -/
theorem rexBits {need w r x b : Bool} (needed : need = false → w = false ∧ r = false ∧ x = false ∧ b = false) :
    let bits := (if need then some ((rexByte w r x b).setWidth 4) else none : Option (BitVec 4)).getD 0
    bits.getLsbD 3 = w ∧ bits.getLsbD 2 = r ∧ bits.getLsbD 1 = x ∧ bits.getLsbD 0 = b := by
  cases need with
  | true => exact rexByte_bits w r x b
  | false =>
    obtain ⟨rfl, rfl, rfl, rfl⟩ := needed rfl
    exact ⟨rfl, rfl, rfl, rfl⟩

/-- The encoder's new bytes, with what the decoder and the linker make of them. -/
structure EncodedAs (e e' : AsmEncoder) (legacy : BitVec 8) (rexW : Bool) (opcode : List (BitVec 8)) (reg : BitVec 4)
    (regHigh8 : Bool) (rm : AsmOperand) (written : List (BitVec 8)) (rex : Option (BitVec 4)) : Prop where
  bytes_eq : e'.bytes = e.bytes ++ written
  /-- The decoder takes the written bytes, and no others. -/
  decodes : ∀ rest, decodeInst (written ++ rest) =
    some ({ legacy := if legacy = 0 then none else some legacy, rex := rex, opcode := opcode, reg := reg,
            rm := decodedRm rm }, rest)
  wide : (rex.getD 0).getLsbD 3 = rexW
  /-- `spl`, `bpl`, `sil` and `dil` carry a REX prefix, so an 8-bit register is never taken for `ah` and so on. -/
  low8 : ∀ register : AsmRegister, register.width = 1 →
    (rm = .reg register ∨ reg = register.reg ∧ regHigh8 = register.high8) →
      (register.high8 = true → rex.isSome = true) ∧ byteRegister rex register.reg = .low register.reg
  /-- The last four bytes of a rip-relative operand are a field for the linker. -/
  rip : ∀ symbol disp width, rm = .mem (.rip symbol disp) width → ∃ index, e'.symbols[index]? = some symbol ∧
    e'.ripField = some (e.bytes.length + written.length - 4) ∧
    e'.relocs = e.relocs ++ [{ offset := (e.bytes.length + written.length - 4 : ℕ), kind := .rel32, symbol := index,
                               addend := disp, trailing := 0 }]
  noRip : (∀ symbol disp width, rm ≠ .mem (.rip symbol disp) width) → e'.relocs = e.relocs ∧ e'.symbols = e.symbols

theorem asmSymbol_getElem? (symbols : List Text) (name : Text) :
    (asmSymbol symbols name).1[(asmSymbol symbols name).2]? = some name := by
  rw [asmSymbol]
  cases found : symbols.idxOf? name with
  | none => exact List.getElem?_concat_length
  | some index =>
    obtain ⟨inside, same, -⟩ := List.findIdx?_eq_some_iff_getElem.mp found
    exact (List.getElem?_eq_getElem inside).trans (congrArg some (eq_of_beq same))

/-- A rip-relative operand leaves a relocation for its last four bytes. -/
theorem encOperand_rip {symbol : Text} {disp : ℤ} {width : ℕ} {e' : AsmEncoder}
    (encoded : encOperand e reg (.mem (.rip symbol disp) width) = some e') :
    ∃ index, e'.symbols[index]? = some symbol ∧ e'.ripField = some (e'.bytes.length - 4) ∧
      e'.relocs = e.relocs ++ [{ offset := (e'.bytes.length - 4 : ℕ), kind := .rel32, symbol := index, addend := disp,
                                 trailing := 0 }] := by
  cases encoded
  refine ⟨_, asmSymbol_getElem? e.symbols symbol, ?_, ?_⟩
  · simp [AsmEncoder.put]
  · simp [AsmEncoder.put, asmSymbol]

theorem encOperand_noRip {rm : AsmOperand} {e' : AsmEncoder} (encoded : encOperand e reg rm = some e')
    (noRip : ∀ symbol disp width, rm ≠ .mem (.rip symbol disp) width) :
    e'.relocs = e.relocs ∧ e'.symbols = e.symbols := by
  cases rm with
  | reg register =>
    cases encoded
    exact ⟨rfl, rfl⟩
  | xmm number =>
    cases encoded
    exact ⟨rfl, rfl⟩
  | mem address width =>
    cases address with
    | rip symbol disp => exact absurd rfl (noRip symbol disp width)
    | based base index disp no_rsp =>
      simp only [encOperand, put_dispBytes] at encoded
      split at encoded
      · cases encoded
      · cases index with
        | some index =>
          cases encoded
          exact ⟨rfl, rfl⟩
        | none =>
          cases encoded
          split_ifs <;> exact ⟨rfl, rfl⟩
  | imm value => cases encoded
  | label symbol => cases encoded

theorem Encodable.rexOfOperand {rm : AsmOperand} (encodable : Encodable rm) :
    ∃ x b high8, rexOfOperand rm = some (x, b, high8) ∧ ∀ register, rm = .reg register → high8 = register.high8 := by
  cases rm with
  | reg register => exact ⟨_, _, _, rfl, fun _ same => by cases same; rfl⟩
  | xmm number => exact ⟨_, _, _, rfl, fun _ same => by cases same⟩
  | mem address width =>
    cases address <;> exact ⟨_, _, _, rfl, fun _ same => by cases same⟩
  | imm value => cases encodable
  | label symbol => cases encodable

/-- Of an 8-bit register, the name is the one with a REX prefix or its number is not 4 to 7. -/
theorem byteRegister_low {register : AsmRegister} {rex : Option (BitVec 4)} (narrow : register.width = 1)
    (carries : register.high8 = true → rex.isSome = true) : byteRegister rex register.reg = .low register.reg := by
  rw [byteRegister, if_neg]
  rintro ⟨none, range⟩
  have high : register.high8 = true := by
    rw [register.high8_eq, narrow, decide_eq_true range]
    rfl
  rw [Option.isNone_iff_eq_none.mp none] at carries
  exact Bool.false_ne_true (carries high)

theorem encModrm_decodes (e : AsmEncoder) {legacy : BitVec 8} (known : legacy ∈ legacyPrefixes) (rexW : Bool)
    {opcode : List (BitVec 8)} (table : opcode ∈ asmOpcodes) (reg : BitVec 4) (regHigh8 : Bool) {rm : AsmOperand}
    (encodable : Encodable rm) :
    ∃ e' written rex, encModrm e legacy rexW opcode reg regHigh8 rm = some e' ∧
      EncodedAs e e' legacy rexW opcode reg regHigh8 rm written rex := by
  obtain ⟨x, b, high8, bits, ofRegister⟩ := encodable.rexOfOperand
  let need := rexW || highBit reg || regHigh8 || x || b || high8
  let rex : Option (BitVec 4) := if need then some ((rexByte rexW (highBit reg) x b).setWidth 4) else none
  let start := ((if legacy ≠ 0 then e.put [legacy] else e).put (rexBytes need rexW (highBit reg) x b)).put opcode
  have start_bytes : start.bytes = e.bytes ++ (legacyBytes legacy ++ rexBytes need rexW (highBit reg) x b ++ opcode) := by
    simp only [start, legacyBytes]
    split_ifs <;> simp only [AsmEncoder.put, List.append_assoc, List.nil_append]
  have start_relocs : start.relocs = e.relocs ∧ start.symbols = e.symbols := by
    simp only [start]
    split_ifs <;> exact ⟨rfl, rfl⟩
  have needed : need = false → rexW = false ∧ highBit reg = false ∧ x = false ∧ b = false := by
    simp only [need, Bool.or_eq_false_iff]
    rintro ⟨⟨⟨⟨⟨w, r⟩, -⟩, x⟩, b⟩, -⟩
    exact ⟨w, r, x, b⟩
  obtain ⟨bitW, bitR, bitX, bitB⟩ := rexBits needed
  obtain ⟨bytes, e', encoded, e'_bytes, modrm, tail, rfl, middle, reads⟩ :=
    encOperand_readsAs start reg encodable bits bitX bitB
  have whole : encModrm e legacy rexW opcode reg regHigh8 rm = some e' := by
    rw [← encoded, encModrm, bits]
    simp only [start, rexBytes, need]
    split_ifs <;> simp only [AsmEncoder.put, List.append_nil]
  refine ⟨e', legacyBytes legacy ++ rexBytes need rexW (highBit reg) x b ++ opcode ++ modrm :: tail, rex, whole, ?_⟩
  have e'_whole : e'.bytes =
      e.bytes ++ (legacyBytes legacy ++ rexBytes need rexW (highBit reg) x b ++ opcode ++ modrm :: tail) := by
    rw [e'_bytes, start_bytes, List.append_assoc]
  have carries : ∀ register : AsmRegister, (rm = .reg register ∨ reg = register.reg ∧ regHigh8 = register.high8) →
      register.high8 = true → rex.isSome = true := by
    intro register which high
    have : need = true := by
      rcases which with same | same
      · simp only [need, ofRegister register same, high, Bool.or_true]
      · simp only [need, same.2, high, Bool.or_true, Bool.true_or]
    simp only [rex, if_pos this, Option.isSome_some]
  refine ⟨e'_whole, ?_, bitW, ?_, ?_, ?_⟩
  · intro rest
    obtain ⟨legacyFree, rexFree, opcode_read⟩ :=
      decode_opcode (asmOpcodes_isOpcode opcode table) (modrm :: (tail ++ rest))
    obtain ⟨behind, rex_read⟩ := decodeRex_bytes need rexW (highBit reg) x b
      legacyFree rexFree
    simp only [List.append_assoc, List.cons_append]
    rw [decodeInst, decodeLegacy_bytes known behind]
    simp only [rex_read, opcode_read, reads rest, middle, bitR, withHighBit_low3, Option.map_some]
    rfl
  · intro register narrow which
    exact ⟨carries register which, byteRegister_low narrow (carries register which)⟩
  · intro symbol disp width same
    subst same
    obtain ⟨index, named, field, relocs⟩ := encOperand_rip encoded
    rw [start_relocs.1, e'_whole, List.length_append] at relocs
    rw [e'_whole, List.length_append] at field
    exact ⟨index, named, field, relocs⟩
  · intro noRip
    obtain ⟨relocs, symbols⟩ := encOperand_noRip encoded noRip
    exact ⟨relocs.trans start_relocs.1, symbols.trans start_relocs.2⟩

/-- `add [r13+r12-128], r9w` with a prefix for 16 bits. -/
theorem encModrm_decodes_add : ∃ e' written rex,
    encModrm { symbols := [], bytes := [], relocs := [], ripField := none } 0x66 false [0x01] 9 false
      (.mem (.based 13 (some 12) (-128) (by decide)) 2) = some e' ∧
      EncodedAs { symbols := [], bytes := [], relocs := [], ripField := none } e' 0x66 false [0x01] 9 false
        (.mem (.based 13 (some 12) (-128) (by decide)) 2) written rex :=
  encModrm_decodes _ (by decide) false (by decide) 9 false (show Encodable _ from ⟨by decide, by decide⟩)

/-- The field of a rip-relative operand counts from the end of its instruction, with an immediate that is behind it. -/
theorem encFinish_trailing (e : AsmEncoder) (before : ∀ reloc ∈ e.relocs, reloc.offset < e.bytes.length)
    (legacy : BitVec 8) (rexW regHigh8 : Bool) (opcode immediate : List (BitVec 8)) (reg : BitVec 4) (symbol : Text)
    (disp : ℤ) (width : ℕ) :
    ∃ e' reloc, encModrm e legacy rexW opcode reg regHigh8 (.mem (.rip symbol disp) width) = some e' ∧
      (encFinish (e'.put immediate)).relocs = e.relocs ++ [reloc] ∧ e'.symbols[reloc.symbol]? = some symbol ∧
      reloc.kind = .rel32 ∧ reloc.addend = disp ∧
      reloc.offset + 4 + reloc.trailing = ((e'.put immediate).bytes.length : ℤ) := by
  obtain ⟨start, relocs, longer, whole⟩ : ∃ start, start.relocs = e.relocs ∧ e.bytes.length ≤ start.bytes.length ∧
      encModrm e legacy rexW opcode reg regHigh8 (.mem (.rip symbol disp) width) =
        encOperand start reg (.mem (.rip symbol disp) width) := by
    refine ⟨_, ?_, ?_, rfl⟩
    · split_ifs <;> rfl
    · split_ifs <;> simp only [AsmEncoder.put, List.length_append] <;> omega
  obtain ⟨e', made⟩ : ∃ e', encOperand start reg (.mem (.rip symbol disp) width) = some e' := ⟨_, rfl⟩
  have grown : e'.bytes.length = start.bytes.length + 1 + 4 := by
    cases made
    simp [AsmEncoder.put]
  obtain ⟨index, named, field, added⟩ := encOperand_rip made
  refine ⟨e', ⟨(e'.bytes.length - 4 : ℕ), .rel32, index, disp, immediate.length⟩, whole.trans made, ?_, named, rfl, rfl, ?_⟩
  · have others : ∀ reloc ∈ e.relocs, reloc.offset ≠ (e'.bytes.length - 4 : ℕ) := by
      intro reloc member
      have := before reloc member
      omega
    simp only [encFinish, AsmEncoder.put, field, added, relocs, List.map_append, List.map_cons, List.map_nil, if_true]
    congr 1
    · refine Eq.trans ?_ (List.map_id' _)
      exact List.map_congr_left fun reloc member => if_neg (others reloc member)
    · simp only [List.length_append]
      congr 2
      omega
  · simp only [AsmEncoder.put, List.length_append]
    omega

/-- `mov word [rip+x], 300` leaves a field for `x` with two bytes behind it. -/
theorem encFinish_trailing_mov : ∃ e' reloc, encModrm ⟨[], [], [], none⟩ 0x66 false [0xC7] 0 false
      (.mem (.rip (asciiBytes "x") 0) 2) = some e' ∧ (encFinish (e'.put [0x2C, 1])).relocs = [] ++ [reloc] ∧
      e'.symbols[reloc.symbol]? = some (asciiBytes "x") ∧ reloc.kind = .rel32 ∧ reloc.addend = 0 ∧
      reloc.offset + 4 + reloc.trailing = ((e'.put [0x2C, 1]).bytes.length : ℤ) :=
  encFinish_trailing ⟨[], [], [], none⟩ (fun _ member => absurd member List.not_mem_nil) _ _ _ _ _ _ _ _ _

end RoundTrip

end Saad
