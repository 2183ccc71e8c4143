import Saad.General.FreshNames
import Saad.Std.Text
import Saad.X64.Operands

/-! # The code of the integer instructions

`x64EmitInst` writes the code of one instruction. Narrow operations run at 32 bits, and only the low
bits of a narrow value matter; what reads the upper bits extends the value first.
-/

namespace Saad

open General

def x64Width (type : IrType) : ℕ :=
  let size := irTypeSize type
  if size > 0 then size else 8

/-- A number with its sign, as `%+d` prints it. -/
def signedText (value : ℤ) : List (BitVec 8) :=
  asciiBytes ((if 0 ≤ value then "+" else "-") ++ toString value.natAbs)

/-- The text of a symbol, in a buffer of 160 bytes. The `$` keeps it apart from keywords. -/
def x64SymbolText (name : List (BitVec 8)) : List (BitVec 8) := cut 160 (asciiBytes "$" ++ name)

section Emit

variable (x : X64Emitter)

def x64Symbol (global : ℕ) : List (BitVec 8) :=
  x64SymbolText (x.globals[global]?.elim [] IrGlobal.name)

/-- The text of the address of a global. -/
def x64RelText (global : ℕ) (offset : ℤ) : List (BitVec 8) :=
  asciiBytes "[rel " ++ x64Symbol x global ++ (if offset ≠ 0 then signedText offset else []) ++
    asciiBytes "]"

/-- The memory operand of a load or store, in a buffer of 128 bytes, and the code that loads its
base. Only the text of a global can be longer than that; without its bracket it is no operand. -/
def x64Address (addr : IrAddr) (scratch : X64Reg) : X64Mem × List X64Inst :=
  match addr.kind with
  | .slot => (.base .rbp (x.frame.slotOffsets.getD addr.base 0 + addr.offset), [])
  | .global =>
    (if (x64RelText x addr.base addr.offset).length < 128 then
      .rel (x64Symbol x addr.base) addr.offset else .cut, [])
  | .vreg =>
    let base := x64Use x addr.base scratch
    (.base base.1 addr.offset, base.2)
  | .none => (.cut, [])

def x64IcmpCc : IrCmp → X64Cond
  | .eq => .e
  | .ne => .ne
  | .slt => .l
  | .sle => .le
  | .sgt => .g
  | .sge => .ge
  | .ult => .b
  | .ule => .be
  | .ugt => .a
  | .uge => .ae
  | _ => .e

/-- At least 32 bits. -/
def x64WideWidth (width : ℕ) : ℕ := if width < 4 then 4 else width

def x64EmitIntBinop (op : X64Alu) (inst : IrInst) : List X64Inst :=
  let width := x64WideWidth (x64Width inst.type)
  let a := x64Use x (vregOf inst.a) .r10
  let b := x64Use x (vregOf inst.b) .r11
  let d := x64Def x (vregOf inst.dst) .r10
  a.2 ++ b.2 ++ (if d ≠ a.1 then [.mov width d a.1] else []) ++ [.alu op width d b.1] ++
    x64FinishDef x (vregOf inst.dst) d

/-- Moves `src` into `dst`, extended to at least 32 bits. -/
def x64ExtendTo32 (dst src : X64Reg) (width : ℕ) (isSigned : Bool) : List X64Inst :=
  if width = 1 ∨ width = 2 then
    [if isSigned then .movsx 4 dst width src else .movzx dst width src]
  else if dst ≠ src then [.mov width dst src]
  else []

def x64EmitDivide (inst : IrInst) : List X64Inst :=
  let isSigned : Bool := inst.op == .sdiv || inst.op == .srem
  let isRem : Bool := inst.op == .srem || inst.op == .urem
  let size := x64Width inst.type
  let width := x64WideWidth size
  let a := x64Use x (vregOf inst.a) .r10
  let b := x64Use x (vregOf inst.b) .r11
  let divisor := if size < 4 then .r11 else b.1
  let d := x64Def x (vregOf inst.dst) .r10
  a.2 ++ x64ExtendTo32 .rax a.1 size isSigned ++ b.2 ++
    (if size < 4 then x64ExtendTo32 .r11 b.1 size isSigned else []) ++
    [if isSigned then .signSplit width else .alu .xor 4 .rdx .rdx] ++
    [if isSigned then .idiv width divisor else .div width divisor] ++
    [.mov width d (if isRem then .rdx else .rax)] ++ x64FinishDef x (vregOf inst.dst) d

def x64ShiftOpOf : IrOp → X64ShiftOp
  | .lshr => .shr
  | .ashr => .sar
  | _ => .shl

def x64EmitShift (inst : IrInst) : List X64Inst :=
  let size := x64Width inst.type
  let width := x64WideWidth size
  let b := x64Use x (vregOf inst.b) .r11
  let a := x64Use x (vregOf inst.a) .r10
  let d := x64Def x (vregOf inst.dst) .r10
  b.2 ++ [.mov 4 .rcx b.1] ++ a.2 ++
    (if inst.op = .shl then (if d ≠ a.1 then [.mov width d a.1] else [])
    else x64ExtendTo32 d a.1 size (inst.op == .ashr)) ++
    [.shift (x64ShiftOpOf inst.op) width d] ++ x64FinishDef x (vregOf inst.dst) d

/-- The conversions between integers, and between an integer and a pointer. -/
def x64EmitConversion (inst : IrInst) : List X64Inst :=
  let fs := x64Width (irVregType x.func inst.a)
  let ts := x64Width inst.type
  let a := x64Use x (vregOf inst.a) .r10
  let d := x64Def x (vregOf inst.dst) .r10
  a.2 ++
    (match inst.op with
    | .sext =>
      if fs = 4 then [.movsx 8 d 4 a.1] else [.movsx (if ts < 4 then 4 else ts) d fs a.1]
    | .zext => if fs = 4 then [.mov 4 d a.1] else [.movzx d fs a.1]
    | .trunc => if d ≠ a.1 then [.mov 4 d a.1] else []
    | _ => x64MoveReg d a.1) ++ x64FinishDef x (vregOf inst.dst) d

def x64EmitConst (inst : IrInst) : List X64Inst :=
  let d := x64Def x (vregOf inst.dst) .r10
  let width := x64Width inst.type
  (if inst.imm = 0 then [.alu .xor 4 d d]
  else if width < 8 then [.movImm 4 d ((inst.imm.setWidth 32).signExtend 64)]
  else [.movImm 8 d inst.imm]) ++ x64FinishDef x (vregOf inst.dst) d

def x64EmitCopy (inst : IrInst) : List X64Inst :=
  let a := x64Use x (vregOf inst.a) .r10
  let d := x64Def x (vregOf inst.dst) .r10
  a.2 ++ x64MoveReg d a.1 ++ x64FinishDef x (vregOf inst.dst) d

def x64EmitLoad (inst : IrInst) : List X64Inst :=
  let addr := x64Address x inst.addr .r11
  let width := x64Width inst.type
  let d := x64Def x (vregOf inst.dst) .r10
  addr.2 ++ [if width < 4 then .movzxLoad d width addr.1 else .load width d addr.1] ++
    x64FinishDef x (vregOf inst.dst) d

def x64EmitStore (inst : IrInst) : List X64Inst :=
  let width := x64Width inst.type
  let value := x64Use x (vregOf inst.a) .r10
  let addr := x64Address x inst.addr .r11
  value.2 ++ addr.2 ++ [.store width addr.1 value.1]

def x64EmitPtrAdd (inst : IrInst) : List X64Inst :=
  let a := x64Use x (vregOf inst.a) .r10
  let b := x64Use x (vregOf inst.b) .r11
  let d := x64Def x (vregOf inst.dst) .r10
  a.2 ++ b.2 ++ [.lea d (.index a.1 b.1)] ++ x64FinishDef x (vregOf inst.dst) d

def x64EmitUnary (op : X64Unary) (inst : IrInst) : List X64Inst :=
  let width := x64WideWidth (x64Width inst.type)
  let a := x64Use x (vregOf inst.a) .r10
  let d := x64Def x (vregOf inst.dst) .r10
  a.2 ++ (if d ≠ a.1 then [.mov width d a.1] else []) ++ [.unary op width d] ++
    x64FinishDef x (vregOf inst.dst) d

def x64EmitIcmp (inst : IrInst) : List X64Inst :=
  let width := x64Width inst.type
  let a := x64Use x (vregOf inst.a) .r10
  let b := x64Use x (vregOf inst.b) .r11
  let d := x64Def x (vregOf inst.dst) .r10
  a.2 ++ b.2 ++ [.cmp width a.1 b.1] ++ [.setcc (x64IcmpCc inst.cmp) d] ++
    x64FinishDef x (vregOf inst.dst) d

/-- `lea` of an address into the destination. -/
def x64EmitAddr (inst : IrInst) (addr : X64Mem) : List X64Inst :=
  let d := x64Def x (vregOf inst.dst) .r10
  [.lea d addr] ++ x64FinishDef x (vregOf inst.dst) d

/-- The code of an integer or pointer instruction; the others are left out. -/
def x64EmitInst (inst : IrInst) : Option (List X64Inst) :=
  match inst.op with
  | .nop => some []
  | .const => some (x64EmitConst x inst)
  | .copy => some (x64EmitCopy x inst)
  | .slotAddr => some (x64EmitAddr x inst (.base .rbp (x.frame.slotOffsets.getD inst.imm.toNat 0)))
  | .globalAddr => some (x64EmitAddr x inst (.rel (x64Symbol x inst.imm.toNat) 0))
  | .load => some (x64EmitLoad x inst)
  | .store => some (x64EmitStore x inst)
  | .ptrAdd => some (x64EmitPtrAdd x inst)
  | .add => some (x64EmitIntBinop x .add inst)
  | .sub => some (x64EmitIntBinop x .sub inst)
  | .mul => some (x64EmitIntBinop x .imul inst)
  | .and => some (x64EmitIntBinop x .and inst)
  | .or => some (x64EmitIntBinop x .or inst)
  | .xor => some (x64EmitIntBinop x .xor inst)
  | .sdiv | .udiv | .srem | .urem => some (x64EmitDivide x inst)
  | .shl | .lshr | .ashr => some (x64EmitShift x inst)
  | .neg => some (x64EmitUnary x .neg inst)
  | .not => some (x64EmitUnary x .not inst)
  | .icmp => some (x64EmitIcmp x inst)
  | .sext | .zext | .trunc | .bitcast => some (x64EmitConversion x inst)
  | _ => none

end Emit

end Saad
