import Saad.General.Memory
import Saad.General.StraightLine
import Saad.X64.Target

/-! # The x64 machine

The instructions that the backend writes for integers and pointers, on 64-bit registers, a flat
memory and the flags. Writing 32 bits of a register clears the upper half; writing fewer keeps the
rest. A width is in bytes, as in the source. Flags are only known after `cmp`.
-/

namespace Saad

open General

/-- The flags that conditions are made of. -/
structure X64Flags where
  zf : Bool
  sf : Bool
  cf : Bool
  of : Bool
deriving DecidableEq, Repr

structure X64State where
  regs : X64Reg → BitVec 64
  mem : Memory
  flags : Option X64Flags := none

/-- A memory operand. `cut` is an operand whose text did not fit its buffer. -/
inductive X64Mem
  | base (reg : X64Reg) (disp : ℤ)
  | index (reg other : X64Reg)
  | rel (symbol : List (BitVec 8)) (disp : ℤ)
  | cut
deriving DecidableEq, Repr

inductive X64Alu
  | add | sub | imul | and | or | xor
deriving DecidableEq, Repr

inductive X64Unary
  | neg | not
deriving DecidableEq, Repr

inductive X64ShiftOp
  | shl | shr | sar
deriving DecidableEq, Repr

/-- The conditions of `setcc`. -/
inductive X64Cond
  | e | ne | l | le | g | ge | b | be | a | ae
deriving DecidableEq, Repr

inductive X64Inst
  | mov (width : ℕ) (dst src : X64Reg)
  | movImm (width : ℕ) (dst : X64Reg) (imm : BitVec 64)
  | load (width : ℕ) (dst : X64Reg) (addr : X64Mem)
  | store (width : ℕ) (addr : X64Mem) (src : X64Reg)
  | movzxLoad (dst : X64Reg) (width : ℕ) (addr : X64Mem)
  | movzx (dst : X64Reg) (width : ℕ) (src : X64Reg)
  | movsx (dstWidth : ℕ) (dst : X64Reg) (width : ℕ) (src : X64Reg)
  | lea (dst : X64Reg) (addr : X64Mem)
  | alu (op : X64Alu) (width : ℕ) (dst src : X64Reg)
  | unary (op : X64Unary) (width : ℕ) (dst : X64Reg)
  | shift (op : X64ShiftOp) (width : ℕ) (dst : X64Reg)
  | signSplit (width : ℕ)
  | idiv (width : ℕ) (src : X64Reg)
  | div (width : ℕ) (src : X64Reg)
  | cmp (width : ℕ) (first second : X64Reg)
  | setcc (cond : X64Cond) (dst : X64Reg)
deriving DecidableEq, Repr

namespace X64State

/-- The low bytes of a register. -/
def low (state : X64State) (width : ℕ) (reg : X64Reg) : BitVec (8 * width) :=
  (state.regs reg).setWidth (8 * width)

def setReg (state : X64State) (reg : X64Reg) (value : BitVec 64) : X64State :=
  { state with regs := Function.update state.regs reg value }

/-- The low bits of a register replaced. -/
def mergeLow {n : ℕ} (old : BitVec 64) (value : BitVec n) : BitVec 64 :=
  (old >>> n <<< n) ||| value.setWidth 64

/-- Writes the low bytes of a register. -/
def setLow (state : X64State) (width : ℕ) (reg : X64Reg) (value : BitVec (8 * width)) : X64State :=
  state.setReg reg (if width < 4 then mergeLow (state.regs reg) value else value.setWidth 64)

end X64State

section Exec

variable (symbolAddress : List (BitVec 8) → BitVec 64)

/-- The address of a memory operand, from where the symbols are. -/
def X64Mem.address (state : X64State) : X64Mem → Option (BitVec 64)
  | .base reg disp => some (state.regs reg + BitVec.ofInt 64 disp)
  | .index reg other => some (state.regs reg + state.regs other)
  | .rel symbol disp => some (symbolAddress symbol + BitVec.ofInt 64 disp)
  | .cut => none

def X64Alu.eval {n : ℕ} (op : X64Alu) (x y : BitVec n) : BitVec n :=
  match op with
  | .add => x + y
  | .sub => x - y
  | .imul => x * y
  | .and => x &&& y
  | .or => x ||| y
  | .xor => x ^^^ y

def X64Unary.eval {n : ℕ} (op : X64Unary) (x : BitVec n) : BitVec n :=
  match op with
  | .neg => -x
  | .not => ~~~x

def X64ShiftOp.shiftBy {n : ℕ} (op : X64ShiftOp) (x : BitVec n) (count : ℕ) : BitVec n :=
  match op with
  | .shl => x <<< count
  | .shr => x >>> count
  | .sar => x.sshiftRight count

/-- The count is the low five bits of `cl`, six for a 64-bit operand. -/
def X64ShiftOp.eval {n : ℕ} (op : X64ShiftOp) (x : BitVec n) (cl : BitVec 8) : BitVec n :=
  op.shiftBy x (cl.toNat % (if n = 64 then 64 else 32))

/-- The flags after comparing. -/
def compareFlags {n : ℕ} (x y : BitVec n) : X64Flags where
  zf := x == y
  sf := (x - y).msb
  cf := x.ult y
  of := x.ssubOverflow y

def X64Cond.holds (flags : X64Flags) : X64Cond → Bool
  | .e => flags.zf
  | .ne => !flags.zf
  | .l => flags.sf != flags.of
  | .le => flags.zf || flags.sf != flags.of
  | .g => !flags.zf && flags.sf == flags.of
  | .ge => flags.sf == flags.of
  | .b => flags.cf
  | .be => flags.cf || flags.zf
  | .a => !flags.cf && !flags.zf
  | .ae => !flags.cf

namespace X64Inst

open X64State

/-- Signed division of `rdx:rax`. It faults when the divisor is 0 or the quotient does not fit. -/
def execIdiv (state : X64State) (width : ℕ) (divisor : BitVec (8 * width)) : Option X64State :=
  let dividend := (state.low width .rdx).toInt * 2 ^ (8 * width) + (state.low width .rax).toNat
  let quotient := dividend.tdiv divisor.toInt
  let fits := -(2 ^ (8 * width - 1)) ≤ quotient ∧ quotient < 2 ^ (8 * width - 1)
  if divisor = 0 ∨ ¬ fits then none
  else
    let state := state.setLow width .rax (BitVec.ofInt _ quotient)
    some { state.setLow width .rdx (BitVec.ofInt _ (dividend.tmod divisor.toInt)) with
      flags := none }

/-- Unsigned division of `rdx:rax`. It faults when the divisor is 0 or the quotient does not fit. -/
def execDiv (state : X64State) (width : ℕ) (divisor : BitVec (8 * width)) : Option X64State :=
  let dividend := (state.low width .rdx).toNat * 2 ^ (8 * width) + (state.low width .rax).toNat
  let quotient := dividend / divisor.toNat
  if divisor = 0 ∨ ¬ quotient < 2 ^ (8 * width) then none
  else
    let state := state.setLow width .rax (BitVec.ofNat _ quotient)
    some { state.setLow width .rdx (BitVec.ofNat _ (dividend % divisor.toNat)) with flags := none }

/-- Runs one instruction. -/
def exec (inst : X64Inst) (state : X64State) : Option X64State :=
  match inst with
  | .mov width dst src => some (state.setLow width dst (state.low width src))
  | .movImm width dst imm => some (state.setLow width dst (imm.setWidth _))
  | .load width dst addr => (addr.address symbolAddress state).map fun at' =>
      state.setLow width dst (readMem state.mem at' width)
  | .store width addr src => (addr.address symbolAddress state).map fun at' =>
      { state with mem := writeMem state.mem at' width (state.low width src) }
  | .movzxLoad dst width addr => (addr.address symbolAddress state).map fun at' =>
      state.setLow 4 dst ((readMem state.mem at' width).setWidth _)
  | .movzx dst width src => some (state.setLow 4 dst ((state.low width src).setWidth _))
  | .movsx dstWidth dst width src =>
      some (state.setLow dstWidth dst ((state.low width src).signExtend _))
  | .lea dst addr => (addr.address symbolAddress state).map fun at' => state.setReg dst at'
  | .alu op width dst src =>
      some { state.setLow width dst (op.eval (state.low width dst) (state.low width src)) with
        flags := none }
  | .unary op width dst =>
      some { state.setLow width dst (op.eval (state.low width dst)) with flags := none }
  | .shift op width dst =>
      some { state.setLow width dst (op.eval (state.low width dst)
        ((state.regs .rcx).setWidth 8)) with flags := none }
  | .signSplit width =>
      some (state.setLow width .rdx ((state.low width .rax).sshiftRight (8 * width - 1)))
  | .idiv width src => execIdiv state width (state.low width src)
  | .div width src => execDiv state width (state.low width src)
  | .cmp width first second =>
      some { state with flags := some (compareFlags (state.low width first) (state.low width second)) }
  | .setcc cond dst => state.flags.map fun flags =>
      state.setLow 1 dst (if cond.holds flags then 1 else 0)

end X64Inst

end Exec

/-! ## Registers -/

namespace X64State

variable (state : X64State) (reg other : X64Reg) (value : BitVec 64)

@[simp] theorem setReg_regs_self : (state.setReg reg value).regs reg = value :=
  Function.update_self ..

theorem setReg_regs_of_ne {reg other : X64Reg} (ne : other ≠ reg) :
    (state.setReg reg value).regs other = state.regs other := Function.update_of_ne ne ..

theorem setLow_regs_of_ne {reg other : X64Reg} (ne : other ≠ reg) (width : ℕ)
    (value : BitVec (8 * width)) : (state.setLow width reg value).regs other = state.regs other :=
  setReg_regs_of_ne state _ ne

theorem setWidth_mergeLow {n : ℕ} (old : BitVec 64) (value : BitVec n) (small : n ≤ 64) :
    (mergeLow old value).setWidth n = value := by
  apply BitVec.eq_of_getLsbD_eq
  intro i bound
  simp [mergeLow, bound, show i < 64 by omega]

/-- What was written to the low bytes is there. -/
theorem low_setLow (width : ℕ) (small : width ≤ 8) (value : BitVec (8 * width)) :
    (state.setLow width reg value).low width reg = value := by
  unfold low setLow
  rw [setReg_regs_self]
  split
  · exact setWidth_mergeLow _ _ (by omega)
  · rw [BitVec.setWidth_setWidth_of_le _ (by omega), BitVec.setWidth_eq]

/-- A write of 32 bits or more leaves nothing of what was there. -/
theorem setLow_regs_self {width : ℕ} (wide : 4 ≤ width) (value : BitVec (8 * width)) :
    (state.setLow width reg value).regs reg = value.setWidth 64 := by
  unfold setLow
  rw [setReg_regs_self, if_neg (by omega)]

end X64State

end Saad
