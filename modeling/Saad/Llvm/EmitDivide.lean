import Saad.Llvm.EmitShift

/-! # Division of both backends

A quotient of at least 32 bits has to fit the registers that `idiv` writes, and an instruction of LLVM has none at all
for the smallest value divided by -1. Nothing else goes wrong when the divisor isn't 0.
-/

namespace Saad

open General X64State

/-- The instructions of LLVM that divide. A division by 0 and a signed one that overflows are undefined. -/
inductive LlvmDivision
  | sdiv | udiv | srem | urem
deriving DecidableEq, Repr

def LlvmDivision.eval {w : ℕ} (op : LlvmDivision) (x y : BitVec w) : Option (BitVec w) :=
  match op with
  | .sdiv => if y ≠ 0 ∧ SignedQuotientFits x y then some (x.sdiv y) else none
  | .srem => if y ≠ 0 ∧ SignedQuotientFits x y then some (x.srem y) else none
  | .udiv => if y ≠ 0 then some (x / y) else none
  | .urem => if y ≠ 0 then some (x % y) else none

def llvmEmitDivide {w : ℕ} (inst : IrInst) (a b : BitVec w) : Option (BitVec w) :=
  match inst.op with
  | .sdiv => LlvmDivision.eval .sdiv a b
  | .udiv => LlvmDivision.eval .udiv a b
  | .srem => LlvmDivision.eval .srem a b
  | _ => LlvmDivision.eval .urem a b

section Quotients

variable {w : ℕ} {x y : BitVec w}

/-- The quotient that overflows. -/
theorem overflow_eq (pos : 0 < w) (overflows : ¬SignedQuotientFits x y) :
    x.toInt.tdiv y.toInt = 2 ^ (w - 1) := by
  obtain ⟨rfl, rfl⟩ := not_not.mp overflows
  have one : (-1#w).toInt = -1 := by
    rw [BitVec.neg_one_eq_allOnes, BitVec.toInt_allOnes, if_pos pos]
  rw [BitVec.toInt_intMin_of_pos pos, one, Int.tdiv_neg, Int.tdiv_one, neg_neg]

/-- The quotient fits the registers unless it overflows at 32 bits or more. -/
theorem wideQuotientFits_iff {op : IrOp} {size : ℕ} (width : IsWidth size) (x y : BitVec (8 * size)) :
    WideQuotientFits op size x y ↔ (isSignedOp op = true → size < 4 ∨ SignedQuotientFits x y) := by
  obtain ⟨wide, small, narrow⟩ := wide_bounds width
  have pos : 0 < size := by rcases width with rfl | rfl | rfl | rfl <;> decide
  unfold WideQuotientFits
  refine forall_congr' fun signed => ?_
  by_cases fits : SignedQuotientFits x y
  · obtain ⟨-, low, high⟩ := quotient_bounds (n := 8 * x64WideWidth size) fits (by omega) (by omega)
    exact iff_of_true ⟨low, high⟩ (.inr fits)
  · rw [overflow_eq (by omega) fits, or_iff_left fits]
    rcases width with rfl | rfl | rfl | rfl <;> decide

end Quotients

section Traps

variable {x : X64Emitter} {symbolAddress : List (BitVec 8) → BitVec 64} {state : X64State}
  {inst : IrInst} {size : ℕ} {post : X64State → Prop}

/-- `idiv` faults when the quotient doesn't fit. -/
theorem divideStep_traps {op : IrOp} (isWidth : IsWidth size) {value divisor : BitVec (8 * size)}
    (unfit : ¬WideQuotientFits op size value divisor) (reg : X64Reg) (notRdx : reg ≠ .rdx)
    (rax : state.low (x64WideWidth size) .rax = extended (isSignedOp op) value _)
    (holds : state.low (x64WideWidth size) reg = extended (isSignedOp op) divisor _) :
    ¬X64Runs symbolAddress
      ([if isSignedOp op then .signSplit (x64WideWidth size) else .alu .xor 4 .rdx .rdx] ++
        [if isSignedOp op then .idiv (x64WideWidth size) reg else .div (x64WideWidth size) reg])
      state post := by
  obtain ⟨wide, small, narrow⟩ := wide_bounds isWidth
  obtain ⟨signed, outside⟩ := Classical.not_imp.mp unfit
  rw [signed] at rax holds
  simp only [signed, if_true]
  refine Runs.not_of_none ?_
  set W := x64WideWidth size
  set middle := state.setLow W .rdx ((state.low W .rax).sshiftRight (8 * W - 1)) with split
  have raxMiddle : middle.low W .rax = extended true value _ := (low_setLow_of_ne (by decide) _).trans rax
  have rdxMiddle : middle.low W .rdx = (extended true value (8 * W)).sshiftRight (8 * W - 1) := by
    rw [split, low_setLow _ _ _ small, rax]
  have divisorMiddle : middle.low W reg = extended true divisor _ := (low_setLow_of_ne notRdx _).trans holds
  change (X64Inst.execIdiv middle W (middle.low W reg)).bind _ = none
  unfold X64Inst.execIdiv
  rw [raxMiddle, rdxMiddle, divisorMiddle, signSplit_value _ (by omega), toInt_extended _ (by omega),
    toInt_extended _ (by omega)]
  dsimp only
  rw [if_pos (.inr outside)]
  rfl

theorem divide_traps (locatedA : x.Located (vregOf inst.a)) (locatedB : x.Located (vregOf inst.b))
    (width : IsWidth size) (same : x64Width inst.type = size)
    (unfit : ¬WideQuotientFits inst.op size ((x.contents state (vregOf inst.a)).setWidth (8 * size))
      ((x.contents state (vregOf inst.b)).setWidth (8 * size))) :
    ¬X64Runs symbolAddress (x64EmitDivide x inst) state post := by
  intro runs
  rw [x64EmitDivide_eq same, List.append_assoc, List.append_assoc] at runs
  obtain ⟨middle, -, ⟨rax, holds, -⟩, rest⟩ := (divideOperands_ok locatedA locatedB width).and runs.of_append
  exact divideStep_traps width unfit _ (divisorReg_ne_rdx locatedB) rax holds rest.of_append

end Traps

section Backends

variable {x : X64Emitter} {inst : IrInst} {op : BinaryOp} {isSigned : Bool}

/-- The truncated quotient, or the remainder with the sign of the dividend, modulo the width. -/
def wrappedDivision {w : ℕ} (op : BinaryOp) (isSigned : Bool) (x y : BitVec w) : BitVec w :=
  if op = .mod then BitVec.ofInt w ((readInt isSigned x).tmod (readInt isSigned y))
  else BitVec.ofInt w ((readInt isSigned x).tdiv (readInt isSigned y))

variable (x inst op isSigned) in
/-- The code runs to its end and leaves the value of the type's arithmetic. -/
def CodeDivides (symbolAddress : List (BitVec 8) → BitVec 64) (state : X64State) : Prop :=
  ∃ code, x64EmitInst x inst = some code ∧ X64Runs symbolAddress code state fun after =>
    operandBits x inst after inst.dst =
      wrappedDivision op isSigned (operandBits x inst state inst.a) (operandBits x inst state inst.b)

variable (inst op isSigned) in
/-- The LLVM instruction is defined and has the value of the type's arithmetic. -/
def LlvmDivides {w : ℕ} (a b : BitVec w) : Prop := llvmEmitDivide inst a b = some (wrappedDivision op isSigned a b)

variable (isDivision : op = .div ∨ op = .mod) (lowered : irOpOf op isSigned = inst.op)

include isDivision lowered

theorem isDivide_of_lowered : (inst.op = .sdiv ∨ inst.op = .udiv ∨ inst.op = .srem ∨ inst.op = .urem) ∧
    isSignedOp inst.op = isSigned ∧ (isRemOp inst.op = true ↔ op = .mod) := by
  rw [← lowered]
  rcases isDivision with rfl | rfl <;> cases isSigned <;> decide

theorem dividedNumbers_eq {w : ℕ} (a b : BitVec w) : dividedNumbers inst.op a b = wrappedDivision op isSigned a b := by
  obtain ⟨-, signed, rem⟩ := isDivide_of_lowered isDivision lowered
  unfold dividedNumbers wrappedDivision
  rw [signed]
  dsimp only
  by_cases mod : op = .mod
  · rw [if_pos mod, if_pos (rem.mpr mod)]
  · rw [if_neg mod, if_neg (fun is => mod (rem.mp is))]

theorem codeDivides_iff (placed : Placement x inst) (symbolAddress : List (BitVec 8) → BitVec 64) (state : X64State)
    (nonzero : operandBits x inst state inst.b ≠ 0) :
    CodeDivides x inst op isSigned symbolAddress state ↔
      (isSigned = true → irTypeSize inst.type < 4 ∨
        SignedQuotientFits (operandBits x inst state inst.a) (operandBits x inst state inst.b)) := by
  obtain ⟨isDivide, signed, -⟩ := isDivide_of_lowered isDivision lowered
  have ok : BinaryOk x state (x.contents state) inst := binaryOk placed (fun _ _ => rfl)
    (by rcases isDivide with is | is | is | is <;> rw [is] <;> decide)
  have emitted : x64EmitInst x inst = some (x64EmitDivide x inst) := by
    rcases isDivide with is | is | is | is <;> simp only [x64EmitInst, is]
  have width := isWidth_irTypeSize ok.integer
  have fits := @wideQuotientFits_iff inst.op _ width (operandBits x inst state inst.a)
    (operandBits x inst state inst.b)
  rw [signed] at fits
  refine Iff.trans ?_ fits
  constructor
  · rintro ⟨code, isCode, divides⟩
    obtain rfl := Option.some.inj (emitted.symm.trans isCode)
    by_contra unfit
    exact divide_traps ok.a.located ok.b.located width (x64Width_eq ok.integer) unfit divides
  · intro fits
    refine ⟨_, emitted, (divide_runs ok.located ok.a.located ok.b.located width (x64Width_eq ok.integer) nonzero
      fits).mono fun last defined => ?_⟩
    exact defined.value.trans (dividedNumbers_eq isDivision lowered _ _)

theorem llvmDivides_iff {w : ℕ} {a b : BitVec w} (nonzero : b ≠ 0) :
    LlvmDivides inst op isSigned a b ↔ (isSigned = true → SignedQuotientFits a b) := by
  obtain ⟨isDivide, signed, -⟩ := isDivide_of_lowered isDivision lowered
  have defined : llvmEmitDivide inst a b = irBinary inst.op a b := by
    rcases isDivide with is | is | is | is <;> rw [llvmEmitDivide, is] <;> rfl
  unfold LlvmDivides
  rw [defined, ← dividedNumbers_eq isDivision lowered]
  constructor
  · intro divides isSigned
    exact (irBinary_divides isDivide divides).2.1 (signed.trans isSigned)
  · intro fits
    obtain ⟨result, has⟩ : ∃ result, irBinary inst.op a b = some result := by
      rw [← signed] at fits
      rcases isDivide with is | is | is | is <;> rw [is] at fits ⊢
      · exact ⟨_, if_pos ⟨nonzero, fits rfl⟩⟩
      · exact ⟨_, if_pos nonzero⟩
      · exact ⟨_, if_pos ⟨nonzero, fits rfl⟩⟩
      · exact ⟨_, if_pos nonzero⟩
    rw [has, (irBinary_divides isDivide has).2.2]

end Backends

/-- With a divisor that isn't 0, both backends give the value of the type's arithmetic except for the smallest value of
a signed type divided by -1. For 8 and 16 bits the x64 code does then too. -/
theorem divides_iff (x : X64Emitter) (inst : IrInst) (placed : Placement x inst) (op : BinaryOp) (type : IntegerType)
    (isDivision : op = .div ∨ op = .mod) (isType : irTypeOf type = inst.type)
    (lowered : irOpOf op type.isSigned = inst.op) (symbolAddress : List (BitVec 8) → BitVec 64) (state : X64State)
    (nonzero : operandBits x inst state inst.b ≠ 0) :
    (CodeDivides x inst op type.isSigned symbolAddress state ↔
      (type.isSigned = true → type.bits < 32 ∨
        SignedQuotientFits (operandBits x inst state inst.a) (operandBits x inst state inst.b))) ∧
    (LlvmDivides inst op type.isSigned (operandBits x inst state inst.a) (operandBits x inst state inst.b) ↔
      (type.isSigned = true →
        SignedQuotientFits (operandBits x inst state inst.a) (operandBits x inst state inst.b))) := by
  have narrow : type.bits < 32 ↔ irTypeSize inst.type < 4 := by
    rw [← isType, IntegerType.bits]
    omega
  rw [narrow]
  exact ⟨codeDivides_iff isDivision lowered placed symbolAddress state nonzero,
    llvmDivides_iff isDivision lowered nonzero⟩

/-! ## The smallest int divided by -1 -/

def divideInts : IrInst := { op := .sdiv, type := .i32, dst := some 2, a := some 0, b := some 1 }

def divideFunction : IrFunction where
  returnType := .i32
  vregTypes := [.i32, .i32, .i32]
  params := [0, 1]
  blocks := [{ id := 0, insts := [divideInts], term := .ret (some 2) }]

def divideEmitter : X64Emitter where
  globals := []
  func := divideFunction
  ra := regallocFunction divideFunction x64Target
  fits := by decide

theorem divideInts_placement : Placement divideEmitter divideInts :=
  placement_of_registers (by decide) rfl rfl (by decide) (by decide)

/-- Two values in their registers. -/
def divideState (a b : BitVec 64) : X64State where
  regs reg :=
    if .reg reg.number = divideEmitter.ra.locations 0 then a
    else if .reg reg.number = divideEmitter.ra.locations 1 then b
    else 0
  mem _ := 0

theorem divides_iff_divideInts :
    (CodeDivides divideEmitter divideInts .div true (fun _ => 0) (divideState 7 2) ↔
      (true = true → 32 < 32 ∨ SignedQuotientFits (operandBits divideEmitter divideInts (divideState 7 2) (some 0))
        (operandBits divideEmitter divideInts (divideState 7 2) (some 1)))) ∧
    (LlvmDivides divideInts .div true (operandBits divideEmitter divideInts (divideState 7 2) (some 0))
        (operandBits divideEmitter divideInts (divideState 7 2) (some 1)) ↔
      (true = true → SignedQuotientFits (operandBits divideEmitter divideInts (divideState 7 2) (some 0))
        (operandBits divideEmitter divideInts (divideState 7 2) (some 1)))) :=
  divides_iff _ _ divideInts_placement .div .i32 (.inl rfl) rfl rfl _ _ (by decide)

/-- `idiv` faults, and the instruction of LLVM is undefined. -/
theorem divideInts_traps : Placement divideEmitter divideInts ∧
    operandBits divideEmitter divideInts (divideState 0x80000000 0xffffffff) (some 1) ≠ 0 ∧
    ¬CodeDivides divideEmitter divideInts .div true (fun _ => 0) (divideState 0x80000000 0xffffffff) ∧
    ¬LlvmDivides divideInts .div true
      (operandBits divideEmitter divideInts (divideState 0x80000000 0xffffffff) (some 0))
      (operandBits divideEmitter divideInts (divideState 0x80000000 0xffffffff) (some 1)) := by
  have nonzero : operandBits divideEmitter divideInts (divideState 0x80000000 0xffffffff) (some 1) ≠ 0 := by decide
  have overflows : ¬SignedQuotientFits
      (operandBits divideEmitter divideInts (divideState 0x80000000 0xffffffff) (some 0))
      (operandBits divideEmitter divideInts (divideState 0x80000000 0xffffffff) (some 1)) := by decide
  refine ⟨divideInts_placement, nonzero, fun divides => ?_, fun divides => ?_⟩
  · obtain narrow | fits := (codeDivides_iff (.inl rfl) rfl divideInts_placement _ _ nonzero).mp divides rfl
    · exact absurd narrow (by decide)
    · exact overflows fits
  · exact overflows ((llvmDivides_iff (.inl rfl) rfl nonzero).mp divides rfl)

end Saad
