import Saad.ConstExpr.FoldsRight
import Saad.X64.InstSound

/-! # Shifts of both backends and of the folder

The x64 code masks the count of a shift with 31 for values of 8 and 16 bits, the LLVM instructions
with the width less 1, and the folder takes counts below 64. All that matters is whether the bits that
the smaller count keeps are lost anyway (`shiftsAgree_iff`).
-/

namespace Saad

open General

/-- The instructions of LLVM that a shift is built of. A shift by the width or more is poison. -/
inductive LlvmBinary
  | and | shl | lshr | ashr
deriving DecidableEq, Repr

def LlvmBinary.eval {w : ℕ} (op : LlvmBinary) (x y : BitVec w) : Option (BitVec w) :=
  match op with
  | .and => some (x &&& y)
  | .shl => if y.toNat < w then some (x <<< y.toNat) else none
  | .lshr => if y.toNat < w then some (x >>> y.toNat) else none
  | .ashr => if y.toNat < w then some (x.sshiftRight y.toNat) else none

def llvmBits (type : IrType) : ℕ := if type = .ptr then 64 else irTypeSize type * 8

/-- The count is masked with the width less 1. -/
def llvmEmitShift {w : ℕ} (inst : IrInst) (a b : BitVec w) : Option (BitVec w) := do
  let count ← LlvmBinary.eval .and b (BitVec.ofNat w (llvmBits inst.type - 1))
  match inst.op with
  | .shl => LlvmBinary.eval .shl a count
  | .lshr => LlvmBinary.eval .lshr a count
  | _ => LlvmBinary.eval .ashr a count

/-! ## What a smaller count keeps -/

section Lost

variable {w : ℕ}

/-- The shift loses all bits but the sign. -/
def LosesAll (op : X64ShiftOp) (x : BitVec w) (count : ℕ) : Prop :=
  match op with
  | .shl => 2 ^ (w - count) ∣ x.toNat
  | .shr => x.toNat < 2 ^ count
  | .sar => -2 ^ count ≤ x.toInt ∧ x.toInt < 2 ^ count

/-- The count is below the width, or what the count modulo the width keeps is lost anyway. -/
def ShiftKeeps (op : X64ShiftOp) (x : BitVec w) (count : ℕ) : Prop :=
  count < w ∨ LosesAll op x (count % w)

theorem shiftLeft_eq_zero_iff (x : BitVec w) {count : ℕ} (inside : count < w) :
    x <<< count = 0 ↔ 2 ^ (w - count) ∣ x.toNat := by
  have split : 2 ^ w = 2 ^ (w - count) * 2 ^ count := by
    rw [← pow_add, Nat.sub_add_cancel inside.le]
  rw [← BitVec.toNat_inj, BitVec.toNat_shiftLeft, Nat.shiftLeft_eq, BitVec.ofNat_eq_ofNat,
    BitVec.toNat_ofNat, Nat.zero_mod, ← Nat.dvd_iff_mod_eq_zero, split]
  exact Nat.mul_dvd_mul_iff_right (by positivity)

theorem ushiftRight_eq_zero_iff (x : BitVec w) (count : ℕ) :
    x >>> count = 0 ↔ x.toNat < 2 ^ count := by
  rw [← BitVec.toNat_inj, BitVec.toNat_ushiftRight, Nat.shiftRight_eq_div_pow,
    BitVec.ofNat_eq_ofNat, BitVec.toNat_ofNat, Nat.zero_mod]
  exact Nat.div_eq_zero_iff_lt (by positivity)

/-- Two powers give the same quotient of a number below the larger one if only its sign is left. -/
theorem ediv_pow_eq_iff {x : ℤ} {small large : ℕ} (below : x < 2 ^ large) (above : -2 ^ large ≤ x) :
    x / 2 ^ large = x / 2 ^ small ↔ -2 ^ small ≤ x ∧ x < 2 ^ small := by
  have posLarge : (0 : ℤ) < 2 ^ large := by positivity
  have posSmall : (0 : ℤ) < 2 ^ small := by positivity
  rcases lt_or_ge x 0 with neg | nonneg
  · rw [Int.ediv_eq_neg_one_of_neg_of_le neg (by omega), eq_comm]
    constructor
    · intro quotient
      have := Int.ediv_mul_add_emod x (2 ^ small)
      have := Int.emod_nonneg x posSmall.ne'
      rw [quotient] at *
      exact ⟨by omega, by omega⟩
    · rintro ⟨low, -⟩
      exact Int.ediv_eq_neg_one_of_neg_of_le neg (by omega)
  · rw [Int.ediv_eq_zero_of_lt nonneg below, eq_comm]
    constructor
    · intro quotient
      have := Int.ediv_mul_add_emod x (2 ^ small)
      have := Int.emod_lt_of_pos x posSmall
      rw [quotient] at *
      exact ⟨by omega, by omega⟩
    · rintro ⟨-, high⟩
      exact Int.ediv_eq_zero_of_lt nonneg high

theorem shiftBy_eq_iff (op : X64ShiftOp) (x : BitVec w) (count : ℕ) (pos : 0 < w) :
    op.shiftBy x count = op.shiftBy x (count % w) ↔ ShiftKeeps op x count := by
  by_cases inside : count < w
  · exact iff_of_true (by rw [Nat.mod_eq_of_lt inside]) (.inl inside)
  · have small := Nat.mod_lt count pos
    unfold ShiftKeeps
    rw [or_iff_right inside]
    cases op with
    | shl =>
      rw [X64ShiftOp.shiftBy, BitVec.shiftLeft_eq_zero (not_lt.mp inside), eq_comm]
      exact shiftLeft_eq_zero_iff x small
    | shr =>
      rw [X64ShiftOp.shiftBy, BitVec.ushiftRight_eq_zero (not_lt.mp inside), eq_comm]
      exact ushiftRight_eq_zero_iff x _
    | sar =>
      have low := BitVec.le_two_mul_toInt (x := x)
      have high := BitVec.two_mul_toInt_lt (x := x)
      have grows : (2 : ℤ) ^ w ≤ 2 ^ count := pow_le_pow_right₀ (by decide) (not_lt.mp inside)
      have pos' : (0 : ℤ) < 2 ^ w := by positivity
      rw [X64ShiftOp.shiftBy, X64ShiftOp.shiftBy, ← BitVec.toInt_inj, BitVec.toInt_sshiftRight,
        BitVec.toInt_sshiftRight, Int.shiftRight_eq_div_pow, Int.shiftRight_eq_div_pow]
      push_cast
      exact ediv_pow_eq_iff (by omega) (by omega)

end Lost

/-! ## The three shifts -/

section Shifts

variable {x : X64Emitter} {inst : IrInst}

theorem llvmEmitShift_eq {w : ℕ} (isShift : inst.op = .shl ∨ inst.op = .lshr ∨ inst.op = .ashr)
    {k : ℕ} (power : w = 2 ^ k) (bits : llvmBits inst.type = w) (a b : BitVec w) :
    llvmEmitShift inst a b = some ((x64ShiftOpOf inst.op).shiftBy a (b.toNat % w)) := by
  have count : (b &&& BitVec.ofNat w (llvmBits inst.type - 1)).toNat = b.toNat % w := by
    have small : w - 1 < 2 ^ w := lt_of_le_of_lt (Nat.sub_le w 1) Nat.lt_two_pow_self
    rw [bits, BitVec.toNat_and, BitVec.toNat_ofNat, Nat.mod_eq_of_lt small]
    conv_lhs => rw [show w - 1 = 2 ^ k - 1 by rw [power]]
    rw [Nat.and_two_pow_sub_one_eq_mod, ← power]
  have inside : b.toNat % w < w := Nat.mod_lt _ (by rw [power]; positivity)
  rcases isShift with is | is | is <;>
    simp only [llvmEmitShift, is, LlvmBinary.eval, Option.bind_eq_bind, Option.bind_some, count,
      inside, if_true] <;> rfl

/-- The masks of the x64 code do not change the count modulo the width. -/
theorem shiftCount_mod {type : IrType} (integer : irTypeIsInt type = true) (count : ℕ) :
    x64ShiftCount (irTypeBits type) count % irTypeBits type = count % irTypeBits type := by
  unfold x64ShiftCount
  cases type <;> first
    | exact absurd integer (by decide)
    | exact Nat.mod_mod_of_dvd _ (by decide)

theorem bits_of_int {type : IrType} (integer : irTypeIsInt type = true) :
    8 ≤ irTypeBits type ∧ irTypeBits type ≤ 64 ∧ (∃ k, irTypeBits type = 2 ^ k) ∧
      llvmBits type = irTypeBits type := by
  cases type <;> first
    | exact absurd integer (by decide)
    | exact ⟨by decide, by decide, ⟨3, rfl⟩, rfl⟩
    | exact ⟨by decide, by decide, ⟨4, rfl⟩, rfl⟩
    | exact ⟨by decide, by decide, ⟨5, rfl⟩, rfl⟩
    | exact ⟨by decide, by decide, ⟨6, rfl⟩, rfl⟩

/-- The value of an operand at the width of the instruction. -/
def operandBits (x : X64Emitter) (inst : IrInst) (state : X64State) (vreg : Option Vreg) :
    BitVec (irTypeBits inst.type) :=
  (x.contents state (vregOf vreg)).setWidth _

variable (x inst) in
/-- The code leaves the value that the LLVM instructions have. -/
def CodeShiftsLikeLlvm (symbolAddress : List (BitVec 8) → BitVec 64) (state : X64State) : Prop :=
  ∃ code, x64EmitInst x inst = some code ∧ X64Runs symbolAddress code state fun after =>
    some (operandBits x inst after inst.dst) =
      llvmEmitShift inst (operandBits x inst state inst.a) (operandBits x inst state inst.b)

variable (inst) in
/-- A constant shift of the values in a type that has the instruction is not folded, or folded to a
literal with the value that the LLVM instructions have. -/
def FolderShiftsLikeLlvm (a b : BitVec (irTypeBits inst.type)) : Prop :=
  ∀ (type : IntegerType) (op : BinaryOp),
    irTypeOf type = inst.type → irOpOf op type.isSigned = inst.op → ∀ literal,
      simplifyLiterals op (extended type.isSigned a 64) (extended type.isSigned b 64) =
        .literal literal → some (literal.integer.setWidth _) = llvmEmitShift inst a b

/-- The condition for the folder: it takes counts below 64, and keeps the sign of its 64-bit values. -/
def FoldKeeps {w : ℕ} (op : IrOp) (a b : BitVec w) : Prop :=
  b.toNat < 64 → ShiftKeeps (x64ShiftOpOf op) a b.toNat ∧
    (op = .lshr → w = 64 → b.toNat = 0 ∨ a.msb = false)

variable (isShift : inst.op = .shl ∨ inst.op = .lshr ∨ inst.op = .ashr)

include isShift

theorem shift_integer (placed : Placement x inst) : irTypeIsInt inst.type = true := by
  have accepted := placed.accepted_operation
  rcases isShift with is | is | is <;>
  · simp only [irVerifyOperation, is, List.append_eq_nil_iff, irVerifyCheck_eq_nil] at accepted
    exact accepted.1.1

theorem codeShiftsLikeLlvm_iff (placed : Placement x inst)
    (symbolAddress : List (BitVec 8) → BitVec 64) (state : X64State) :
    CodeShiftsLikeLlvm x inst symbolAddress state ↔
      ShiftKeeps (x64ShiftOpOf inst.op) (operandBits x inst state inst.a)
        (x64ShiftCount (irTypeBits inst.type) (operandBits x inst state inst.b).toNat) := by
  have integer := shift_integer isShift placed
  obtain ⟨wide, -, ⟨k, power⟩, bits⟩ := bits_of_int integer
  have ok : BinaryOk x state (x.contents state) inst := binaryOk placed (fun _ _ => rfl)
    (by rcases isShift with is | is | is <;> rw [is] <;> decide)
  have emitted : x64EmitInst x inst = some (x64EmitShift x inst) := by
    rcases isShift with is | is | is <;> simp only [x64EmitInst, is]
  have runs : X64Runs symbolAddress (x64EmitShift x inst) state _ := shift_ok ok.located
    ok.a.located ok.b.located (isWidth_irTypeSize ok.integer) (x64Width_eq ok.integer) isShift
  have count : (if irTypeSize inst.type = 8 then 64 else 32) =
      if irTypeBits inst.type = 64 then 64 else 32 := by
    unfold irTypeBits
    split_ifs <;> omega
  rw [← shiftBy_eq_iff _ _ _ (by omega), shiftCount_mod integer]
  unfold CodeShiftsLikeLlvm
  rw [llvmEmitShift_eq isShift power bits]
  constructor
  · rintro ⟨code, isCode, like⟩
    obtain rfl := Option.some.inj (emitted.symm.trans isCode)
    obtain ⟨last, -, defined, same⟩ := runs.and like
    have value := defined.value
    rw [count] at value
    exact value.symm.trans (Option.some.inj same)
  · intro same
    refine ⟨_, emitted, runs.mono fun last defined => congrArg some (Eq.trans ?_ same)⟩
    have value := defined.value
    rw [count] at value
    exact value

end Shifts

/-! ## The folder -/

section Folder

variable {w : ℕ}

/-- A count below 64 is the same number in 64 bits, whatever its sign. -/
theorem toNat_extended_count (isSigned : Bool) (b : BitVec w) (wide : 8 ≤ w) (small : w ≤ 64) :
    ((extended isSigned b 64).toNat < 64 ↔ b.toNat < 64) ∧
      (b.toNat < 64 → (extended isSigned b 64).toNat = b.toNat) := by
  have power : 2 ^ 8 ≤ 2 ^ w := Nat.pow_le_pow_right (by decide) wide
  have same (below : b.toNat < 64) : (extended isSigned b 64).toNat = b.toNat := by
    have number : readInt isSigned b = b.toNat := by
      unfold readInt
      split
      · rw [BitVec.toInt_eq_toNat_cond, if_pos (by omega)]
      · rfl
    rw [extended_eq_ofInt, number, BitVec.ofInt_natCast, BitVec.toNat_ofNat]
    exact Nat.mod_eq_of_lt (by omega)
  refine ⟨⟨fun below => ?_, fun below => (same below).symm ▸ below⟩, same⟩
  have back := congrArg BitVec.toNat (setWidth_extended_self isSigned b small)
  rw [BitVec.toNat_setWidth, Nat.mod_eq_of_lt (by omega)] at back
  rwa [← back]

theorem sshiftRight_eq_ushiftRight_iff (x : BitVec 64) {count : ℕ} (small : count < 64) :
    x.sshiftRight count = x >>> count ↔ count = 0 ∨ x.msb = false := by
  constructor
  · intro same
    by_contra differ
    rw [not_or, Bool.not_eq_false] at differ
    have top := congrArg BitVec.msb same
    rw [BitVec.msb_sshiftRight, BitVec.msb_ushiftRight, differ.2] at top
    simp [differ.1] at top
  · rintro (rfl | positive)
    · simp
    · exact BitVec.sshiftRight_eq_of_msb_false positive

/-- The low bits of what the folder makes of a right shift of an extended value. -/
theorem setWidth_sshiftRight_iff (isSigned : Bool) (a : BitVec w) {count : ℕ} (pos : 0 < w)
    (narrow : w ≤ 64) (small : count < 64) {op : X64ShiftOp}
    (isOp : op = if isSigned then .sar else .shr) :
    ((extended isSigned a 64).sshiftRight count).setWidth w = op.shiftBy a (count % w) ↔
      ShiftKeeps op a count ∧ (isSigned = false → w = 64 → count = 0 ∨ a.msb = false) := by
  cases isSigned with
  | true =>
    obtain rfl : op = .sar := isOp
    have wide : ((extended true a 64).sshiftRight count).setWidth w = X64ShiftOp.sar.shiftBy a count :=
      setWidth_shiftBy .sar a _ count narrow rfl
    rw [wide, shiftBy_eq_iff _ _ _ pos]
    simp
  | false =>
    obtain rfl : op = .shr := isOp
    by_cases full : w = 64
    · subst full
      rw [extended_self, BitVec.setWidth_eq, Nat.mod_eq_of_lt small]
      rw [X64ShiftOp.shiftBy, sshiftRight_eq_ushiftRight_iff a small]
      simp [ShiftKeeps, small]
    · have positive : (extended false a 64).msb = false := by
        rw [BitVec.msb_eq_getLsbD_last]
        simp only [extended, Bool.false_eq_true, if_false, BitVec.getLsbD_setWidth]
        rw [BitVec.getLsbD_of_ge _ _ (by omega), Bool.and_false]
      have wide : ((extended false a 64).sshiftRight count).setWidth w =
          X64ShiftOp.shr.shiftBy a count := by
        rw [BitVec.sshiftRight_eq_of_msb_false positive]
        exact setWidth_shiftBy .shr a _ count narrow rfl
      rw [wide, shiftBy_eq_iff _ _ _ pos]
      simp [full]

variable {inst : IrInst}

/-- Some type of the language has the instruction. -/
theorem exists_type (isShift : inst.op = .shl ∨ inst.op = .lshr ∨ inst.op = .ashr)
    (integer : irTypeIsInt inst.type = true) : ∃ (type : IntegerType) (op : BinaryOp),
      irTypeOf type = inst.type ∧ irOpOf op type.isSigned = inst.op := by
  rcases isShift with is | is | is <;> rw [is] <;> cases type : inst.type <;> first
    | exact absurd integer (by rw [type]; decide)
    | exact ⟨.u8, .shiftLeft, rfl, rfl⟩
    | exact ⟨.u16, .shiftLeft, rfl, rfl⟩
    | exact ⟨.u32, .shiftLeft, rfl, rfl⟩
    | exact ⟨.u64, .shiftLeft, rfl, rfl⟩
    | exact ⟨.u8, .shiftRight, rfl, rfl⟩
    | exact ⟨.u16, .shiftRight, rfl, rfl⟩
    | exact ⟨.u32, .shiftRight, rfl, rfl⟩
    | exact ⟨.u64, .shiftRight, rfl, rfl⟩
    | exact ⟨.i8, .shiftRight, rfl, rfl⟩
    | exact ⟨.i16, .shiftRight, rfl, rfl⟩
    | exact ⟨.i32, .shiftRight, rfl, rfl⟩
    | exact ⟨.i64, .shiftRight, rfl, rfl⟩

theorem shift_of_lowered (isShift : inst.op = .shl ∨ inst.op = .lshr ∨ inst.op = .ashr)
    {isSigned : Bool} {op : BinaryOp} (lowered : irOpOf op isSigned = inst.op) :
    op = .shiftLeft ∨ op = .shiftRight := by
  cases op with
  | shiftLeft => exact .inl rfl
  | shiftRight => exact .inr rfl
  | add | sub | mul | div | mod | or | and | xor =>
    cases isSigned <;> rcases isShift with is | is | is <;> simp [is, irOpOf] at lowered

/-- For one type: what the folder makes of the shift has the value. -/
theorem fold_iff (isShift : inst.op = .shl ∨ inst.op = .lshr ∨ inst.op = .ashr)
    (integer : irTypeIsInt inst.type = true) (a b : BitVec (irTypeBits inst.type))
    {isSigned : Bool} {op : BinaryOp} (lowered : irOpOf op isSigned = inst.op) :
    (∀ literal, simplifyLiterals op (extended isSigned a 64) (extended isSigned b 64) =
        .literal literal → some (literal.integer.setWidth _) = llvmEmitShift inst a b) ↔
      FoldKeeps inst.op a b := by
  obtain ⟨wide, narrow, ⟨k, power⟩, bits⟩ := bits_of_int integer
  obtain ⟨below, same⟩ := toNat_extended_count isSigned b wide narrow
  rw [llvmEmitShift_eq isShift power bits, FoldKeeps]
  by_cases count : b.toNat < 64
  · have inside := toInt_in_shift_range.mpr (below.mpr count)
    simp only [count, forall_const]
    rcases shift_of_lowered isShift lowered with rfl | rfl
    · have is : inst.op = .shl := lowered.symm
      have shifted : (extended isSigned a 64 <<< b.toNat).setWidth (irTypeBits inst.type) =
          X64ShiftOp.shl.shiftBy a b.toNat :=
        setWidth_shiftBy .shl a _ _ narrow (setWidth_extended_self _ _ narrow)
      simp only [simplifyLiterals, inside, and_self, if_true, makeLiteralInteger,
        Simplified.literal.injEq, forall_eq', Option.some.injEq, same count, is, x64ShiftOpOf,
        shifted, shiftBy_eq_iff _ _ _ (show 0 < irTypeBits inst.type by omega)]
      simp
    · have isOp : x64ShiftOpOf inst.op = if isSigned then .sar else .shr := by
        cases isSigned <;> rw [← lowered] <;> rfl
      have isLshr : inst.op = .lshr ↔ isSigned = false := by
        cases isSigned <;> rw [← lowered] <;> simp [irOpOf]
      simp only [simplifyLiterals, inside, and_self, if_true, makeLiteralInteger,
        Simplified.literal.injEq, forall_eq', Option.some.injEq, same count, isLshr]
      exact setWidth_sshiftRight_iff isSigned a (by omega) narrow count isOp
  · have outside : ¬ (0 ≤ (extended isSigned b 64).toInt ∧ (extended isSigned b 64).toInt < 64) :=
      fun inside => count (below.mp (toInt_in_shift_range.mp inside))
    refine iff_of_true (fun literal folded => ?_) fun inside => absurd inside count
    rcases shift_of_lowered isShift lowered with rfl | rfl <;>
    · rw [simplifyLiterals, if_neg outside] at folded
      simp at folded

theorem folderShiftsLikeLlvm_iff (isShift : inst.op = .shl ∨ inst.op = .lshr ∨ inst.op = .ashr)
    (integer : irTypeIsInt inst.type = true) (a b : BitVec (irTypeBits inst.type)) :
    FolderShiftsLikeLlvm inst a b ↔ FoldKeeps inst.op a b := by
  obtain ⟨type, op, isType, lowered⟩ := exists_type isShift integer
  constructor
  · exact fun like => (fold_iff isShift integer a b lowered).mp (like type op isType lowered)
  · exact fun keeps _ _ _ lowered => (fold_iff isShift integer a b lowered).mpr keeps

end Folder

/-- The x64 code and the folder shift like the LLVM instructions exactly if the bits that a masked count
keeps are lost under each of the masks, and the folder is not given an unsigned 64-bit value of
2^63 or more to shift right. -/
theorem shiftsAgree_iff (x : X64Emitter) (inst : IrInst) (placed : Placement x inst)
    (isShift : inst.op = .shl ∨ inst.op = .lshr ∨ inst.op = .ashr)
    (symbolAddress : List (BitVec 8) → BitVec 64) (state : X64State) :
    (CodeShiftsLikeLlvm x inst symbolAddress state ∧
      FolderShiftsLikeLlvm inst (operandBits x inst state inst.a)
        (operandBits x inst state inst.b)) ↔
    (ShiftKeeps (x64ShiftOpOf inst.op) (operandBits x inst state inst.a)
        (x64ShiftCount (irTypeBits inst.type) (operandBits x inst state inst.b).toNat) ∧
      FoldKeeps inst.op (operandBits x inst state inst.a) (operandBits x inst state inst.b)) :=
  and_congr (codeShiftsLikeLlvm_iff isShift placed symbolAddress state)
    (folderShiftsLikeLlvm_iff isShift (shift_integer isShift placed) _ _)

/-! ## A byte shifted by 8 -/

def shiftByte : IrInst := { op := .shl, type := .i8, dst := some 2, a := some 0, b := some 1 }

def shiftFunction : IrFunction where
  returnType := .i8
  vregTypes := [.i8, .i8, .i8]
  params := [0, 1]
  blocks := [{ id := 0, insts := [shiftByte], term := .ret (some 2) }]

def shiftEmitter : X64Emitter where
  globals := []
  func := shiftFunction
  ra := regallocFunction shiftFunction x64Target
  fits := by decide

theorem shiftByte_placement : Placement shiftEmitter shiftByte :=
  placement_of_registers (by decide) rfl rfl (by decide) (by decide)

/-- The values 1 and 8 in their registers. -/
def shiftState : X64State where
  regs reg :=
    if .reg reg.number = shiftEmitter.ra.locations 0 then 1
    else if .reg reg.number = shiftEmitter.ra.locations 1 then 8
    else 0
  mem _ := 0

theorem shiftsAgree_iff_shiftByte :
    (CodeShiftsLikeLlvm shiftEmitter shiftByte (fun _ => 0) shiftState ∧
      FolderShiftsLikeLlvm shiftByte (operandBits shiftEmitter shiftByte shiftState (some 0))
        (operandBits shiftEmitter shiftByte shiftState (some 1))) ↔
    (ShiftKeeps .shl (operandBits shiftEmitter shiftByte shiftState (some 0))
        (x64ShiftCount 8 (operandBits shiftEmitter shiftByte shiftState (some 1)).toNat) ∧
      FoldKeeps .shl (operandBits shiftEmitter shiftByte shiftState (some 0))
        (operandBits shiftEmitter shiftByte shiftState (some 1))) :=
  shiftsAgree_iff _ _ shiftByte_placement (.inl rfl) _ _

/-- The x64 code gives 0, as it shifts 32 bits by 8, and the LLVM instructions give 1, as they mask
the count with 7. -/
theorem shiftByte_disagrees : Placement shiftEmitter shiftByte ∧
    ¬ CodeShiftsLikeLlvm shiftEmitter shiftByte (fun _ => 0) shiftState := by
  refine ⟨shiftByte_placement, fun like => ?_⟩
  have keeps := (codeShiftsLikeLlvm_iff (.inl rfl) shiftByte_placement _ _).mp like
  have value : (operandBits shiftEmitter shiftByte shiftState shiftByte.a).toNat = 1 := by
    decide
  have count : (operandBits shiftEmitter shiftByte shiftState shiftByte.b).toNat = 8 := by
    decide
  rw [count] at keeps
  rcases keeps with inside | lost
  · exact absurd inside (by decide)
  · have divides : 2 ^ 8 ∣ (operandBits shiftEmitter shiftByte shiftState shiftByte.a).toNat := lost
    rw [value] at divides
    exact absurd divides (by decide)

end Saad
