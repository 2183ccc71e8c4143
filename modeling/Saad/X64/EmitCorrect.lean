import Saad.General.Extension
import Saad.X64.EmitInst

/-! # The code of an instruction computes its value

For each group of instructions: whatever registers and spill slots the vregs have, as long as the
destination has none of an operand, the code leaves the value of the instruction in the low bits of
the destination's location and changes nothing else that is not scratch.
-/

namespace Saad

open General X64State

/-- The widths of integers and pointers, in bytes. -/
def IsWidth (width : ℕ) : Prop := width = 1 ∨ width = 2 ∨ width = 4 ∨ width = 8

theorem x64Width_eq {type : IrType} (integer : irTypeIsIntOrPtr type = true) :
    x64Width type = irTypeSize type := by
  cases type <;> first | rfl | exact absurd integer (by decide)

theorem isWidth_irTypeSize {type : IrType} (integer : irTypeIsIntOrPtr type = true) :
    IsWidth (irTypeSize type) := by
  unfold IsWidth
  cases type <;> first | decide | exact absurd integer (by decide)

theorem wide_bounds {size : ℕ} (width : IsWidth size) :
    4 ≤ x64WideWidth size ∧ x64WideWidth size ≤ 8 ∧ size ≤ x64WideWidth size := by
  rcases width with rfl | rfl | rfl | rfl <;> decide

/-! ## Pieces of code -/

section Pieces

variable {symbolAddress : List (BitVec 8) → BitVec 64} {state : X64State} {dst src : X64Reg}

theorem move_ok {width : ℕ} (small : width ≤ 8) :
    X64Runs symbolAddress (if dst ≠ src then [.mov width dst src] else []) state fun after =>
      after.low width dst = state.low width src ∧ Keeps [dst] state after := by
  split
  · exact .single rfl ⟨low_setLow _ _ _ small _, .setLow state dst _ List.mem_cons_self⟩
  · next same => exact .nil ⟨by rw [not_not.mp same], .refl state⟩

theorem moveReg_ok : X64Runs symbolAddress (x64MoveReg dst src) state fun after =>
    after.regs dst = state.regs src ∧ Keeps [dst] state after := by
  unfold x64MoveReg
  split
  · next same => exact .nil ⟨by rw [same], .refl state⟩
  · refine .single rfl ⟨?_, .setLow state dst _ List.mem_cons_self⟩
    rw [setLow_regs_self _ _ (by decide)]
    exact BitVec.setWidth_eq _

theorem extendTo32_ok {size : ℕ} (width : IsWidth size) (isSigned : Bool) :
    X64Runs symbolAddress (x64ExtendTo32 dst src size isSigned) state fun after =>
      after.low (x64WideWidth size) dst =
        extended isSigned (state.low size src) (8 * x64WideWidth size) ∧
      Keeps [dst] state after := by
  unfold x64ExtendTo32
  by_cases narrow : size = 1 ∨ size = 2
  · have wide : x64WideWidth size = 4 := by rcases narrow with rfl | rfl <;> rfl
    rw [if_pos narrow, wide]
    cases isSigned
    · exact .single rfl ⟨low_setLow _ _ _ (by decide) _, .setLow state dst _ List.mem_cons_self⟩
    · exact .single rfl ⟨low_setLow _ _ _ (by decide) _, .setLow state dst _ List.mem_cons_self⟩
  · have wide : x64WideWidth size = size := by
      rcases width with rfl | rfl | rfl | rfl <;> first | rfl | simp at narrow
    rw [if_neg narrow, wide]
    refine (move_ok (by rw [← wide]; exact (wide_bounds width).2.1)).mono fun after result => ?_
    rw [result.1]
    exact ⟨by unfold extended; split <;> simp, result.2⟩

/-- The low bytes of what a register keeps. -/
theorem low_of_regs {before after : X64State} {reg : X64Reg} (same : after.regs reg = before.regs reg)
    (width : ℕ) : after.low width reg = before.low width reg := by
  rw [X64State.low, X64State.low, same]

end Pieces

/-! ## Values -/

section Values

variable {w n : ℕ}

theorem X64Alu.setWidth_eval (op : X64Alu) (x y : BitVec n) (narrow : w ≤ n) :
    (op.eval x y).setWidth w = op.eval (x.setWidth w) (y.setWidth w) := by
  cases op with
  | add => exact BitVec.setWidth_add _ _ narrow
  | sub => exact setWidth_sub _ _ narrow
  | imul => exact BitVec.setWidth_mul _ _ narrow
  | and => exact BitVec.setWidth_and
  | or => exact BitVec.setWidth_or
  | xor => exact BitVec.setWidth_xor

theorem X64Unary.setWidth_eval (op : X64Unary) (x : BitVec n) (narrow : w ≤ n) :
    (op.eval x).setWidth w = op.eval (x.setWidth w) := by
  cases op with
  | neg => exact BitVec.setWidth_neg_of_le narrow
  | not => exact BitVec.setWidth_not narrow

theorem msb_ne_ssubOverflow (x y : BitVec w) : ((x - y).msb != x.ssubOverflow y) = x.slt y := by
  cases overflows : x.ssubOverflow y with
  | false =>
    have difference := BitVec.toInt_sub_of_not_ssubOverflow (x := x) (y := y) (by simp [overflows])
    rw [BitVec.msb_eq_toInt, difference, BitVec.slt_eq_decide, Bool.bne_false, decide_eq_decide]
    omega
  | true =>
    rw [BitVec.ssubOverflow_eq] at overflows
    simp only [Bool.or_eq_true, Bool.and_eq_true, Bool.not_eq_true'] at overflows
    rw [BitVec.slt_eq_decide]
    rcases overflows with ⟨⟨nonneg, neg⟩, wraps⟩ | ⟨⟨neg, nonneg⟩, wraps⟩
    · have := BitVec.toInt_nonneg_of_msb_false nonneg
      have := BitVec.toInt_neg_of_msb_true neg
      rw [wraps, eq_comm]
      exact decide_eq_false (by omega)
    · have := BitVec.toInt_neg_of_msb_true neg
      have := BitVec.toInt_nonneg_of_msb_false nonneg
      rw [wraps, eq_comm]
      exact decide_eq_true (by omega)

theorem sle_eq_not_slt (x y : BitVec w) : x.sle y = !y.slt x := by
  rw [BitVec.sle_eq_decide, BitVec.slt_eq_decide, ← decide_not]
  exact decide_eq_decide.mpr (by omega)

theorem ule_eq_not_ult (x y : BitVec w) : x.ule y = !y.ult x := by
  rw [BitVec.ule_eq_decide, BitVec.ult_eq_decide, ← decide_not]
  exact decide_eq_decide.mpr (by omega)

theorem sle_eq_or (x y : BitVec w) : x.sle y = (x == y || x.slt y) := by
  rw [BitVec.sle_eq_decide, BitVec.slt_eq_decide, Bool.eq_iff_iff]
  simp only [decide_eq_true_eq, Bool.or_eq_true, beq_iff_eq, ← BitVec.toInt_inj]
  omega

theorem ule_eq_or (x y : BitVec w) : x.ule y = (x.ult y || x == y) := by
  rw [BitVec.ule_eq_decide, BitVec.ult_eq_decide, Bool.eq_iff_iff]
  simp only [decide_eq_true_eq, Bool.or_eq_true, beq_iff_eq, ← BitVec.toNat_inj]
  omega

/-- The low bits of a wide shift of an extended value are the shift of the value. -/
theorem setWidth_shiftBy (op : X64ShiftOp) (value : BitVec w) (wide : BitVec n) (count : ℕ)
    (narrow : w ≤ n) (extends' : match op with
      | .shl => wide.setWidth w = value
      | .shr => wide = extended false value n
      | .sar => wide = extended true value n) :
    (op.shiftBy wide count).setWidth w = op.shiftBy value count := by
  cases op with
  | shl =>
    simp only at extends'
    rw [X64ShiftOp.shiftBy, BitVec.setWidth_shiftLeft_of_le narrow, extends', X64ShiftOp.shiftBy]
  | shr =>
    simp only [X64ShiftOp.shiftBy, extends', extended, Bool.false_eq_true, if_false]
    apply BitVec.eq_of_getLsbD_eq
    intro i bound
    simp only [BitVec.getLsbD_setWidth, BitVec.getLsbD_ushiftRight, bound, decide_true,
      Bool.true_and]
    by_cases inside : count + i < n
    · simp [inside]
    · rw [decide_eq_false inside, Bool.false_and, eq_comm]
      exact BitVec.getLsbD_of_ge _ _ (by omega)
  | sar =>
    simp only [X64ShiftOp.shiftBy, extends', extended, if_true]
    apply BitVec.eq_of_getLsbD_eq
    intro i bound
    have top : (value.signExtend n).msb = value.msb := by
      rw [BitVec.msb_eq_getLsbD_last, BitVec.getLsbD_signExtend]
      by_cases same : n - 1 < w
      · have : n = w := by omega
        subst this
        rw [if_pos same, BitVec.msb_eq_getLsbD_last, decide_eq_true (by omega), Bool.true_and]
      · rw [if_neg same, decide_eq_true (by omega), Bool.true_and]
    have below : ¬ w ≤ i := by omega
    have belowWide : ¬ n ≤ i := by omega
    simp only [BitVec.getLsbD_setWidth, BitVec.getLsbD_sshiftRight, BitVec.getLsbD_signExtend, top,
      bound, below, belowWide, decide_true, decide_false, Bool.true_and, Bool.not_false]
    by_cases low : count + i < w
    · have inside : count + i < n := by omega
      simp [inside, low]
    · by_cases inside : count + i < n <;> simp [inside, low]

/-- The conditions after a comparison are those of the IR. -/
theorem holds_compareFlags {cmp : IrCmp} (integer : irCmpIsInt cmp = true) (x y : BitVec w) :
    (x64IcmpCc cmp).holds (compareFlags x y) = irCompare cmp x y := by
  have less := msb_ne_ssubOverflow x y
  have eq_bne (a b : Bool) : (a == b) = !(a != b) := by cases a <;> cases b <;> rfl
  cases cmp <;> first
    | exact absurd integer (by decide)
    | simp only [x64IcmpCc, X64Cond.holds, compareFlags, irCompare, eq_bne, less]
  case ne => rfl
  case sle => exact (sle_eq_or x y).symm
  case sgt => rw [← Bool.not_or, ← sle_eq_or, sle_eq_not_slt, Bool.not_not]
  case sge => exact (sle_eq_not_slt y x).symm
  case ule => exact (ule_eq_or x y).symm
  case ugt => rw [← Bool.not_or, ← ule_eq_or, ule_eq_not_ult, Bool.not_not]
  case uge => exact (ule_eq_not_ult y x).symm

end Values

/-! ## One group of instructions after the other -/

section Instructions

variable {x : X64Emitter} {symbolAddress : List (BitVec 8) → BitVec 64} {state : X64State}
  {inst : IrInst} {size : ℕ}

/-- The register of a destination does not change what the other operand's register holds. -/
theorem low_setWidth (reg : X64Reg) {width : ℕ} (narrow : size ≤ width) :
    (state.low width reg).setWidth (8 * size) = (state.regs reg).setWidth (8 * size) :=
  BitVec.setWidth_setWidth_of_le _ (by omega)

theorem Defined.mono {vreg : Vreg} {value weaker : BitVec 64 → Prop} {before after : X64State}
    (defined : Defined x vreg value before after) (imp : ∀ v, value v → weaker v) :
    Defined x vreg weaker before after :=
  ⟨imp _ defined.value, defined.regs, defined.mem⟩

theorem keeps_def {scratch : List X64Reg} {dst : Vreg} {before after : X64State}
    (keeps : Keeps scratch before after) (subset : scratch ⊆ x64Scratch) :
    Keeps (x64Def x dst .r10 :: x64Scratch) before after :=
  keeps.mono fun _ mem => List.mem_cons_of_mem _ (subset mem)

theorem keeps_def_self {dst : Vreg} {before after : X64State}
    (keeps : Keeps [x64Def x dst .r10] before after) :
    Keeps (x64Def x dst .r10 :: x64Scratch) before after :=
  keeps.mono fun _ mem => List.mem_cons.mpr (.inl (List.mem_singleton.mp mem))

variable (locatedD : x.Located (vregOf inst.dst)) (locatedA : x.Located (vregOf inst.a))
  (locatedB : x.Located (vregOf inst.b))
  (apartB : x.ra.locations (vregOf inst.b) ≠ x.ra.locations (vregOf inst.dst))

include locatedD locatedA locatedB apartB in
theorem intBinop_ok (op : X64Alu) (width : IsWidth size) (same : x64Width inst.type = size) :
    X64Runs symbolAddress (x64EmitIntBinop x op inst) state
      (Defined x (vregOf inst.dst) (fun value => value.setWidth (8 * size) =
        op.eval ((x.contents state (vregOf inst.a)).setWidth (8 * size))
          ((x.contents state (vregOf inst.b)).setWidth (8 * size))) state) := by
  obtain ⟨-, small, narrow⟩ := wide_bounds width
  unfold x64EmitIntBinop
  rw [same]
  set W := x64WideWidth size
  refine def_ok locatedD (.append (.append ((useTwo_ok locatedA locatedB).mono fun s1 uses => ?_)))
  obtain ⟨holdsA, holdsB, keeps1⟩ := uses
  refine (move_ok small).mono fun s2 moved => ?_
  have ne := def_ne_use locatedD locatedB apartB
  refine .single rfl ⟨?_, ?_⟩
  · change ((X64State.setLow _ _ _ _).regs _).setWidth _ = _
    rw [← low_setWidth _ narrow, low_setLow _ _ _ small, X64Alu.setWidth_eval _ _ _ (by omega),
      moved.1, low_setWidth _ narrow, low_setWidth _ narrow, holdsA,
      moved.2.regs _ (by simpa using Ne.symm ne), holdsB]
  · exact (keeps_def keeps1 (by decide)).trans ((keeps_def_self moved.2).trans
      ((Keeps.setLow s2 _ _ List.mem_cons_self).flags _))

include locatedD locatedA in
theorem unary_ok (op : X64Unary) (width : IsWidth size) (same : x64Width inst.type = size) :
    X64Runs symbolAddress (x64EmitUnary x op inst) state
      (Defined x (vregOf inst.dst) (fun value => value.setWidth (8 * size) =
        op.eval ((x.contents state (vregOf inst.a)).setWidth (8 * size))) state) := by
  obtain ⟨-, small, narrow⟩ := wide_bounds width
  unfold x64EmitUnary
  rw [same]
  refine def_ok locatedD (.append (.append ((use_ok locatedA).mono fun s1 used => ?_)))
  refine (move_ok small).mono fun s2 moved => ?_
  refine .single rfl ⟨?_, ?_⟩
  · change ((X64State.setLow _ _ _ _).regs _).setWidth _ = _
    rw [← low_setWidth _ narrow, low_setLow _ _ _ small, X64Unary.setWidth_eval _ _ (by omega),
      moved.1, low_setWidth _ narrow, used.1]
  · exact (keeps_def used.2 (by decide)).trans ((keeps_def_self moved.2).trans
      ((Keeps.setLow s2 _ _ List.mem_cons_self).flags _))

include locatedD locatedA locatedB in
theorem icmp_ok (same : x64Width inst.type = size)
    (integer : irCmpIsInt inst.cmp = true) :
    X64Runs symbolAddress (x64EmitIcmp x inst) state
      (Defined x (vregOf inst.dst) (fun value => value.setWidth 8 =
        if irCompare inst.cmp ((x.contents state (vregOf inst.a)).setWidth (8 * size))
          ((x.contents state (vregOf inst.b)).setWidth (8 * size)) then 1 else 0) state) := by
  unfold x64EmitIcmp
  rw [same]
  refine def_ok locatedD (.append (.append ((useTwo_ok locatedA locatedB).mono fun s1 uses => ?_)))
  obtain ⟨holdsA, holdsB, keeps1⟩ := uses
  refine .single rfl (.single rfl ⟨?_, ?_⟩)
  · change X64State.low (X64State.setLow _ 1 _ _) 1 _ = _
    rw [low_setLow _ _ _ (by decide), holds_compareFlags integer]
    simp only [X64State.low, holdsA, holdsB]
  · exact (keeps_def keeps1 (by decide)).trans
      (((Keeps.refl s1).flags _).trans (Keeps.setLow _ _ _ List.mem_cons_self))

include locatedD locatedA in
theorem copy_ok : X64Runs symbolAddress (x64EmitCopy x inst) state
    (Defined x (vregOf inst.dst) (· = x.contents state (vregOf inst.a)) state) := by
  unfold x64EmitCopy
  refine def_ok locatedD (.append ((use_ok locatedA).mono fun s1 used => ?_))
  refine moveReg_ok.mono fun s2 moved => ⟨moved.1.trans used.1, ?_⟩
  exact (keeps_def used.2 (by decide)).trans (keeps_def_self moved.2)

include locatedD locatedA locatedB in
theorem ptrAdd_ok : X64Runs symbolAddress (x64EmitPtrAdd x inst) state
    (Defined x (vregOf inst.dst)
      (· = x.contents state (vregOf inst.a) + x.contents state (vregOf inst.b)) state) := by
  unfold x64EmitPtrAdd
  refine def_ok locatedD (.append ((useTwo_ok locatedA locatedB).mono fun s1 uses => ?_))
  obtain ⟨holdsA, holdsB, keeps1⟩ := uses
  refine .single rfl ⟨?_, (keeps_def keeps1 (by decide)).trans (.setReg _ _ _ List.mem_cons_self)⟩
  rw [setReg_regs_self, holdsA, holdsB]

include locatedD in
theorem addr_ok {addr : X64Mem} {value : BitVec 64}
    (leads : addr.address symbolAddress state = some value) :
    X64Runs symbolAddress (x64EmitAddr x inst addr) state
      (Defined x (vregOf inst.dst) (· = value) state) := by
  refine def_ok locatedD ?_
  refine .single (by rw [X64Inst.exec, leads, Option.map_some]) ⟨setReg_regs_self .., ?_⟩
  exact Keeps.setReg _ _ _ List.mem_cons_self

include locatedD in
theorem const_ok (width : IsWidth size) (same : x64Width inst.type = size) :
    X64Runs symbolAddress (x64EmitConst x inst) state
      (Defined x (vregOf inst.dst) (fun value =>
        value.setWidth (8 * size) = inst.imm.setWidth (8 * size)) state) := by
  unfold x64EmitConst
  rw [same]
  refine def_ok locatedD ?_
  split_ifs with zero narrow
  · refine .single rfl ⟨?_, (Keeps.setLow _ _ _ List.mem_cons_self).flags _⟩
    change ((X64State.setLow _ 4 _ _).regs _).setWidth _ = _
    rw [setLow_regs_self _ _ (by decide), zero]
    simp [X64Alu.eval]
  · refine .single rfl ⟨?_, Keeps.setLow _ _ _ List.mem_cons_self⟩
    rw [setLow_regs_self _ _ (by decide)]
    have four : size ≤ 4 := by
      rcases width with rfl | rfl | rfl | rfl <;> omega
    apply BitVec.eq_of_getLsbD_eq
    intro i bound
    have inLow : i < 32 := by omega
    have inside : i < 64 := by omega
    simp only [BitVec.getLsbD_setWidth, BitVec.getLsbD_signExtend, bound, inLow, inside, if_true,
      decide_true, Bool.true_and]
  · refine .single rfl ⟨?_, Keeps.setLow _ _ _ List.mem_cons_self⟩
    rw [setLow_regs_self _ _ (by decide)]
    simp

include locatedD locatedA in
/-- A conversion that extends or keeps bits of the source, for any code that does so. -/
theorem conversion_ok (piece : X64Reg → X64Reg → List X64Inst)
    (value : BitVec 64 → BitVec 64 → Prop)
    (code : x64EmitConversion x inst = (x64Use x (vregOf inst.a) .r10).2 ++
      piece (x64Def x (vregOf inst.dst) .r10) (x64Use x (vregOf inst.a) .r10).1 ++
      x64FinishDef x (vregOf inst.dst) (x64Def x (vregOf inst.dst) .r10))
    (runs : ∀ s dst src, X64Runs symbolAddress (piece dst src) s fun after =>
      value (s.regs src) (after.regs dst) ∧ Keeps [dst] s after) :
    X64Runs symbolAddress (x64EmitConversion x inst) state
      (Defined x (vregOf inst.dst) (value (x.contents state (vregOf inst.a))) state) := by
  rw [code]
  refine def_ok locatedD (.append ((use_ok locatedA).mono fun s1 used => ?_))
  refine (runs s1 _ _).mono fun s2 result => ⟨used.1 ▸ result.1, ?_⟩
  exact (keeps_def used.2 (by decide)).trans (keeps_def_self result.2)

include locatedD locatedA in
theorem sext_ok {source : ℕ} (op : inst.op = .sext) (width : IsWidth size)
    (same : x64Width inst.type = size) (sameSource : x64Width (irVregType x.func inst.a) = source)
    (wider : source < size) :
    X64Runs symbolAddress (x64EmitConversion x inst) state
      (Defined x (vregOf inst.dst) (fun value => value.setWidth (8 * size) =
        ((x.contents state (vregOf inst.a)).setWidth (8 * source)).signExtend (8 * size)) state) := by
  have wide : ∃ W, size ≤ W ∧ W ≤ 8 ∧
      (if source = 4 then 8 else if size < 4 then 4 else size) = W := by
    rcases width with rfl | rfl | rfl | rfl <;> (split_ifs <;> exact ⟨_, by omega, by omega, rfl⟩)
  obtain ⟨W, narrow, small, isWide⟩ := wide
  refine conversion_ok locatedD locatedA (fun d a => [.movsx W d source a])
    (fun source' value => value.setWidth (8 * size) =
      (source'.setWidth (8 * source)).signExtend (8 * size)) ?_ ?_
  · simp only [x64EmitConversion, op, same, sameSource, ← isWide]
    split_ifs with four <;> simp [four]
  · intro s dst src
    refine .single rfl ⟨?_, .setLow s dst _ List.mem_cons_self⟩
    rw [← low_setWidth _ narrow, low_setLow _ _ _ small]
    exact setWidth_extended true _ (by omega)

include locatedD locatedA in
theorem zext_ok {source : ℕ} (op : inst.op = .zext) (widthSource : IsWidth source)
    (width : IsWidth size) (sameSource : x64Width (irVregType x.func inst.a) = source) (wider : source < size) :
    X64Runs symbolAddress (x64EmitConversion x inst) state
      (Defined x (vregOf inst.dst) (fun value => value.setWidth (8 * size) =
        ((x.contents state (vregOf inst.a)).setWidth (8 * source)).setWidth (8 * size)) state) := by
  have four : source ≤ 4 ∧ size ≤ 8 := by
    rcases width with rfl | rfl | rfl | rfl <;> rcases widthSource with rfl | rfl | rfl | rfl <;> omega
  refine conversion_ok locatedD locatedA
    (fun d a => if source = 4 then [.mov 4 d a] else [.movzx d source a])
    (fun source' value => value.setWidth (8 * size) =
      (source'.setWidth (8 * source)).setWidth (8 * size)) ?_ ?_
  · simp only [x64EmitConversion, op, sameSource]
  · intro s dst src
    split_ifs with isFour
    · refine .single rfl ⟨?_, .setLow s dst _ List.mem_cons_self⟩
      subst isFour
      rw [setLow_regs_self _ _ (by decide), X64State.low]
      exact BitVec.setWidth_setWidth_of_le _ (by omega)
    · refine .single rfl ⟨?_, .setLow s dst _ List.mem_cons_self⟩
      rw [setLow_regs_self _ _ (by decide), BitVec.setWidth_setWidth_of_le _ (by omega)]
      exact BitVec.setWidth_setWidth (by omega)

include locatedD locatedA in
theorem trunc_ok {source : ℕ} (op : inst.op = .trunc) (widthSource : IsWidth source)
    (width : IsWidth size) (narrower : size < source) :
    X64Runs symbolAddress (x64EmitConversion x inst) state
      (Defined x (vregOf inst.dst) (fun value => value.setWidth (8 * size) =
        (x.contents state (vregOf inst.a)).setWidth (8 * size)) state) := by
  have four : size ≤ 4 := by
    rcases width with rfl | rfl | rfl | rfl <;> rcases widthSource with rfl | rfl | rfl | rfl <;> omega
  refine conversion_ok locatedD locatedA (fun d a => if d ≠ a then [.mov 4 d a] else [])
    (fun source' value => value.setWidth (8 * size) = source'.setWidth (8 * size)) ?_ ?_
  · simp only [x64EmitConversion, op]
  · intro s dst src
    refine (move_ok (by decide)).mono fun after moved => ⟨?_, moved.2⟩
    rw [← low_setWidth _ four, ← low_setWidth _ four, moved.1]

include locatedD locatedA in
theorem bitcast_ok (op : inst.op = .bitcast) :
    X64Runs symbolAddress (x64EmitConversion x inst) state
      (Defined x (vregOf inst.dst) (x.contents state (vregOf inst.a) = ·) state) := by
  refine conversion_ok locatedD locatedA x64MoveReg (fun source value => source = value) ?_ ?_
  · simp only [x64EmitConversion, op]
  · intro s dst src
    exact moveReg_ok.mono fun after moved => ⟨moved.1.symm, moved.2⟩

omit inst in
/-- What `cl` gives as the count only depends on the low bits of the operand. -/
theorem shiftCount_eq (width : IsWidth size) (count : BitVec 64) :
    (count.setWidth 8).toNat % (if 8 * x64WideWidth size = 64 then 64 else 32) =
      (count.setWidth (8 * size)).toNat % if size = 8 then 64 else 32 := by
  rcases width with rfl | rfl | rfl | rfl <;> simp [x64WideWidth, BitVec.toNat_setWidth]

include locatedD locatedA locatedB in
/-- The shift of the value, by the count modulo 32, or modulo 64 for 64-bit values. -/
theorem shift_ok (width : IsWidth size) (same : x64Width inst.type = size)
    (isShift : inst.op = .shl ∨ inst.op = .lshr ∨ inst.op = .ashr) :
    X64Runs symbolAddress (x64EmitShift x inst) state
      (Defined x (vregOf inst.dst) (fun value => value.setWidth (8 * size) =
        (x64ShiftOpOf inst.op).shiftBy ((x.contents state (vregOf inst.a)).setWidth (8 * size))
          (((x.contents state (vregOf inst.b)).setWidth (8 * size)).toNat %
            if size = 8 then 64 else 32)) state) := by
  obtain ⟨-, small, narrow⟩ := wide_bounds width
  unfold x64EmitShift
  rw [same]
  set W := x64WideWidth size with wide
  refine def_ok locatedD (.append (.append (.append (.append ((use_ok locatedB).mono
    fun s1 usedB => .single rfl ?_)))))
  refine (use_ok locatedA).mono fun s3 usedA => ?_
  set s2 := s1.setLow 4 .rcx (s1.low 4 (x64Use x (vregOf inst.b) .r11).1) with counted
  have keeps2 : Keeps x64Scratch state s2 :=
    (usedB.2.mono (by decide)).trans (.setLow s1 .rcx _ (by decide))
  have holdsA : s3.regs (x64Use x (vregOf inst.a) .r10).1 = x.contents state (vregOf inst.a) :=
    usedA.1.trans (contents_keeps locatedA keeps2)
  have count : (s3.regs .rcx).setWidth 8 = (x.contents state (vregOf inst.b)).setWidth 8 := by
    rw [usedA.2.regs _ (by decide), counted, setLow_regs_self _ _ (by decide), X64State.low,
      usedB.1, BitVec.setWidth_setWidth_of_le _ (by decide),
      BitVec.setWidth_setWidth_of_le _ (by decide)]
  have dNotRcx : X64Reg.rcx ≠ x64Def x (vregOf inst.dst) .r10 := by
    rcases mem_def .r10 locatedD with isScratch | pooled
    · rw [isScratch]
      decide
    · exact fun isRcx => (allocatable_not_scratch _ pooled).1 (isRcx ▸ by decide)
  have placed : X64Runs symbolAddress
      (if inst.op = .shl then
        (if x64Def x (vregOf inst.dst) .r10 ≠ (x64Use x (vregOf inst.a) .r10).1 then
          [.mov W (x64Def x (vregOf inst.dst) .r10) (x64Use x (vregOf inst.a) .r10).1] else [])
      else x64ExtendTo32 (x64Def x (vregOf inst.dst) .r10) (x64Use x (vregOf inst.a) .r10).1 size
        (inst.op == .ashr)) s3 fun s4 =>
      (∀ count, ((x64ShiftOpOf inst.op).shiftBy (s4.low W (x64Def x (vregOf inst.dst) .r10))
        count).setWidth (8 * size) = (x64ShiftOpOf inst.op).shiftBy
          ((x.contents state (vregOf inst.a)).setWidth (8 * size)) count) ∧
      Keeps [x64Def x (vregOf inst.dst) .r10] s3 s4 := by
    rcases isShift with op | op | op <;> simp only [op, x64ShiftOpOf, reduceCtorEq, if_true, if_false]
    · refine (move_ok small).mono fun s4 moved => ⟨fun count => ?_, moved.2⟩
      refine setWidth_shiftBy .shl _ _ count (by omega) ?_
      rw [moved.1, low_setWidth _ narrow, holdsA]
    · refine (extendTo32_ok width _).mono fun s4 moved => ⟨fun count => ?_, moved.2⟩
      refine setWidth_shiftBy .shr _ _ count (by omega) ?_
      rw [moved.1, X64State.low, holdsA]
      rfl
    · refine (extendTo32_ok width _).mono fun s4 moved => ⟨fun count => ?_, moved.2⟩
      refine setWidth_shiftBy .sar _ _ count (by omega) ?_
      rw [moved.1, X64State.low, holdsA]
      rfl
  refine placed.mono fun s4 result => .single rfl ⟨?_, ?_⟩
  · change ((X64State.setLow _ _ _ _).regs _).setWidth _ = _
    rw [← low_setWidth _ narrow, low_setLow _ _ _ small, X64ShiftOp.eval, result.1,
      result.2.regs _ (by simpa using dNotRcx), count]
    rw [shiftCount_eq width]
  · refine Keeps.trans (keeps2.mono fun _ mem => List.mem_cons_of_mem _ mem) ?_
    exact (keeps_def usedA.2 (by decide)).trans ((keeps_def_self result.2).trans
      ((Keeps.setLow s4 _ _ List.mem_cons_self).flags _))

end Instructions

/-! ## Division -/

section Division

variable {w n : ℕ}

theorem toInt_sshiftRight_sign (value : BitVec n) (pos : 0 < n) :
    (value.sshiftRight (n - 1)).toInt = if value.msb then -1 else 0 := by
  rw [BitVec.toInt_sshiftRight, Int.shiftRight_eq_div_pow]
  have low := BitVec.le_two_mul_toInt (x := value)
  have high := BitVec.two_mul_toInt_lt (x := value)
  have double : (2 : ℤ) ^ n = 2 * 2 ^ (n - 1) := by
    rw [← pow_succ', Nat.sub_add_cancel pos]
  have cast : (((2 ^ (n - 1) : ℕ)) : ℤ) = 2 ^ (n - 1) := by push_cast; rfl
  rw [cast]
  split
  · next negative =>
    exact Int.ediv_eq_neg_one_of_neg_of_le (BitVec.toInt_neg_of_msb_true negative) (by omega)
  · next nonneg =>
    exact Int.ediv_eq_zero_of_lt (BitVec.toInt_nonneg_of_msb_false (by simpa using nonneg))
      (by omega)

/-- The two halves that `cdq` and `cqo` make are the value. -/
theorem signSplit_value (value : BitVec n) (pos : 0 < n) :
    (value.sshiftRight (n - 1)).toInt * 2 ^ n + value.toNat = value.toInt := by
  rw [toInt_sshiftRight_sign value pos, BitVec.toInt_eq_msb_cond]
  split <;> push_cast <;> ring

/-- A signed quotient that fits the narrow type fits the wide one. -/
theorem quotient_bounds {value divisor : BitVec w} (fits : SignedQuotientFits value divisor)
    (pos : 0 < w) (wider : w ≤ n) :
    (value.sdiv divisor).toInt = value.toInt.tdiv divisor.toInt ∧
      -(2 ^ (n - 1)) ≤ value.toInt.tdiv divisor.toInt ∧
      value.toInt.tdiv divisor.toInt < 2 ^ (n - 1) := by
  have quotient := BitVec.toInt_sdiv_of_ne_or_ne value divisor (not_and_or.mp fits)
  have low := BitVec.le_two_mul_toInt (x := value.sdiv divisor)
  have high := BitVec.two_mul_toInt_lt (x := value.sdiv divisor)
  have double : (2 : ℤ) ^ w = 2 * 2 ^ (w - 1) := by
    rw [← pow_succ', Nat.sub_add_cancel pos]
  have grows : (2 : ℤ) ^ (w - 1) ≤ 2 ^ (n - 1) :=
    pow_le_pow_right₀ (by decide) (Nat.sub_le_sub_right wider 1)
  rw [← quotient]
  exact ⟨rfl, by omega, by omega⟩

variable {state : X64State} {width : ℕ}

theorem low_setLow_of_ne {reg other : X64Reg} (ne : other ≠ reg)
    (value : BitVec (8 * width)) :
    (state.setLow width reg value).low width other = state.low width other := by
  rw [X64State.low, setLow_regs_of_ne _ ne, ← X64State.low]

theorem keeps_two {reg other : X64Reg} (value second : BitVec (8 * width)) :
    Keeps [reg, other] state ((state.setLow width reg value).setLow width other second) :=
  (Keeps.setLow state reg value (by simp)).trans (Keeps.setLow _ other second (by simp))

variable (state) in
/-- `idiv` of a sign-split value. -/
theorem execIdiv_ok (small : width ≤ 8) (pos : 0 < width) {value : BitVec (8 * width)}
    (rax : state.low width .rax = value) (divisor : BitVec (8 * width))
    (rdx : state.low width .rdx = value.sshiftRight (8 * width - 1)) (ne : divisor ≠ 0)
    (low : -(2 ^ (8 * width - 1)) ≤ value.toInt.tdiv divisor.toInt)
    (high : value.toInt.tdiv divisor.toInt < 2 ^ (8 * width - 1)) :
    ∃ after, X64Inst.execIdiv state width divisor = some after ∧
      after.low width .rax = BitVec.ofInt _ (value.toInt.tdiv divisor.toInt) ∧
      after.low width .rdx = BitVec.ofInt _ (value.toInt.tmod divisor.toInt) ∧
      Keeps [.rax, .rdx] state after := by
  unfold X64Inst.execIdiv
  rw [rax, rdx, signSplit_value value (by omega)]
  simp only
  rw [if_neg (by rw [not_or, not_not]; exact ⟨ne, low, high⟩)]
  refine ⟨_, rfl, ?_, low_setLow _ _ _ small _, (keeps_two _ _).flags _⟩
  exact (low_setLow_of_ne (by decide) _).trans (low_setLow _ _ _ small _)

variable (state) in
/-- `div` of a value with an empty upper half. -/
theorem execDiv_ok (small : width ≤ 8) {value : BitVec (8 * width)}
    (rax : state.low width .rax = value) (divisor : BitVec (8 * width)) (rdx : state.low width .rdx = 0) (ne : divisor ≠ 0) :
    ∃ after, X64Inst.execDiv state width divisor = some after ∧
      after.low width .rax = BitVec.ofNat _ (value.toNat / divisor.toNat) ∧
      after.low width .rdx = BitVec.ofNat _ (value.toNat % divisor.toNat) ∧
      Keeps [.rax, .rdx] state after := by
  unfold X64Inst.execDiv
  rw [rax, rdx]
  have fits : value.toNat / divisor.toNat < 2 ^ (8 * width) :=
    lt_of_le_of_lt (Nat.div_le_self _ _) value.isLt
  simp only [BitVec.ofNat_eq_ofNat, BitVec.toNat_ofNat, Nat.zero_mod, zero_mul, zero_add]
  rw [if_neg (by rw [not_or, not_not]; exact ⟨ne, fits⟩)]
  refine ⟨_, rfl, ?_, low_setLow _ _ _ small _, (keeps_two _ _).flags _⟩
  exact (low_setLow_of_ne (by decide) _).trans (low_setLow _ _ _ small _)

variable {symbolAddress : List (BitVec 8) → BitVec 64} {size : ℕ}

/-- Whether the operator divides signed values, and whether it gives the remainder. -/
def isSignedOp (op : IrOp) : Bool := op == .sdiv || op == .srem

def isRemOp (op : IrOp) : Bool := op == .srem || op == .urem

/-- The quotient or the remainder of the numbers, modulo the width. -/
def dividedNumbers {w : ℕ} (op : IrOp) (x y : BitVec w) : BitVec w :=
  let number := readInt (isSignedOp op)
  BitVec.ofInt w (if isRemOp op then (number x).tmod (number y) else (number x).tdiv (number y))

/-- A division that has a value has that of the numbers. -/
theorem irBinary_divides {w : ℕ} {op : IrOp} (isDivide : op = .sdiv ∨ op = .udiv ∨ op = .srem ∨ op = .urem)
    {x y result : BitVec w} (defined : irBinary op x y = some result) :
    y ≠ 0 ∧ (isSignedOp op = true → SignedQuotientFits x y) ∧ result = dividedNumbers op x y := by
  unfold dividedNumbers
  rcases isDivide with rfl | rfl | rfl | rfl
  · simp only [irBinary] at defined
    split_ifs at defined with ok
    cases defined
    refine ⟨ok.1, fun _ => ok.2, (ofInt_readInt true _).symm.trans ?_⟩
    exact congrArg _ (readInt_quotient true x y fun _ => ok.2)
  · simp only [irBinary] at defined
    split_ifs at defined with ok
    cases defined
    refine ⟨ok, fun signed => absurd signed (by decide), (ofInt_readInt false _).symm.trans ?_⟩
    exact congrArg _ (readInt_quotient false x y fun signed => absurd signed (by decide))
  · simp only [irBinary] at defined
    split_ifs at defined with ok
    cases defined
    refine ⟨ok.1, fun _ => ok.2, (ofInt_readInt true _).symm.trans ?_⟩
    exact congrArg _ (readInt_remainder true x y)
  · simp only [irBinary] at defined
    split_ifs at defined with ok
    cases defined
    refine ⟨ok, fun signed => absurd signed (by decide), (ofInt_readInt false _).symm.trans ?_⟩
    exact congrArg _ (readInt_remainder false x y)

/-- The signed quotient fits the registers, which are at least 32 bits wide. -/
def WideQuotientFits (op : IrOp) (size : ℕ) {w : ℕ} (value divisor : BitVec w) : Prop :=
  isSignedOp op = true →
    -(2 ^ (8 * x64WideWidth size - 1)) ≤ value.toInt.tdiv divisor.toInt ∧
      value.toInt.tdiv divisor.toInt < 2 ^ (8 * x64WideWidth size - 1)

variable (symbolAddress state) in
/-- The division proper: `rax` and the divisor hold the extended operands. -/
theorem divideStep_ok {op : IrOp} (isWidth : IsWidth size) {value divisor : BitVec (8 * size)} (ne : divisor ≠ 0)
    (fits : WideQuotientFits op size value divisor) (reg : X64Reg) (notRdx : reg ≠ .rdx)
    (rax : state.low (x64WideWidth size) .rax = extended (isSignedOp op) value _)
    (holds : state.low (x64WideWidth size) reg = extended (isSignedOp op) divisor _) :
    X64Runs symbolAddress
      ([if isSignedOp op then .signSplit (x64WideWidth size) else .alu .xor 4 .rdx .rdx] ++
        [if isSignedOp op then .idiv (x64WideWidth size) reg else .div (x64WideWidth size) reg])
      state fun after =>
        (after.low (x64WideWidth size) (if isRemOp op then .rdx else .rax)).setWidth (8 * size) =
          dividedNumbers op value divisor ∧ Keeps [.rax, .rdx] state after := by
  obtain ⟨wide, small, narrow⟩ := wide_bounds isWidth
  unfold dividedNumbers
  unfold WideQuotientFits at fits
  set W := x64WideWidth size
  by_cases isSigned : isSignedOp op = true
  · rw [isSigned] at rax holds
    simp only [isSigned, if_true]
    obtain ⟨low, high⟩ := fits isSigned
    -- The split leaves the operands where they are
    set middle := state.setLow W .rdx ((state.low W .rax).sshiftRight (8 * W - 1)) with split
    have raxMiddle : middle.low W .rax = extended true value _ :=
      (low_setLow_of_ne (by decide) _).trans rax
    have rdxMiddle : middle.low W .rdx = (extended true value (8 * W)).sshiftRight (8 * W - 1) := by
      rw [split, low_setLow _ _ _ small, rax]
    have intValue := toInt_extended value (n := 8 * W) (by omega)
    have intDivisor := toInt_extended divisor (n := 8 * W) (by omega)
    obtain ⟨after, runs, quotientLow, remainderLow, keeps⟩ := execIdiv_ok middle small
      (by omega) raxMiddle (extended true divisor (8 * W)) rdxMiddle
      (extended_ne_zero (by omega) ne)
      (by rw [intValue, intDivisor]; exact low) (by rw [intValue, intDivisor]; exact high)
    have divisorMiddle : middle.low W reg = extended true divisor _ :=
      (low_setLow_of_ne notRdx _).trans holds
    refine .cons rfl (.single (?_ : _ = some after) ⟨?_, ?_⟩)
    · change X64Inst.execIdiv middle W (middle.low W reg) = _
      rw [divisorMiddle, runs]
    · rw [intValue, intDivisor] at quotientLow remainderLow
      split
      · rw [remainderLow, setWidth_ofInt (by omega)]
        rfl
      · rw [quotientLow, setWidth_ofInt (by omega)]
        rfl
    · exact (Keeps.setLow state .rdx _ (by simp)).trans keeps
  · rw [Bool.eq_false_iff.mpr isSigned] at rax holds
    simp only [isSigned, if_false, Bool.false_eq_true]
    set middle : X64State := { state.setLow 4 .rdx
      (X64Alu.xor.eval (state.low 4 .rdx) (state.low 4 .rdx)) with flags := none } with cleared
    have raxMiddle : middle.low W .rax = extended false value _ := by
      rw [← rax]
      exact low_of_regs (setLow_regs_of_ne _ (by decide) _ _) W
    have rdxMiddle : middle.low W .rdx = 0 := by
      have zero : middle.regs .rdx = 0 := by
        refine (setLow_regs_self state .rdx (show 4 ≤ 4 by decide) _).trans ?_
        simp [X64Alu.eval]
      rw [X64State.low, zero]
      simp
    have natValue := toNat_extended value (n := 8 * W) (by omega)
    have natDivisor := toNat_extended divisor (n := 8 * W) (by omega)
    obtain ⟨after, runs, quotientLow, remainderLow, keeps⟩ := execDiv_ok middle small
      raxMiddle (extended false divisor (8 * W)) rdxMiddle
      (extended_ne_zero (by omega) ne)
    have divisorMiddle : middle.low W reg = extended false divisor _ := by
      rw [← holds]
      exact low_of_regs (setLow_regs_of_ne _ notRdx _ _) W
    refine .cons rfl (.single (?_ : _ = some after) ⟨?_, ?_⟩)
    · change X64Inst.execDiv middle W (middle.low W reg) = _
      rw [divisorMiddle, runs]
    · rw [natValue, natDivisor] at quotientLow remainderLow
      split
      · rw [remainderLow, ← BitVec.ofInt_natCast, setWidth_ofInt (by omega)]
        rfl
      · rw [quotientLow, ← BitVec.ofInt_natCast, setWidth_ofInt (by omega)]
        rfl
    · exact ((Keeps.setLow state .rdx _ (by simp)).flags _).trans keeps

end Division

section Divide

variable {x : X64Emitter} {symbolAddress : List (BitVec 8) → BitVec 64} {state : X64State}
  {inst : IrInst} {size : ℕ}

/-- The register that the code divides by. -/
def divisorReg (x : X64Emitter) (inst : IrInst) (size : ℕ) : X64Reg :=
  if size < 4 then .r11 else (x64Use x (vregOf inst.b) .r11).1

/-- The code in front of the division. -/
def divideOperands (x : X64Emitter) (inst : IrInst) (size : ℕ) : List X64Inst :=
  (x64Use x (vregOf inst.a) .r10).2 ++
    x64ExtendTo32 .rax (x64Use x (vregOf inst.a) .r10).1 size (isSignedOp inst.op) ++
    (x64Use x (vregOf inst.b) .r11).2 ++
    (if size < 4 then x64ExtendTo32 .r11 (x64Use x (vregOf inst.b) .r11).1 size (isSignedOp inst.op) else [])

theorem x64EmitDivide_eq (same : x64Width inst.type = size) : x64EmitDivide x inst =
    divideOperands x inst size ++
      ([if isSignedOp inst.op then .signSplit (x64WideWidth size) else .alu .xor 4 .rdx .rdx] ++
        [if isSignedOp inst.op then .idiv (x64WideWidth size) (divisorReg x inst size)
          else .div (x64WideWidth size) (divisorReg x inst size)]) ++
      [.mov (x64WideWidth size) (x64Def x (vregOf inst.dst) .r10) (if isRemOp inst.op then .rdx else .rax)] ++
      x64FinishDef x (vregOf inst.dst) (x64Def x (vregOf inst.dst) .r10) := by
  subst same
  simp only [x64EmitDivide, divideOperands, List.append_assoc]
  rfl

theorem divisorReg_ne_rdx (locatedB : x.Located (vregOf inst.b)) : divisorReg x inst size ≠ .rdx := by
  unfold divisorReg
  split_ifs
  · decide
  · rcases mem_use .r11 locatedB with isScratch | pooled
    · rw [isScratch]
      decide
    · exact fun isRdx => (allocatable_not_scratch _ pooled).1 (isRdx ▸ by decide)

/-- The extended operands are in `rax` and in the register that the code divides by. -/
theorem divideOperands_ok (locatedA : x.Located (vregOf inst.a)) (locatedB : x.Located (vregOf inst.b))
    (width : IsWidth size) :
    X64Runs symbolAddress (divideOperands x inst size) state fun after =>
      after.low (x64WideWidth size) .rax =
        extended (isSignedOp inst.op) ((x.contents state (vregOf inst.a)).setWidth (8 * size)) _ ∧
      after.low (x64WideWidth size) (divisorReg x inst size) =
        extended (isSignedOp inst.op) ((x.contents state (vregOf inst.b)).setWidth (8 * size)) _ ∧
      Keeps x64Scratch state after := by
  unfold divideOperands divisorReg
  set W := x64WideWidth size
  refine .append (.append (.append ((use_ok locatedA).mono fun s1 usedA => ?_)))
  refine (extendTo32_ok width _).mono fun s2 extendedA => ?_
  have keeps2 : Keeps x64Scratch state s2 :=
    (usedA.2.mono (by decide)).trans (extendedA.2.mono (by decide))
  refine (use_ok locatedB).mono fun s3 usedB => ?_
  have divisor : X64Runs symbolAddress
      (if size < 4 then x64ExtendTo32 .r11 (x64Use x (vregOf inst.b) .r11).1 size
        (isSignedOp inst.op) else []) s3 fun s4 =>
      s4.low W (if size < 4 then .r11 else (x64Use x (vregOf inst.b) .r11).1) =
        extended (isSignedOp inst.op) (s3.low size (x64Use x (vregOf inst.b) .r11).1) _ ∧
      Keeps [.r11] s3 s4 := by
    split_ifs with isNarrow
    · exact extendTo32_ok width _
    · have sameWidth : W = size := if_neg isNarrow
      refine .nil ⟨?_, .refl s3⟩
      rw [sameWidth]
      unfold extended
      split <;> simp
  refine divisor.mono fun s4 extendedB => ⟨?_, ?_, ?_⟩
  · rw [low_of_regs (extendedB.2.regs _ (by decide)), low_of_regs (usedB.2.regs _ (by decide)),
      extendedA.1, X64State.low, usedA.1]
  · rw [extendedB.1, X64State.low, usedB.1, contents_keeps locatedB keeps2]
  · exact keeps2.trans ((usedB.2.mono (by decide)).trans (extendedB.2.mono (by decide)))

/-- The code gives the quotient or remainder of the numbers, if the divisor isn't 0 and the quotient fits. -/
theorem divide_runs (locatedD : x.Located (vregOf inst.dst)) (locatedA : x.Located (vregOf inst.a))
    (locatedB : x.Located (vregOf inst.b)) (width : IsWidth size) (same : x64Width inst.type = size)
    (ne : (x.contents state (vregOf inst.b)).setWidth (8 * size) ≠ 0)
    (fits : WideQuotientFits inst.op size ((x.contents state (vregOf inst.a)).setWidth (8 * size))
      ((x.contents state (vregOf inst.b)).setWidth (8 * size))) :
    X64Runs symbolAddress (x64EmitDivide x inst) state
      (Defined x (vregOf inst.dst) (fun value => value.setWidth (8 * size) = dividedNumbers inst.op
        ((x.contents state (vregOf inst.a)).setWidth (8 * size))
        ((x.contents state (vregOf inst.b)).setWidth (8 * size))) state) := by
  obtain ⟨wide, small, narrow⟩ := wide_bounds width
  rw [x64EmitDivide_eq same]
  refine def_ok locatedD (.append (.append ((divideOperands_ok locatedA locatedB width).mono fun s4 operands => ?_)))
  obtain ⟨rax, holds, keeps4⟩ := operands
  refine (divideStep_ok s4 symbolAddress width ne fits _ (divisorReg_ne_rdx locatedB) rax holds).mono
    fun s6 divided => .single rfl ⟨?_, ?_⟩
  · rw [← low_setWidth _ narrow, low_setLow _ _ _ small]
    exact divided.1
  · have keeps6 : Keeps x64Scratch state s6 := keeps4.trans (divided.2.mono (by decide))
    exact (keeps_def keeps6 (List.Subset.refl _)).trans (.setLow s6 _ _ List.mem_cons_self)

theorem divide_ok (locatedD : x.Located (vregOf inst.dst)) (locatedA : x.Located (vregOf inst.a))
    (locatedB : x.Located (vregOf inst.b)) (width : IsWidth size)
    (same : x64Width inst.type = size)
    (isDivide : inst.op = .sdiv ∨ inst.op = .udiv ∨ inst.op = .srem ∨ inst.op = .urem)
    {result : BitVec (8 * size)} (defined : irBinary inst.op
      ((x.contents state (vregOf inst.a)).setWidth (8 * size))
      ((x.contents state (vregOf inst.b)).setWidth (8 * size)) = some result) :
    X64Runs symbolAddress (x64EmitDivide x inst) state
      (Defined x (vregOf inst.dst) (fun value => value.setWidth (8 * size) = result) state) := by
  obtain ⟨wide, small, narrow⟩ := wide_bounds width
  have pos : 0 < size := by rcases width with rfl | rfl | rfl | rfl <;> decide
  obtain ⟨ne, fits, rfl⟩ := irBinary_divides isDivide defined
  refine divide_runs locatedD locatedA locatedB width same ne fun signed => ?_
  obtain ⟨-, low, high⟩ := quotient_bounds (n := 8 * x64WideWidth size) (fits signed) (by omega) (by omega)
  exact ⟨low, high⟩

end Divide

end Saad
