import Saad.General.Stacked
import Saad.Std.Int32
import Saad.X64.Frame

/-! # The areas of a frame

`x64_layout_frame` counts the depth of the frame in an `int`. As long as the whole frame fits in one, its
areas lie below each other inside the frame; a frame of 2 GiB or more does not come out right.
-/

namespace Saad

open General

/-- Offsets from `rbp` as they are computed, with the wraps of an `int`. -/
structure X64IntFrame where
  savedOffset : ℕ → ℤ
  slotOffsets : List ℤ
  spillBase : ℤ
  frameSize : ℤ

/-- The division of C goes towards 0. -/
def alignToInt (value alignment : ℤ) : ℤ := (int32 (value + alignment - 1)).tdiv alignment * alignment

def layoutSlotsInt : ℤ → List IrSlot → ℤ × List ℤ
  | depth, [] => (depth, [])
  | depth, slot :: rest =>
    let align : ℕ := if slot.align > 16 then 16 else slot.align
    let depth := alignToInt (int32 (depth + slot.size)) align
    let (last, offsets) := layoutSlotsInt depth rest
    (last, int32 (-depth) :: offsets)

/-- The saved registers take a few hundred bytes, so their depth does not wrap. -/
def x64LayoutFrameInt (func : IrFunction) (ra : RegAllocResult) : X64IntFrame :=
  let saved := layoutGprs ra.usedCalleeSaved
  let slots := layoutSlotsInt saved.1 func.slots
  let depth := alignToInt slots.1 8
  let spillEnd := int32 (depth + int32 (8 * ra.spillSlotCount))
  let outgoing := if 0 ≤ maxArgs func then int32 (32 + 8 * (maxArgs func - 4).toNat) else 0
  { savedOffset := saved.2
    slotOffsets := slots.2
    spillBase := int32 (-int32 (depth + 8))
    frameSize := int32 (alignToInt spillEnd 16 + alignToInt outgoing 16) }

def X64IntFrame.spillOffset (frame : X64IntFrame) (spillSlot : ℕ) : ℤ :=
  int32 (frame.spillBase - int32 (spillSlot * 8))

section Areas

variable (func : IrFunction) (ra : RegAllocResult) (frame : X64IntFrame)

/-- The registers of a range that the prologue saves. -/
def savedRegs (start : ℕ) : List ℕ := (List.range' start 16).filter ra.usedCalleeSaved

def savedAreas (start size : ℕ) : List Area :=
  (savedRegs ra start).map fun reg => ⟨frame.savedOffset reg, size⟩

def slotAreas : List Area := (func.slots.zip frame.slotOffsets).map fun slot => ⟨slot.2, slot.1.size⟩

def spillAreas : List Area := (List.range ra.spillSlotCount).map fun slot => ⟨frame.spillOffset slot, 8⟩

/-- The saved xmm registers, the saved general registers, the IR slots and the spill slots. -/
def frameAreas : List Area :=
  savedAreas ra frame 16 16 ++ (savedAreas ra frame 0 8 ++ (slotAreas func frame ++ spillAreas ra frame))

end Areas

/-- The arguments of a call, or of the call of a C function that an instruction becomes. -/
def callArgs (inst : IrInst) : Option ℕ :=
  if inst.op = .call then some inst.call.args.length
  else if inst.op = .memcpy ∨ inst.op = .memset then some 3 else none

/-- The shadow space and the arguments on the stack, from `rsp` on. -/
def outgoingSize (args : ℕ) : ℕ := 32 + 8 * (args - 4)

/-- The areas are apart from each other and from the outgoing area of every call, and inside of the frame. -/
structure FrameRight (func : IrFunction) (ra : RegAllocResult) (frame : X64IntFrame) : Prop where
  apart : (frameAreas func ra frame).Pairwise Area.Apart
  inside : ∀ area ∈ frameAreas func ra frame, -frame.frameSize ≤ area.offset ∧ area.stop ≤ 0
  outgoing_inside : ∀ block ∈ func.blocks, ∀ inst ∈ block.insts, ∀ args, callArgs inst = some args →
    (outgoingSize args : ℤ) ≤ frame.frameSize
  outgoing_apart : ∀ block ∈ func.blocks, ∀ inst ∈ block.insts, ∀ args, callArgs inst = some args →
    ∀ area ∈ frameAreas func ra frame, Area.Apart area ⟨-frame.frameSize, outgoingSize args⟩
  xmm_aligned : ∀ reg ∈ savedRegs ra 16, 16 ∣ frame.savedOffset reg
  slot_aligned : ∀ (i : ℕ) (slot : IrSlot) (offset : ℤ), func.slots[i]? = some slot →
    frame.slotOffsets[i]? = some offset → ((min slot.align 16 : ℕ) : ℤ) ∣ offset
  frame_aligned : 16 ∣ frame.frameSize

section Align

variable {value alignment bound : ℕ}

theorem alignTo_le (dvd : alignment ∣ bound) (le : value ≤ bound) (pos : 0 < alignment) :
    alignTo value alignment ≤ bound := by
  obtain ⟨k, rfl⟩ := dvd
  rw [alignTo, Nat.mul_comm alignment k]
  refine Nat.mul_le_mul_right _ (Nat.lt_succ_iff.mp ((Nat.div_lt_iff_lt_mul pos).mpr ?_))
  rw [Nat.succ_mul, Nat.mul_comm k alignment]
  omega

theorem dvd_alignTo (value alignment : ℕ) : alignment ∣ alignTo value alignment := Dvd.intro_left _ rfl

/-- Where nothing wraps, the depth is aligned as it should be. -/
theorem alignToInt_of_fits (pos : 0 < alignment) (fits : value + alignment ≤ 2 ^ 31) :
    alignToInt value alignment = alignTo value alignment := by
  have cast : (value : ℤ) + alignment - 1 = (value + alignment - 1 : ℕ) := by omega
  rw [alignToInt, cast, int32_of_fits (by omega) (by omega), alignTo, ← Int.ofNat_tdiv]
  push_cast
  rfl

end Align

/-! ## Saved registers -/

section Saved

variable (next : ℕ → ℕ) (used : ℕ → Bool)

/-- Gives a register a place, if it is used, with the depth that is next after another. -/
def saveReg (state : ℕ × (ℕ → ℤ)) (reg : ℕ) : ℕ × (ℕ → ℤ) :=
  if used reg then (next state.1, setAt state.2 reg (-(next state.1 : ℕ))) else state

def saveRegs (regs : List ℕ) (state : ℕ × (ℕ → ℤ)) : ℕ × (ℕ → ℤ) := regs.foldl (saveReg next used) state

theorem layoutXmms_eq :
    layoutXmms used = saveRegs (fun depth => alignTo (depth + 16) 16) used (List.range' 16 16) (0, fun _ => 0) :=
  rfl

theorem layoutGprs_eq : layoutGprs used = saveRegs (· + 8) used (List.range' 0 16) (layoutXmms used) := rfl

variable {next used} {regs : List ℕ} {state : ℕ × (ℕ → ℤ)} {reg : ℕ}

theorem saveReg_of_used (isUsed : used reg = true) :
    saveReg next used state reg = (next state.1, setAt state.2 reg (-(next state.1 : ℕ))) := if_pos isUsed

theorem saveReg_of_not_used (notUsed : ¬ used reg = true) : saveReg next used state reg = state := if_neg notUsed

theorem saveRegs_of_notMem (notMem : reg ∉ regs) : (saveRegs next used regs state).2 reg = state.2 reg := by
  induction regs generalizing state with
  | nil => rfl
  | cons head rest ih =>
    obtain ⟨ne, notRest⟩ := not_or.mp (List.mem_cons.not.mp notMem)
    refine (ih notRest).trans ?_
    by_cases isUsed : used head = true
    · rw [saveReg_of_used isUsed]
      exact setAt_of_ne _ _ ne
    · rw [saveReg_of_not_used isUsed]

theorem saveRegs_head {head : ℕ} {rest : List ℕ} (notMem : head ∉ rest) (isUsed : used head = true) :
    (saveRegs next used (head :: rest) state).2 head = -(next state.1 : ℕ) := by
  refine (saveRegs_of_notMem notMem).trans ?_
  rw [saveReg_of_used isUsed]
  exact setAt_self ..

theorem saveRegs_depth_le {step : ℕ} (grows : ∀ depth, next depth ≤ depth + step) :
    (saveRegs next used regs state).1 ≤ state.1 + step * regs.length := by
  induction regs generalizing state with
  | nil => exact Nat.le_add_right _ _
  | cons head rest ih =>
    refine (@ih (saveReg next used state head)).trans ?_
    have := grows state.1
    rw [List.length_cons, Nat.mul_succ]
    by_cases isUsed : used head = true
    · rw [saveReg_of_used isUsed]
      omega
    · rw [saveReg_of_not_used isUsed]
      omega

/-- The registers come below each other. -/
theorem saveRegs_stacked {size : ℕ} (room : ∀ depth, depth + size ≤ next depth) (nodup : regs.Nodup) :
    Stacked (-state.1) ((regs.filter used).map fun reg => ⟨(saveRegs next used regs state).2 reg, size⟩)
      (-(saveRegs next used regs state).1) := by
  induction regs generalizing state with
  | nil => exact .nil (le_refl _)
  | cons head rest ih =>
    obtain ⟨notMem, nodup⟩ := List.nodup_cons.mp nodup
    have stacked := @ih (saveReg next used state head) nodup
    by_cases isUsed : used head = true
    · have := room state.1
      rw [saveReg_of_used isUsed] at stacked
      rw [List.filter_cons_of_pos isUsed, List.map_cons]
      refine .cons ?_ ?_
      · simp only [saveRegs_head notMem isUsed, Area.stop]
        omega
      · simp only [saveRegs_head notMem isUsed]
        rw [saveRegs, List.foldl_cons, saveReg_of_used isUsed]
        exact stacked
    · rw [saveReg_of_not_used isUsed] at stacked
      rw [List.filter_cons_of_neg isUsed, saveRegs, List.foldl_cons, saveReg_of_not_used isUsed]
      exact stacked

theorem saveRegs_dvd {size : ℕ} (aligned : ∀ depth, size ∣ next depth) (nodup : regs.Nodup)
    (member : reg ∈ regs.filter used) : (size : ℤ) ∣ (saveRegs next used regs state).2 reg := by
  induction regs generalizing state with
  | nil => exact absurd member List.not_mem_nil
  | cons head rest ih =>
    obtain ⟨notMem, nodup⟩ := List.nodup_cons.mp nodup
    obtain ⟨isMem, isUsed⟩ := List.mem_filter.mp member
    obtain rfl | inRest := List.mem_cons.mp isMem
    · rw [saveRegs_head notMem isUsed]
      exact Int.dvd_neg.mpr (Int.natCast_dvd_natCast.mpr (aligned _))
    · exact ih nodup (List.mem_filter.mpr ⟨inRest, isUsed⟩)

theorem layoutGprs_le (used : ℕ → Bool) : (layoutGprs used).1 ≤ 624 := by
  have xmms : (layoutXmms used).1 ≤ 0 + 31 * 16 := by
    rw [layoutXmms_eq]
    refine saveRegs_depth_le fun depth => ?_
    have := Nat.div_mul_le_self (depth + 16 + 16 - 1) 16
    rw [alignTo]
    omega
  have gprs : (layoutGprs used).1 ≤ (layoutXmms used).1 + 8 * 16 := by
    rw [layoutGprs_eq]
    exact saveRegs_depth_le fun depth => le_refl _
  omega

end Saved

/-! ## Slots -/

section Slots

variable {depth : ℕ} {slots : List IrSlot}

theorem slotAlign_pos (slot : IrSlot) : 0 < if slot.align > 16 then 16 else slot.align := by
  have := slot.align_pos
  split <;> omega

theorem slotAlign_le (slot : IrSlot) : (if slot.align > 16 then 16 else slot.align) ≤ 16 := by
  split <;> omega

theorem layoutSlots_stacked (depth : ℕ) (slots : List IrSlot) :
    Stacked (-depth) ((slots.zip (layoutSlots depth slots).2).map fun slot => ⟨slot.2, slot.1.size⟩)
      (-(layoutSlots depth slots).1) := by
  induction slots generalizing depth with
  | nil => exact .nil (le_refl _)
  | cons slot rest ih =>
    have := le_alignTo (depth + slot.size) (slotAlign_pos slot)
    refine .cons ?_ (ih _)
    simp only [Area.stop]
    omega

theorem layoutSlots_dvd (depth : ℕ) {i : ℕ} {slot : IrSlot} {offset : ℤ} (atI : slots[i]? = some slot)
    (placed : (layoutSlots depth slots).2[i]? = some offset) : ((min slot.align 16 : ℕ) : ℤ) ∣ offset := by
  induction slots generalizing depth i with
  | nil => cases atI
  | cons head rest ih =>
    cases i with
    | zero =>
      cases atI
      cases placed
      have align : (if slot.align > 16 then 16 else slot.align) = min slot.align 16 := by
        split <;> omega
      rw [align]
      exact Int.dvd_neg.mpr (Int.natCast_dvd_natCast.mpr (dvd_alignTo _ _))
    | succ i => exact ih _ atI placed

theorem layoutSlotsInt_of_fits (fits : (layoutSlots depth slots).1 + 16 ≤ 2 ^ 31) :
    layoutSlotsInt depth slots = (((layoutSlots depth slots).1 : ℤ), (layoutSlots depth slots).2) := by
  induction slots generalizing depth with
  | nil => rfl
  | cons slot rest ih =>
    have align := slotAlign_le slot
    have room := le_alignTo (depth + slot.size) (slotAlign_pos slot)
    have deeper := le_layoutSlots (alignTo (depth + slot.size) (if slot.align > 16 then 16 else slot.align)) rest
    simp only [layoutSlots] at fits
    have sum : int32 ((depth : ℤ) + slot.size) = (depth + slot.size : ℕ) := by
      rw [int32_of_fits (by omega) (by omega)]
      push_cast
      rfl
    simp only [layoutSlotsInt, layoutSlots, sum, alignToInt_of_fits (slotAlign_pos slot)
      (show depth + slot.size + (if slot.align > 16 then 16 else slot.align) ≤ 2 ^ 31 by omega), ih fits]
    rw [int32_of_fits (by omega) (by omega)]

end Slots

/-! ## Outgoing arguments -/

section Outgoing

variable {func : IrFunction} {inst : IrInst} {args : ℕ}

/-- One step of the scan over the calls. -/
def mostArgs (most : ℤ) (inst : IrInst) : ℤ :=
  let most := if inst.op = .call ∧ (inst.call.args.length : ℤ) > most then
    (inst.call.args.length : ℤ) else most
  if (inst.op = .memcpy ∨ inst.op = .memset) ∧ most < 3 then 3 else most

theorem mostArgs_of_call (most : ℤ) (called : callArgs inst = some args) : mostArgs most inst = max most args := by
  unfold callArgs at called
  split_ifs at called with isCall becomesCall
  · cases called
    simp only [mostArgs, isCall, true_and, reduceCtorEq, or_self, false_and, if_false]
    split <;> omega
  · cases called
    simp only [mostArgs, isCall, becomesCall, false_and, if_false, true_and]
    split <;> omega

theorem mostArgs_of_none (most : ℤ) (notCalled : callArgs inst = none) : mostArgs most inst = most := by
  unfold callArgs at notCalled
  split_ifs at notCalled with isCall becomesCall
  simp only [mostArgs, isCall, becomesCall, false_and, if_false]

theorem foldl_mostArgs (insts : List IrInst) (most : ℤ) :
    most ≤ insts.foldl mostArgs most ∧
    (∀ inst ∈ insts, ∀ args, callArgs inst = some args → (args : ℤ) ≤ insts.foldl mostArgs most) ∧
    (insts.foldl mostArgs most = most ∨
      ∃ inst ∈ insts, ∃ args : ℕ, callArgs inst = some args ∧ insts.foldl mostArgs most = args) := by
  induction insts generalizing most with
  | nil => exact ⟨le_refl _, fun _ member => absurd member List.not_mem_nil, .inl rfl⟩
  | cons head rest ih =>
    obtain ⟨above, all, attained⟩ := ih (mostArgs most head)
    rw [List.foldl_cons]
    cases called : callArgs head with
    | none =>
      rw [mostArgs_of_none most called] at above all attained ⊢
      refine ⟨above, fun inst member args isCall => ?_, attained.imp_right ?_⟩
      · obtain rfl | member := List.mem_cons.mp member
        · rw [called] at isCall
          cases isCall
        · exact all inst member args isCall
      · rintro ⟨inst, member, args, isCall, same⟩
        exact ⟨inst, List.mem_cons_of_mem _ member, args, isCall, same⟩
    | some count =>
      rw [mostArgs_of_call most called] at above all attained ⊢
      refine ⟨by omega, fun inst member args isCall => ?_, ?_⟩
      · obtain rfl | member := List.mem_cons.mp member
        · cases called.symm.trans isCall
          omega
        · exact all inst member args isCall
      · obtain same | ⟨inst, member, args, isCall, same⟩ := attained
        · by_cases more : most ≤ count
          · exact .inr ⟨head, List.mem_cons_self, count, called, by omega⟩
          · exact .inl (by omega)
        · exact .inr ⟨inst, List.mem_cons_of_mem _ member, args, isCall, same⟩

/-- The bytes that the scan finds for the outgoing arguments. -/
def outgoingBytes (func : IrFunction) : ℕ := if 0 ≤ maxArgs func then 32 + 8 * (maxArgs func - 4).toNat else 0

theorem outgoingSize_le {block : IrBlock} (inBlocks : block ∈ func.blocks) (inBlock : inst ∈ block.insts)
    (called : callArgs inst = some args) : outgoingSize args ≤ outgoingBytes func := by
  have most : (args : ℤ) ≤ maxArgs func :=
    (foldl_mostArgs _ (-1)).2.1 inst (List.mem_flatMap.mpr ⟨block, inBlocks, inBlock⟩) args called
  rw [outgoingSize, outgoingBytes, if_pos (by omega)]
  omega

/-- Some call needs all of the outgoing area. -/
theorem exists_outgoingSize (some_ : outgoingBytes func ≠ 0) :
    ∃ block ∈ func.blocks, ∃ inst ∈ block.insts, ∃ args, callArgs inst = some args ∧
      outgoingSize args = outgoingBytes func := by
  unfold outgoingBytes at some_ ⊢
  split_ifs at some_ ⊢ with called
  · obtain same | ⟨inst, member, args, isCall, same⟩ :=
      (foldl_mostArgs (func.blocks.flatMap IrBlock.insts) (-1)).2.2
    · have : maxArgs func = -1 := same
      omega
    · obtain ⟨block, inBlocks, inBlock⟩ := List.mem_flatMap.mp member
      have most : maxArgs func = args := same
      refine ⟨block, inBlocks, inst, inBlock, args, isCall, ?_⟩
      rw [outgoingSize, most]
      omega
  · exact absurd rfl some_

end Outgoing

/-! ## The frame -/

section Frame

variable {func : IrFunction} {ra : RegAllocResult}

/-- The depth where the slots end. -/
def slotsEnd (func : IrFunction) (ra : RegAllocResult) : ℕ :=
  (layoutSlots (layoutGprs ra.usedCalleeSaved).1 func.slots).1

/-- The depth where the spill slots end. -/
def spillsEnd (func : IrFunction) (ra : RegAllocResult) : ℕ :=
  alignTo (slotsEnd func ra) 8 + 8 * ra.spillSlotCount

theorem frameSize_eq (func : IrFunction) (ra : RegAllocResult) :
    (x64LayoutFrame func ra).frameSize = alignTo (spillsEnd func ra) 16 + alignTo (outgoingBytes func) 16 := rfl

theorem frameSizeInt_eq
    (start : alignToInt (layoutSlotsInt (layoutGprs ra.usedCalleeSaved).1 func.slots).1 8 =
      alignTo (slotsEnd func ra) 8)
    (spills : spillsEnd func ra ≤ 2 ^ 31 - 16) (outgoing : outgoingBytes func ≤ 2 ^ 31 - 16) :
    (x64LayoutFrameInt func ra).frameSize =
      int32 (alignTo (spillsEnd func ra) 16 + alignTo (outgoingBytes func) 16 : ℕ) := by
  have spillFits : spillsEnd func ra + 16 ≤ 2 ^ 31 := by omega
  have outFits : outgoingBytes func + 16 ≤ 2 ^ 31 := by omega
  have spillsSum : spillsEnd func ra = alignTo (slotsEnd func ra) 8 + 8 * ra.spillSlotCount := rfl
  have spillInt : int32 ((alignTo (slotsEnd func ra) 8 : ℤ) + int32 (8 * ra.spillSlotCount)) =
      (spillsEnd func ra : ℕ) := by
    have product : int32 (8 * (ra.spillSlotCount : ℤ)) = 8 * (ra.spillSlotCount : ℤ) :=
      int32_of_fits (by omega) (by omega)
    rw [product, int32_of_fits (by omega) (by omega)]
    omega
  have outInt : (if 0 ≤ maxArgs func then int32 (32 + 8 * ((maxArgs func - 4).toNat : ℤ)) else 0) =
      (outgoingBytes func : ℕ) := by
    by_cases called : 0 ≤ maxArgs func
    · have bytes : outgoingBytes func = 32 + 8 * (maxArgs func - 4).toNat := if_pos called
      rw [if_pos called, bytes, int32_of_fits (by omega) (by omega)]
      push_cast
      rfl
    · rw [if_neg called, outgoingBytes, if_neg called]
      rfl
  have spillAlign := alignToInt_of_fits (show 0 < 16 by decide) spillFits
  have outAlign := alignToInt_of_fits (show 0 < 16 by decide) outFits
  simp only [x64LayoutFrameInt, start]
  rw [spillInt, outInt]
  push_cast at spillAlign outAlign ⊢
  rw [spillAlign, outAlign]

/-- What the layout comes to when no number gets too big for an `int`. -/
structure LaidOut (func : IrFunction) (ra : RegAllocResult) (frame : X64IntFrame) : Prop where
  saved : frame.savedOffset = (layoutGprs ra.usedCalleeSaved).2
  slots : frame.slotOffsets = (layoutSlots (layoutGprs ra.usedCalleeSaved).1 func.slots).2
  spills : ∀ slot < ra.spillSlotCount, frame.spillOffset slot = -(alignTo (slotsEnd func ra) 8 + 8 * slot + 8 : ℕ)
  size : frame.frameSize = (x64LayoutFrame func ra).frameSize

theorem laidOut_of_fits (fits : (x64LayoutFrame func ra).frameSize < 2 ^ 31) :
    LaidOut func ra (x64LayoutFrameInt func ra) := by
  rw [frameSize_eq] at fits
  have sixteen := dvd_alignTo (spillsEnd func ra) 16
  have sixteenOut := dvd_alignTo (outgoingBytes func) 16
  have spills := le_alignTo (spillsEnd func ra) (show 0 < 16 by decide)
  have outgoing := le_alignTo (outgoingBytes func) (show 0 < 16 by decide)
  have spillFits : spillsEnd func ra + 16 ≤ 2 ^ 31 := by omega
  have outFits : outgoingBytes func + 16 ≤ 2 ^ 31 := by omega
  have slots := le_alignTo (slotsEnd func ra) (show 0 < 8 by decide)
  have spillsSum : spillsEnd func ra = alignTo (slotsEnd func ra) 8 + 8 * ra.spillSlotCount := rfl
  have slotsInt := @layoutSlotsInt_of_fits (layoutGprs ra.usedCalleeSaved).1 func.slots
    (show slotsEnd func ra + 16 ≤ 2 ^ 31 by omega)
  have start : alignToInt (layoutSlotsInt (layoutGprs ra.usedCalleeSaved).1 func.slots).1 8 =
      alignTo (slotsEnd func ra) 8 := by
    rw [slotsInt]
    exact alignToInt_of_fits (by decide) (show slotsEnd func ra + 8 ≤ 2 ^ 31 by omega)
  constructor
  · rfl
  · exact congrArg Prod.snd slotsInt
  · intro slot lt
    simp only [X64IntFrame.spillOffset, x64LayoutFrameInt, start]
    rw [int32_of_fits (n := (slot : ℤ) * 8) (by omega) (by omega), int32_of_fits (n := _ + 8) (by omega) (by omega),
      int32_of_fits (n := -_) (by omega) (by omega), int32_of_fits (by omega) (by omega)]
    omega
  · rw [frameSizeInt_eq start (by omega) (by omega), frameSize_eq]
    exact int32_of_fits (by omega) (by omega)

/-- The areas lie below each other. -/
theorem LaidOut.stacked {frame : X64IntFrame} (laid : LaidOut func ra frame) :
    Stacked 0 (frameAreas func ra frame) (-spillsEnd func ra) := by
  have xmms : Stacked 0 (savedAreas ra frame 16 16) (-(layoutXmms ra.usedCalleeSaved).1) := by
    have places : savedAreas ra frame 16 16 =
        (savedRegs ra 16).map fun reg => ⟨(layoutXmms ra.usedCalleeSaved).2 reg, 16⟩ := by
      refine List.map_congr_left fun reg member => ?_
      have bounds := List.mem_range'_1.mp (List.mem_filter.mp member).1
      rw [laid.saved, layoutGprs_eq, saveRegs_of_notMem fun inGprs => ?_]
      have := List.mem_range'_1.mp inGprs
      omega
    rw [places, layoutXmms_eq]
    refine @saveRegs_stacked _ _ _ (0, fun _ => 0) 16 (fun depth => ?_) List.nodup_range'
    exact le_alignTo _ (by decide)
  have gprs : Stacked (-(layoutXmms ra.usedCalleeSaved).1) (savedAreas ra frame 0 8)
      (-(layoutGprs ra.usedCalleeSaved).1) := by
    rw [savedAreas, laid.saved, layoutGprs_eq]
    exact saveRegs_stacked (fun depth => le_refl _) List.nodup_range'
  have slots : Stacked (-(layoutGprs ra.usedCalleeSaved).1) (slotAreas func frame) (-slotsEnd func ra) := by
    rw [slotAreas, laid.slots]
    exact layoutSlots_stacked _ _
  have spills : ∀ count ≤ ra.spillSlotCount, Stacked (-alignTo (slotsEnd func ra) 8)
      ((List.range count).map fun slot => ⟨frame.spillOffset slot, 8⟩)
      (-(alignTo (slotsEnd func ra) 8 + 8 * count : ℕ)) := by
    intro count le
    induction count with
    | zero => exact .nil (by omega)
    | succ count ih =>
      rw [List.range_succ, List.map_append]
      refine (ih (by omega)).append (.cons ?_ (.nil ?_))
      · simp only [Area.stop, laid.spills count (by omega)]
        omega
      · simp only [laid.spills count (by omega)]
        omega
  have room := le_alignTo (slotsEnd func ra) (show 0 < 8 by decide)
  exact xmms.append (gprs.append (slots.append ((spills _ (le_refl _)).weaken (by omega))))

/-- A frame that fits in an `int` is right. -/
theorem LaidOut.right {frame : X64IntFrame} (laid : LaidOut func ra frame) : FrameRight func ra frame := by
  have size := laid.size
  rw [frameSize_eq] at size
  have room := le_alignTo (spillsEnd func ra) (show 0 < 16 by decide)
  have outgoing := le_alignTo (outgoingBytes func) (show 0 < 16 by decide)
  have inside {area : Area} (member : area ∈ frameAreas func ra frame) := laid.stacked.inside member
  constructor
  · exact laid.stacked.apart
  · intro area member
    have := inside member
    exact ⟨by omega, this.2⟩
  · intro block inBlocks inst inBlock args called
    have := outgoingSize_le inBlocks inBlock called
    omega
  · intro block inBlocks inst inBlock args called area member
    have needs := outgoingSize_le inBlocks inBlock called
    have low := (inside member).1
    refine .inr ?_
    simp only [Area.stop]
    omega
  · intro reg member
    have bounds := List.mem_range'_1.mp (List.mem_filter.mp member).1
    rw [laid.saved, layoutGprs_eq, saveRegs_of_notMem fun inGprs => ?_, layoutXmms_eq]
    · exact saveRegs_dvd (fun depth => dvd_alignTo _ _) List.nodup_range' member
    · have := List.mem_range'_1.mp inGprs
      omega
  · intro i slot offset atI placed
    rw [laid.slots] at placed
    exact layoutSlots_dvd _ atI placed
  · rw [size]
    exact Int.natCast_dvd_natCast.mpr (Nat.dvd_add (dvd_alignTo _ _) (dvd_alignTo _ _))

end Frame

/-! ## Frames that do not fit -/

section Wrapped

theorem int32_of_high {n : ℤ} (low : 2 ^ 31 ≤ n) (high : n < 2 ^ 32 + 2 ^ 31) : int32 n = n - 2 ^ 32 := by
  have shifted : int32 n = int32 (n - 2 ^ 32) := by
    have same := Int.sub_bmod_right n (2 ^ 32)
    push_cast at same
    exact same.symm
  rw [shifted, int32_of_fits (by omega) (by omega)]

/-- Where the sum in front of the division is negative, so is what comes out of it. -/
theorem alignToInt_negative {value : ℤ} {alignment : ℕ} (pos : 0 < alignment)
    (negative : int32 (value + alignment - 1) < 0) :
    alignToInt value alignment ≤ 0 ∧ -2 ^ 31 ≤ alignToInt value alignment ∧
      alignToInt value alignment < int32 (value + alignment - 1) + alignment := by
  obtain ⟨n, isNeg⟩ : ∃ n : ℕ, int32 (value + alignment - 1) = -(n : ℤ) :=
    ⟨(-int32 (value + alignment - 1)).toNat, by omega⟩
  have least := (int32_range (value + alignment - 1)).1
  have result : alignToInt value alignment = -((n / alignment * alignment : ℕ) : ℤ) := by
    rw [alignToInt, isNeg, Int.neg_tdiv, ← Int.ofNat_tdiv]
    push_cast
    rw [neg_mul]
  have below := Nat.div_mul_le_self n alignment
  have above := Nat.lt_div_mul_add (a := n) pos
  omega

/-- A depth that is not positive comes out as an offset that is not negative, unless it is the least `int`. -/
theorem int32_neg_of_low {depth frameSize : ℤ} (least : -2 ^ 31 ≤ depth) (low : -frameSize ≤ int32 (-depth))
    (small : frameSize < 2 ^ 31) (high : depth ≤ 0) : int32 (-depth) = -depth := by
  by_cases lowest : depth = -2 ^ 31
  · rw [lowest] at low
    have : int32 (-(-2 ^ 31)) = -2 ^ 31 := by decide
    omega
  · exact int32_of_fits (by omega) (by omega)

/-- A slot that comes out inside of the frame was laid out without a wrap. -/
theorem slotDepth_of_inside {depth size alignment : ℕ} {frameSize : ℤ} (shallow : depth < 2 ^ 31)
    (pos : 0 < alignment) (le : alignment ≤ 16) (small : frameSize < 2 ^ 31)
    (low : -frameSize ≤ int32 (-alignToInt (int32 (depth + size)) alignment))
    (high : int32 (-alignToInt (int32 (depth + size)) alignment) + size ≤ 0) :
    depth + size + alignment ≤ 2 ^ 31 := by
  by_contra deep
  by_cases fits : depth + size < 2 ^ 31
  · have plain : int32 ((depth : ℤ) + size) = (depth : ℤ) + size := int32_of_fits (by omega) (by omega)
    have sum : int32 ((depth : ℤ) + size + alignment - 1) = (depth : ℤ) + size + alignment - 1 - 2 ^ 32 :=
      int32_of_high (by omega) (by omega)
    rw [plain] at low high
    obtain ⟨_, least, above⟩ := alignToInt_negative pos (show int32 ((depth : ℤ) + size + alignment - 1) < 0 by omega)
    have back := int32_neg_of_low least low small (by omega)
    omega
  · have wrapped : int32 ((depth : ℤ) + size) = (depth : ℤ) + size - 2 ^ 32 :=
      int32_of_high (by omega) (by omega)
    rw [wrapped] at low high
    have sum : int32 ((depth : ℤ) + size - 2 ^ 32 + alignment - 1) = (depth : ℤ) + size - 2 ^ 32 + alignment - 1 :=
      int32_of_fits (by omega) (by omega)
    by_cases negative : int32 ((depth : ℤ) + size - 2 ^ 32 + alignment - 1) < 0
    · obtain ⟨notPos, least, above⟩ := alignToInt_negative pos negative
      have back := int32_neg_of_low least low small (by omega)
      omega
    · have zero : alignToInt ((depth : ℤ) + size - 2 ^ 32) alignment = 0 := by
        rw [alignToInt, sum, Int.tdiv_eq_zero_of_lt (by omega) (by omega), zero_mul]
      have back := int32_neg_of_low (by omega) low small (by omega)
      omega

/-- When all slots come out inside of the frame, none of them wrapped. -/
theorem slotsEnd_le_of_inside {depth : ℕ} {slots : List IrSlot} {frameSize : ℤ} (shallow : depth < 2 ^ 31)
    (small : frameSize < 2 ^ 31)
    (inside : ∀ slot ∈ slots.zip (layoutSlotsInt depth slots).2,
      -frameSize ≤ slot.2 ∧ slot.2 + slot.1.size ≤ 0) :
    (layoutSlotsInt depth slots).1 = ((layoutSlots depth slots).1 : ℤ) ∧
      (slots ≠ [] → ((layoutSlots depth slots).1 : ℤ) ≤ frameSize) := by
  induction slots generalizing depth with
  | nil => exact ⟨rfl, fun nonempty => absurd rfl nonempty⟩
  | cons slot rest ih =>
    have pos := slotAlign_pos slot
    have le := slotAlign_le slot
    simp only [layoutSlotsInt, List.zip_cons_cons] at inside
    obtain ⟨low, high⟩ := inside _ List.mem_cons_self
    dsimp only at low high
    have fits := slotDepth_of_inside shallow pos le small low high
    have sum : int32 ((depth : ℤ) + slot.size) = (depth + slot.size : ℕ) := by
      rw [int32_of_fits (by omega) (by omega)]
      push_cast
      rfl
    have aligned : alignToInt (int32 ((depth : ℤ) + slot.size)) (if slot.align > 16 then 16 else slot.align : ℕ) =
        alignTo (depth + slot.size) (if slot.align > 16 then 16 else slot.align) := by
      rw [sum]
      exact alignToInt_of_fits pos fits
    have upper : alignTo (depth + slot.size) (if slot.align > 16 then 16 else slot.align) < 2 ^ 31 := by
      have := Nat.div_mul_le_self (depth + slot.size + (if slot.align > 16 then 16 else slot.align) - 1)
        (if slot.align > 16 then 16 else slot.align)
      rw [alignTo]
      omega
    simp only [layoutSlotsInt, layoutSlots, aligned] at inside ⊢
    rw [aligned] at low
    obtain ⟨same, bounded⟩ := ih upper fun entry member => inside entry (List.mem_cons_of_mem _ member)
    refine ⟨same, fun _ => ?_⟩
    cases rest with
    | nil =>
      rw [int32_of_fits (by omega) (by omega)] at low
      simp only [layoutSlots]
      omega
    | cons second rest => exact bounded (List.cons_ne_nil _ _)

/-- A right frame has no spill slot that wrapped. -/
theorem spillsEnd_le_of_right {start count : ℕ} {frame : X64IntFrame} (small : frame.frameSize ≤ 2 ^ 31 - 16)
    (first : start + 8 ≤ 2 ^ 31) (base : frame.spillBase = -(start + 8 : ℕ))
    (inside : ∀ slot < count, -frame.frameSize ≤ frame.spillOffset slot ∧ frame.spillOffset slot + 8 ≤ 0) :
    count = 0 ∨ ((start + 8 * count : ℕ) : ℤ) ≤ frame.frameSize := by
  induction count with
  | zero => exact .inl rfl
  | succ count ih =>
    have before := ih fun slot lt => inside slot (by omega)
    obtain ⟨low, high⟩ := inside count (by omega)
    have offset : frame.spillOffset count = -(start + 8 * count + 8 : ℕ) := by
      have small : (count : ℤ) * 8 < 2 ^ 31 := by omega
      have product : int32 ((count : ℤ) * 8) = (count : ℤ) * 8 := int32_of_fits (by omega) small
      rw [X64IntFrame.spillOffset, base, product, int32_of_fits (by omega) (by omega)]
      omega
    omega

theorem fits_of_right (right : FrameRight func ra (x64LayoutFrameInt func ra)) :
    (x64LayoutFrame func ra).frameSize < 2 ^ 31 := by
  have small : (x64LayoutFrameInt func ra).frameSize < 2 ^ 31 := (int32_range _).2
  obtain ⟨k, sixteens⟩ := right.frame_aligned
  have saved := layoutGprs_le ra.usedCalleeSaved
  have below : (x64LayoutFrameInt func ra).frameSize ≤ 2 ^ 31 - 16 := by omega
  obtain ⟨slotsSame, slotsLe⟩ := @slotsEnd_le_of_inside (layoutGprs ra.usedCalleeSaved).1 func.slots
    (x64LayoutFrameInt func ra).frameSize (by omega) small fun slot member => by
      refine right.inside ⟨slot.2, slot.1.size⟩ ?_
      refine List.mem_append_right _ (List.mem_append_right _ (List.mem_append_left _ ?_))
      exact List.mem_map.mpr ⟨slot, member, rfl⟩
  have slots : slotsEnd func ra ≤ 2 ^ 31 - 16 := by
    by_cases none : func.slots = []
    · rw [slotsEnd, none]
      exact saved.trans (by decide)
    · have := slotsLe none
      rw [slotsEnd]
      omega
  have start : alignTo (slotsEnd func ra) 8 ≤ 2 ^ 31 - 16 := alignTo_le (by decide) slots (by decide)
  have startInt : alignToInt (layoutSlotsInt (layoutGprs ra.usedCalleeSaved).1 func.slots).1 8 =
      alignTo (slotsEnd func ra) 8 := by
    rw [slotsSame]
    exact alignToInt_of_fits (by decide) (show slotsEnd func ra + 8 ≤ 2 ^ 31 by omega)
  have base : (x64LayoutFrameInt func ra).spillBase = -(alignTo (slotsEnd func ra) 8 + 8 : ℕ) := by
    simp only [x64LayoutFrameInt, startInt]
    have deeper : int32 ((alignTo (slotsEnd func ra) 8 : ℤ) + 8) = (alignTo (slotsEnd func ra) 8 : ℤ) + 8 :=
      int32_of_fits (by omega) (by omega)
    rw [deeper, int32_of_fits (by omega) (by omega)]
    omega
  have spills : spillsEnd func ra ≤ 2 ^ 31 - 16 := by
    have inside := @spillsEnd_le_of_right (alignTo (slotsEnd func ra) 8) ra.spillSlotCount
      (x64LayoutFrameInt func ra) below (by omega) base fun slot lt => by
        refine right.inside ⟨(x64LayoutFrameInt func ra).spillOffset slot, 8⟩ ?_
        refine List.mem_append_right _ (List.mem_append_right _ (List.mem_append_right _ ?_))
        exact List.mem_map.mpr ⟨slot, List.mem_range.mpr lt, rfl⟩
    rw [spillsEnd]
    omega
  have called : outgoingBytes func ≠ 0 →
      32 ≤ outgoingBytes func ∧ (outgoingBytes func : ℤ) ≤ (x64LayoutFrameInt func ra).frameSize := by
    intro some_
    obtain ⟨block, inBlocks, inst, inBlock, args, isCall, same⟩ := exists_outgoingSize some_
    rw [← same]
    exact ⟨Nat.le_add_right _ _, right.outgoing_inside block inBlocks inst inBlock args isCall⟩
  have outgoing : outgoingBytes func ≤ 2 ^ 31 - 16 := by omega
  have size : (x64LayoutFrameInt func ra).frameSize =
      int32 (alignTo (spillsEnd func ra) 16 + alignTo (outgoingBytes func) 16 : ℕ) :=
    frameSizeInt_eq startInt spills outgoing
  have spillsAligned : alignTo (spillsEnd func ra) 16 ≤ 2 ^ 31 - 16 := alignTo_le (by decide) spills (by decide)
  have outgoingAligned : alignTo (outgoingBytes func) 16 ≤ 2 ^ 31 - 16 := alignTo_le (by decide) outgoing (by decide)
  rw [frameSize_eq]
  by_contra tooBig
  have some_ : outgoingBytes func ≠ 0 := by
    intro none
    rw [none] at tooBig
    have zero : alignTo 0 16 = 0 := by decide
    omega
  rw [int32_of_high (by omega) (by omega)] at size
  have := called some_
  omega

/-- The frame comes out right exactly when its areas, each aligned, take less than 2 GiB together. -/
theorem frameRight_iff_fits (func : IrFunction) (ra : RegAllocResult) :
    FrameRight func ra (x64LayoutFrameInt func ra) ↔ (x64LayoutFrame func ra).frameSize < 2 ^ 31 :=
  ⟨fits_of_right, fun fits => (laidOut_of_fits fits).right⟩

/-- A function with two local arrays of 1.5 GB. -/
def hugeLocals : IrFunction where
  slots := [{ size := 1500000000, align := 1 }, { size := 1500000000, align := 1 }]
  blocks := [{ id := 0, term := .ret none }]

theorem hugeLocals_not_right :
    ¬ ∀ (func : IrFunction), FrameRight func (regallocFunction func x64Target)
      (x64LayoutFrameInt func (regallocFunction func x64Target)) := by
  intro claim
  have fits := fits_of_right (claim hugeLocals)
  have slots : 3000000000 ≤ slotsEnd hugeLocals (regallocFunction hugeLocals x64Target) := by decide +kernel
  have room := le_alignTo (slotsEnd hugeLocals (regallocFunction hugeLocals x64Target)) (show 0 < 8 by decide)
  have all := le_alignTo (spillsEnd hugeLocals (regallocFunction hugeLocals x64Target)) (show 0 < 16 by decide)
  rw [frameSize_eq] at fits
  have sum : alignTo (slotsEnd hugeLocals (regallocFunction hugeLocals x64Target)) 8 ≤
      spillsEnd hugeLocals (regallocFunction hugeLocals x64Target) := Nat.le_add_right _ _
  omega

end Wrapped

end Saad
