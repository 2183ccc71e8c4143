import Mathlib.Tactic.Abel
import Saad.Regalloc.Allocation
import Saad.X64.Machine

/-! # The frame of a function

`x64LayoutFrame` places the saved registers, the IR slots and the spill slots below `rbp`, in this
order. A spill slot shares no byte with another spill slot or with an IR slot.
-/

namespace Saad

open General

/-- Offsets from `rbp`. -/
structure X64Frame where
  savedOffset : ℕ → ℤ
  slotOffsets : List ℤ
  spillBase : ℤ
  frameSize : ℕ

def alignTo (value alignment : ℕ) : ℕ := (value + alignment - 1) / alignment * alignment

section Layout

/-- Room for the callee-saved xmm registers that are used: the depth and the offsets. -/
def layoutXmms (usedCalleeSaved : ℕ → Bool) : ℕ × (ℕ → ℤ) :=
  (List.range' 16 16).foldl (fun (depth, saved) reg =>
    if usedCalleeSaved reg then
      let depth := alignTo (depth + 16) 16
      (depth, setAt saved reg (-depth))
    else (depth, saved)) (0, fun _ => 0)

/-- Room for the callee-saved general registers, below the xmm registers. -/
def layoutGprs (usedCalleeSaved : ℕ → Bool) : ℕ × (ℕ → ℤ) :=
  (List.range 16).foldl (fun (depth, saved) reg =>
    if usedCalleeSaved reg then (depth + 8, setAt saved reg (-(depth + 8 : ℕ)))
    else (depth, saved)) (layoutXmms usedCalleeSaved)

/-- The depth below the slots, and the offset of each slot. -/
def layoutSlots : ℕ → List IrSlot → ℕ × List ℤ
  | depth, [] => (depth, [])
  | depth, slot :: rest =>
    let align := if slot.align > 16 then 16 else slot.align
    let depth := alignTo (depth + slot.size) align
    let (last, offsets) := layoutSlots depth rest
    (last, -depth :: offsets)

/-- The most arguments that any call of the function passes. -/
def maxArgs (func : IrFunction) : ℤ :=
  (func.blocks.flatMap IrBlock.insts).foldl (fun most inst =>
    let most := if inst.op = .call ∧ (inst.call.args.length : ℤ) > most then
      (inst.call.args.length : ℤ) else most
    if (inst.op = .memcpy ∨ inst.op = .memset) ∧ most < 3 then 3 else most) (-1)

def x64LayoutFrame (func : IrFunction) (ra : RegAllocResult) : X64Frame :=
  let saved := layoutGprs ra.usedCalleeSaved
  let slots := layoutSlots saved.1 func.slots
  let depth := alignTo slots.1 8
  let outgoing := if 0 ≤ maxArgs func then 32 + 8 * (maxArgs func - 4).toNat else 0
  { savedOffset := saved.2
    slotOffsets := slots.2
    spillBase := -(depth + 8 : ℕ)
    frameSize := alignTo (depth + 8 * ra.spillSlotCount) 16 + alignTo outgoing 16 }

end Layout

/-- What the emitter of a function knows. The frame size is an `int`. -/
structure X64Emitter where
  globals : List IrGlobal
  func : IrFunction
  ra : RegAllocResult
  fits : (x64LayoutFrame func ra).frameSize < 2 ^ 31

namespace X64Emitter

variable (x : X64Emitter)

def frame : X64Frame := x64LayoutFrame x.func x.ra

/-- The depth of the frame above the spill slots. -/
def spillDepth : ℕ := alignTo (layoutSlots (layoutGprs x.ra.usedCalleeSaved).1 x.func.slots).1 8

end X64Emitter

def x64SpillOffset (x : X64Emitter) (spillSlot : ℕ) : ℤ := x.frame.spillBase - spillSlot * 8

section Layout

theorem le_alignTo (value : ℕ) {alignment : ℕ} (pos : 0 < alignment) :
    value ≤ alignTo value alignment := by
  unfold alignTo
  have := Nat.div_add_mod' (value + alignment - 1) alignment
  have := Nat.mod_lt (value + alignment - 1) pos
  omega

theorem le_layoutSlots (depth : ℕ) (slots : List IrSlot) : depth ≤ (layoutSlots depth slots).1 := by
  induction slots generalizing depth with
  | nil => exact le_rfl
  | cons slot rest ih =>
    simp only [layoutSlots]
    have positive : 0 < if slot.align > 16 then 16 else slot.align := by
      split
      · decide
      · exact slot.align_pos
    have := le_alignTo (depth + slot.size) positive
    exact le_trans (by omega) (ih _)

/-- A slot lies between the depth where the slots start and the one where they end. -/
theorem layoutSlots_bounds (depth : ℕ) (slots : List IrSlot) {i : ℕ} {slot : IrSlot} {offset : ℤ}
    (atI : slots[i]? = some slot) (placed : (layoutSlots depth slots).2[i]? = some offset) :
    -((layoutSlots depth slots).1 : ℤ) ≤ offset ∧ offset + slot.size ≤ -(depth : ℤ) := by
  induction slots generalizing depth i with
  | nil => simp at atI
  | cons head rest ih =>
    simp only [layoutSlots] at placed ⊢
    have positive : 0 < if head.align > 16 then 16 else head.align := by
      split
      · decide
      · exact head.align_pos
    have aligned := le_alignTo (depth + head.size) positive
    have lower := le_layoutSlots
      (alignTo (depth + head.size) (if head.align > 16 then 16 else head.align)) rest
    cases i with
    | zero =>
      simp only [List.getElem?_cons_zero, Option.some.injEq] at atI placed
      subst atI placed
      exact ⟨by omega, by omega⟩
    | succ i =>
      have := ih _ atI placed
      exact ⟨this.1, by omega⟩

variable {x : X64Emitter}

theorem spillOffset_eq (spillSlot : ℕ) :
    x64SpillOffset x spillSlot = -(x.spillDepth + 8 * spillSlot + 8 : ℕ) := by
  simp only [x64SpillOffset, X64Emitter.frame, x64LayoutFrame, X64Emitter.spillDepth]
  omega

theorem spillDepth_le : x.spillDepth + 8 * x.ra.spillSlotCount ≤ x.frame.frameSize := by
  have := le_alignTo (x.spillDepth + 8 * x.ra.spillSlotCount) (show 0 < 16 by decide)
  simp only [X64Emitter.frame, x64LayoutFrame]
  exact le_trans this (Nat.le_add_right _ _)

/-- The slots of the program are above the spill slots. -/
theorem slotOffset_bounds {i : ℕ} {slot : IrSlot} {offset : ℤ}
    (atI : x.func.slots[i]? = some slot) (placed : x.frame.slotOffsets[i]? = some offset) :
    -(x.spillDepth : ℤ) ≤ offset ∧ offset + slot.size ≤ 0 := by
  have bounds := layoutSlots_bounds _ _ atI placed
  have := le_alignTo (layoutSlots (layoutGprs x.ra.usedCalleeSaved).1 x.func.slots).1
    (show 0 < 8 by decide)
  simp only [X64Emitter.spillDepth]
  omega

end Layout

/-- Offsets from one base that are a small distance apart are different addresses. -/
theorem not_inside_of_offset {base : BitVec 64} {offset other : ℤ} {n : ℕ}
    (apart : other < offset ∨ offset + n ≤ other) (low : offset - other < 2 ^ 63)
    (high : other - offset < 2 ^ 63) (small : n ≤ 2 ^ 62) :
    ¬ Inside (base + BitVec.ofInt 64 offset) n (base + BitVec.ofInt 64 other) := by
  unfold Inside
  have difference : base + BitVec.ofInt 64 other - (base + BitVec.ofInt 64 offset) =
      BitVec.ofInt 64 (other - offset) := by
    rw [add_sub_add_left_eq_sub, sub_eq_add_neg other, BitVec.ofInt_add, BitVec.ofInt_neg,
      ← sub_eq_add_neg]
  rw [difference, BitVec.toNat_ofInt]
  omega

theorem offset_of_inside {base at' : BitVec 64} {offset : ℤ} {n : ℕ}
    (inside : Inside (base + BitVec.ofInt 64 offset) n at') :
    ∃ j < n, at' = base + BitVec.ofInt 64 (offset + j) := by
  refine ⟨_, inside, ?_⟩
  have back : BitVec.ofInt 64 ((at' - (base + BitVec.ofInt 64 offset)).toNat : ℤ) =
      at' - (base + BitVec.ofInt 64 offset) := by
    rw [BitVec.ofInt_natCast, BitVec.ofNat_toNat, BitVec.setWidth_eq]
  rw [BitVec.ofInt_add, back]
  abel

/-- Two ranges of a frame that do not overlap have no address in common. -/
theorem not_inside_of_apart {base at' : BitVec 64} {offset other : ℤ} {n m : ℕ}
    (apart : offset + n ≤ other ∨ other + m ≤ offset) (low : -(2 ^ 31) ≤ offset)
    (lowOther : -(2 ^ 31) ≤ other) (high : offset + n ≤ 0) (highOther : other + m ≤ 0)
    (inside : Inside (base + BitVec.ofInt 64 other) m at') :
    ¬ Inside (base + BitVec.ofInt 64 offset) n at' := by
  obtain ⟨j, bound, rfl⟩ := offset_of_inside inside
  exact not_inside_of_offset (by omega) (by omega) (by omega) (by omega)

end Saad
