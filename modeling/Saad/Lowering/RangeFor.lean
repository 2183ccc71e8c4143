import Saad.ConstExpr.Lower
import Saad.General.Fuel
import Saad.General.Indexed
import Saad.Std.Int32

/-! # Loops over a range

`for i in start..end`, or `start...end` with the end in it: the type that `checkFor` gives the iterator,
and what the blocks that `lowerFor` makes do with the slots of the iterator, the end of the range and the
index. The loop runs exactly the integers of the range if both bounds are ints and the end of an inclusive
range is not the biggest of them. An empty range stays empty if its bounds cut to 32 bits are in that order.
-/

namespace Saad

open General

/-- A bound of a range, with the value that it has when the loop begins. -/
inductive RangeBound
  | literal (integer : BitVec 64) (isBigger : Bool)
  | integer (value : RuntimeValue)
  /-- A value of an enum, as an integer of the backing type. -/
  | enum (value : RuntimeValue)
  /-- A value of any other type. -/
  | other

structure AstRangeExpr where
  start : RangeBound
  end_ : RangeBound
  inclusive : Bool

def RangeBound.isInteger : RangeBound → Bool
  | .other => false
  | _ => true

/-- The integer that a bound stands for. -/
def RangeBound.toInt : RangeBound → ℤ
  | .literal n isBigger => if isBigger then n.toNat else n.toInt
  | .integer value | .enum value => readInt value.type.isSigned value.bits
  | .other => 0

/-- The type of the iterator and of the index. `none` where a bound is reported. -/
def checkFor (range : AstRangeExpr) : Option IntegerType :=
  if !range.start.isInteger then none else if !range.end_.isInteger then none else some .i32

/-- The bound as a value of the type of the iterator. -/
def RangeBound.lowerScalarAs (target : IntegerType) : RangeBound → Option (BitVec target.bits)
  | .literal n _ => some (emitConst target n)
  | .integer value | .enum value => some (convertScalar value target)
  | .other => none

/-- The comparison in the block `for.cond`. -/
def rangeCmp (inclusive isSigned : Bool) : IrCmp :=
  if inclusive then if isSigned then .sle else .ule
  else if isSigned then .slt else .ult

/-- The slots of the loop. -/
structure ForSlots (type : IntegerType) where
  iterator : BitVec type.bits
  rangeEnd : BitVec type.bits
  index : BitVec (IntegerType.bits .i32)

section Lower

variable {type : IntegerType} {W : Type}

/-- The slots that the loop begins with. -/
def AstRangeExpr.slots (range : AstRangeExpr) (type : IntegerType) : Option (ForSlots type) := do
  let start ← range.start.lowerScalarAs type
  let rangeEnd ← range.end_.lowerScalarAs type
  return ⟨start, rangeEnd, emitConst .i32 0⟩

/-- The block `for.post`, which `continue` goes to as well. -/
def ForSlots.post (slots : ForSlots type) : Option (ForSlots type) := do
  let next ← irBinary .add slots.iterator (emitConst type 1)
  let nextIndex ← irBinary .add slots.index (emitConst .i32 1)
  return { slots with iterator := next, index := nextIndex }

/-- The blocks from `for.cond` on: the values of the iterator that the body runs with, one after the other,
and the world behind the loop. The body assigns neither the iterator nor the index. -/
def runFor (inclusive : Bool) (body : BitVec type.bits → BitVec (IntegerType.bits .i32) → W → W) :
    ℕ → ForSlots type → W → Option (List (BitVec type.bits) × W)
  | 0, _, _ => none
  | fuel + 1, slots, world =>
    if irCompare (rangeCmp inclusive type.isSigned) slots.iterator slots.rangeEnd then do
      let next ← slots.post
      let (values, world) ← runFor inclusive body fuel next (body slots.iterator slots.index world)
      return (slots.iterator :: values, world)
    else some ([], world)

/-- What `lowerFor` makes of the loop. -/
def AstRangeExpr.run (range : AstRangeExpr) (type : IntegerType)
    (body : BitVec type.bits → BitVec (IntegerType.bits .i32) → W → W) (fuel : ℕ) (world : W) :
    Option (List (BitVec type.bits) × W) := do
  let slots ← range.slots type
  runFor range.inclusive body fuel slots world

end Lower

namespace AstRangeExpr

variable (range : AstRangeExpr)

/-- The first integer behind the range. -/
def stop : ℤ := if range.inclusive then range.end_.toInt + 1 else range.end_.toInt

/-- The body runs once for each integer of the range, with the iterator equal to it, and the loop ends. -/
def RunsRight (type : IntegerType) : Prop :=
  ∀ (W : Type) (body : BitVec type.bits → BitVec (IntegerType.bits .i32) → W → W) (world : W), ∃ values after,
    Gives (fun fuel => range.run type body fuel world) (values, after) ∧
      values.map (readInt type.isSigned) = integersBetween range.start.toInt range.stop

/-- A range of ints, whose integers are all in front of the biggest int if its end is in it. -/
def Fits : Prop :=
  if range.start.toInt < range.stop then
    int32 range.start.toInt = range.start.toInt ∧ int32 range.end_.toInt = range.end_.toInt ∧
      (range.inclusive → range.end_.toInt ≠ 2 ^ 31 - 1)
  else if range.inclusive then int32 range.end_.toInt < int32 range.start.toInt
  else int32 range.end_.toInt ≤ int32 range.start.toInt

instance : Decidable range.Fits := by
  unfold Fits
  infer_instance

end AstRangeExpr

section Runs

variable {W : Type} {inclusive : Bool} {slots : ForSlots .i32} {world : W}
  {body : BitVec (IntegerType.bits .i32) → BitVec (IntegerType.bits .i32) → W → W}

/-- Where the loop would stop, counted without wrapping. -/
def ForSlots.stop (inclusive : Bool) (slots : ForSlots .i32) : ℤ :=
  if inclusive then slots.rangeEnd.toInt + 1 else slots.rangeEnd.toInt

theorem irCompare_rangeCmp : irCompare (rangeCmp inclusive (IntegerType.isSigned .i32)) slots.iterator slots.rangeEnd =
    decide (slots.iterator.toInt < slots.stop inclusive) := by
  cases inclusive
  · exact BitVec.slt_eq_decide
  · refine BitVec.sle_eq_decide.trans (decide_eq_decide.mpr ?_)
    exact Int.lt_add_one_iff.symm

theorem toInt_bounds (value : BitVec (IntegerType.bits .i32)) : -2 ^ 31 ≤ value.toInt ∧ value.toInt < 2 ^ 31 :=
  ⟨BitVec.le_toInt value, BitVec.toInt_lt⟩

theorem ForSlots.post_eq : slots.post = some { slots with
    iterator := slots.iterator + emitConst .i32 1, index := slots.index + emitConst .i32 1 } := rfl

theorem toInt_add_one (fits : slots.iterator.toInt < 2 ^ 31 - 1) :
    (slots.iterator + emitConst .i32 1).toInt = slots.iterator.toInt + 1 := by
  have bounds := toInt_bounds slots.iterator
  have one : (emitConst .i32 1).toInt = 1 := by decide
  have width : 2 ^ IntegerType.bits .i32 = 2 ^ 32 := by decide
  rw [BitVec.toInt_add, one, width]
  exact Int.bmod_eq_of_le (by omega) (by omega)

/-- In front of the biggest int the loop counts to its end. -/
theorem runFor_gives (fits : slots.stop inclusive ≤ 2 ^ 31 - 1) :
    ∃ values after, Gives (fun fuel => runFor inclusive body fuel slots world) (values, after) ∧
      values.map BitVec.toInt = integersBetween slots.iterator.toInt (slots.stop inclusive) := by
  induction left : (slots.stop inclusive - slots.iterator.toInt).toNat generalizing slots world with
  | zero =>
    refine ⟨[], world, Gives.step (Gives.of_eq fun _ => rfl) fun fuel => ?_, ?_⟩
    · rw [runFor, irCompare_rangeCmp, decide_eq_false (by omega)]
      rfl
    · rw [integersBetween_of_le (by omega)]
      rfl
  | succ turns ih =>
    have next := @toInt_add_one slots (by omega)
    obtain ⟨values, after, gives, values_eq⟩ :=
      @ih { slots with iterator := slots.iterator + emitConst .i32 1, index := slots.index + emitConst .i32 1 }
        (body slots.iterator slots.index world) fits (by
          change (slots.stop inclusive - (slots.iterator + emitConst .i32 1).toInt).toNat = turns
          omega)
    refine ⟨slots.iterator :: values, after,
      Gives.step (Gives.map (fun rest => (slots.iterator :: rest.1, rest.2)) gives) fun fuel => ?_, ?_⟩
    · rw [runFor, irCompare_rangeCmp, decide_eq_true (by omega), if_pos rfl, ForSlots.post_eq]
      exact Option.map_eq_bind.symm
    · rw [List.map_cons, values_eq, integersBetween_cons (show slots.iterator.toInt < slots.stop inclusive by omega)]
      exact congrArg _ (congrArg (integersBetween · _) next)

/-- An inclusive range up to the biggest int has no end. -/
theorem runFor_eq_none (top : slots.stop inclusive = 2 ^ 31) (fuel : ℕ) :
    runFor inclusive body fuel slots world = none := by
  induction fuel generalizing slots world with
  | zero => rfl
  | succ fuel ih =>
    have bounds := toInt_bounds slots.iterator
    rw [runFor, irCompare_rangeCmp, decide_eq_true (by omega), if_pos rfl, ForSlots.post_eq]
    simp only [bind, Option.bind_some]
    rw [@ih { slots with iterator := slots.iterator + emitConst .i32 1, index := slots.index + emitConst .i32 1 } _ top]
    rfl

end Runs

section Right

variable {range : AstRangeExpr} {type : IntegerType}

/-- Both bounds are cut to the 32 bits of the iterator. -/
theorem RangeBound.toInt_lowerScalarAs {bound : RangeBound} (isInteger : bound.isInteger = true) :
    ∃ value, bound.lowerScalarAs .i32 = some value ∧ value.toInt = int32 bound.toInt := by
  have converted : ∀ value : RuntimeValue,
      (convertScalar value .i32).toInt = int32 (readInt value.type.isSigned value.bits) := by
    intro value
    rw [convertScalar_eq, RuntimeValue.integer, IntegerType.integer, setWidth_extended _ _ (IntegerType.bits_le .i32),
      extended_eq_ofInt, BitVec.toInt_ofInt]
    rfl
  cases bound with
  | literal integer isBigger =>
    refine ⟨_, rfl, ?_⟩
    rw [emitConst, RangeBound.toInt, BitVec.toInt_setWidth, int32]
    split
    · rfl
    · rw [BitVec.toInt_eq_toNat_bmod, Int.bmod_bmod_of_dvd (by norm_num)]
      rfl
  | integer value => exact ⟨_, rfl, converted value⟩
  | enum value => exact ⟨_, rfl, converted value⟩
  | other => cases isInteger

theorem checkFor_eq_some (checked : checkFor range = some type) :
    type = .i32 ∧ range.start.isInteger = true ∧ range.end_.isInteger = true := by
  rw [checkFor] at checked
  split at checked
  · cases checked
  · next start =>
    split at checked
    · cases checked
    · next end_ =>
      cases checked
      exact ⟨rfl, by simpa using start, by simpa using end_⟩

theorem AstRangeExpr.slots_eq (start : range.start.isInteger = true) (end_ : range.end_.isInteger = true) :
    ∃ slots, range.slots .i32 = some slots ∧ slots.iterator.toInt = int32 range.start.toInt ∧
      slots.rangeEnd.toInt = int32 range.end_.toInt := by
  obtain ⟨first, lowersStart, isStart⟩ := RangeBound.toInt_lowerScalarAs start
  obtain ⟨last, lowersEnd, isEnd⟩ := RangeBound.toInt_lowerScalarAs end_
  refine ⟨⟨first, last, emitConst .i32 0⟩, ?_, isStart, isEnd⟩
  rw [AstRangeExpr.slots, lowersStart, lowersEnd]
  rfl

theorem AstRangeExpr.run_eq {W : Type} {slots : ForSlots .i32} (begins : range.slots .i32 = some slots)
    (body : BitVec (IntegerType.bits .i32) → BitVec (IntegerType.bits .i32) → W → W) (world : W) (fuel : ℕ) :
    range.run .i32 body fuel world = runFor range.inclusive body fuel slots world := by
  rw [AstRangeExpr.run, begins]
  rfl

/-- What a loop that ends runs with is what it must run with. -/
theorem AstRangeExpr.runsRight_iff_of_gives {slots : ForSlots .i32} (begins : range.slots .i32 = some slots)
    (fits : slots.stop range.inclusive ≤ 2 ^ 31 - 1) : range.RunsRight .i32 ↔
      integersBetween slots.iterator.toInt (slots.stop range.inclusive) =
        integersBetween range.start.toInt range.stop := by
  constructor
  · intro right
    obtain ⟨values, after, gives, expected⟩ := right Unit (fun _ _ world => world) ()
    obtain ⟨others, _, givesOthers, counted⟩ := @runFor_gives Unit _ _ () (fun _ _ world => world) fits
    have same := Gives.unique (Gives.congr gives fun fuel => (AstRangeExpr.run_eq begins _ _ fuel).symm)
      givesOthers
    cases same
    exact counted.symm.trans expected
  · intro same W body world
    obtain ⟨values, after, gives, counted⟩ := @runFor_gives W _ _ world body fits
    exact ⟨values, after, Gives.congr gives (AstRangeExpr.run_eq begins body world), counted.trans same⟩

/-- A loop whose end is the biggest int, and in the range, never ends. -/
theorem AstRangeExpr.not_runsRight_of_top {slots : ForSlots .i32} (begins : range.slots .i32 = some slots)
    (top : slots.stop range.inclusive = 2 ^ 31) : ¬range.RunsRight .i32 := by
  intro right
  obtain ⟨values, after, ⟨enough, gives⟩, -⟩ := right Unit (fun _ _ world => world) ()
  have ends := (AstRangeExpr.run_eq begins _ _ enough).symm.trans (gives enough (Nat.le_refl enough))
  cases (runFor_eq_none top enough).symm.trans ends

/-- A loop that the typer accepts runs for the integers of its range exactly if the bounds are ints, the
iterator can get past the last integer, and no empty range gets integers when its bounds are cut. -/
theorem AstRangeExpr.runsRight_iff (checked : checkFor range = some type) : range.RunsRight type ↔ range.Fits := by
  obtain ⟨rfl, start, end_⟩ := checkFor_eq_some checked
  obtain ⟨slots, begins, isStart, isEnd⟩ := AstRangeExpr.slots_eq start end_
  have startRange := int32_range range.start.toInt
  have endRange := int32_range range.end_.toInt
  have stop_eq : slots.stop range.inclusive = int32 range.end_.toInt + (range.stop - range.end_.toInt) := by
    rw [ForSlots.stop, isEnd, AstRangeExpr.stop]
    split_ifs <;> omega
  have fits_iff : range.Fits ↔
      if range.start.toInt < range.stop then int32 range.start.toInt = range.start.toInt ∧
        int32 range.end_.toInt = range.end_.toInt ∧ slots.stop range.inclusive ≠ 2 ^ 31
      else slots.stop range.inclusive ≤ int32 range.start.toInt := by
    rw [AstRangeExpr.Fits, ForSlots.stop, isEnd]
    cases range.inclusive with
    | true =>
      simp only [forall_const, if_true, Int.add_one_le_iff]
      split_ifs
      · refine and_congr_right fun _ => and_congr_right fun endFits => ?_
        rw [endFits]
        omega
      · rfl
    | false =>
      simp only [Bool.false_eq_true, false_implies, if_false]
      split_ifs
      · refine and_congr_right fun _ => and_congr_right fun endFits => ?_
        exact iff_of_true trivial (by omega)
      · rfl
  by_cases top : slots.stop range.inclusive = 2 ^ 31
  · refine iff_of_false (AstRangeExpr.not_runsRight_of_top begins top) fun fits => ?_
    rw [fits_iff, top] at fits
    split_ifs at fits
    · exact fits.2.2 rfl
    · omega
  · have low : slots.stop range.inclusive ≤ 2 ^ 31 - 1 := by
      rw [AstRangeExpr.stop] at stop_eq
      split_ifs at stop_eq <;> omega
    rw [AstRangeExpr.runsRight_iff_of_gives begins low, isStart, fits_iff]
    by_cases some_ : range.start.toInt < range.stop
    · rw [if_pos some_]
      constructor
      · intro same
        have ends := integersBetween_inj some_ same.symm
        exact ⟨by omega, by omega, top⟩
      · rintro ⟨startFits, endFits, -⟩
        rw [startFits]
        congr 1
        omega
    · rw [if_neg some_, integersBetween_of_le (not_lt.mp some_)]
      constructor
      · intro none_
        have count := congrArg List.length none_
        rw [length_integersBetween, List.length_nil] at count
        omega
      · exact integersBetween_of_le

/-- `for i in 0..10` -/
def tenTurns : AstRangeExpr := ⟨.literal 0 false, .literal 10 false, false⟩

theorem runsRight_tenTurns : checkFor tenTurns = some .i32 ∧ (tenTurns.RunsRight .i32 ↔ tenTurns.Fits) :=
  ⟨rfl, AstRangeExpr.runsRight_iff rfl⟩

/-- `for i in 2147483646...2147483647` -/
def lastInts : AstRangeExpr := ⟨.literal 2147483646 false, .literal 2147483647 false, true⟩

theorem not_runsRight_lastInts : ¬∀ range type, checkFor range = some type → range.RunsRight type := fun right =>
  AstRangeExpr.not_runsRight_of_top (show lastInts.slots .i32 = some ⟨2147483646#32, 2147483647#32, 0⟩ by rfl)
    (by decide) (right lastInts .i32 rfl)

end Right

end Saad
