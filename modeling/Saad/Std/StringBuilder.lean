import Saad.General.Probing
import Saad.Std.Int32
import Saad.Std.Text

/-! # Building a text

The buffer of a `StringBuilder` doubles when it has to grow, and its capacity is an int. None is a loop
that never ends, or a write behind the end of the buffer.
-/

namespace Saad

open General

/-- The text, and the bytes the buffer has room for. -/
structure StringBuilder where
  text : Text
  capacity : ℤ
deriving DecidableEq, Repr

namespace StringBuilder

/-- A capacity that wraps to 0 stays there, so a loop that has not ended after 64 turns never does. -/
def growUntil (needed : ℤ) (capacity : ℤ) : Option ℤ :=
  loopUntil (fun capacity => if capacity < needed then none else some capacity)
    (fun capacity => int32 (capacity * 2)) 64 capacity

/-- Makes room for the text to grow by at least `extra` bytes. -/
def reserve (sb : StringBuilder) (extra : ℤ) : Option StringBuilder :=
  let needed := int32 (sb.text.length + extra + 1)
  if needed ≤ sb.capacity then some sb
  else
    let capacity := int32 (sb.capacity * 2)
    let capacity := if capacity < 16 then 16 else capacity
    (growUntil needed capacity).map fun capacity => { sb with capacity }

/-- Writes the bytes and the 0 byte behind them. -/
def write (sb : StringBuilder) (bytes : Text) : Option StringBuilder :=
  if sb.text.length + bytes.length < sb.capacity then some { sb with text := sb.text ++ bytes }
  else none

def addChar (sb : StringBuilder) (c : BitVec 8) : Option StringBuilder := do
  let sb ← sb.reserve 1
  sb.write [c]

/-- The length of the string is taken as an int. -/
def addString (sb : StringBuilder) (s : Text) : Option StringBuilder :=
  let count := int32 s.length
  if count ≤ 0 then some sb
  else do
    let sb ← sb.reserve count
    sb.write (s.take count.toNat)

end StringBuilder

def newStringBuilder (initialCapacity : ℤ) : Option StringBuilder :=
  StringBuilder.reserve { text := [], capacity := 0 } initialCapacity

namespace StringBuilder

/-- The capacity is a power of two, and there is room for a 0 byte behind the text. -/
structure Valid (sb : StringBuilder) : Prop where
  capacity : ∃ exponent, 4 ≤ exponent ∧ exponent ≤ 30 ∧ sb.capacity = 2 ^ exponent
  room : sb.text.length < sb.capacity

section Growing

theorem double_power {exponent : ℕ} (small : exponent < 30) :
    int32 (2 ^ exponent * 2) = 2 ^ (exponent + 1) := by
  have below : (2 : ℤ) ^ (exponent + 1) ≤ 2 ^ 30 := pow_le_pow_right₀ (by decide) (by omega)
  have positive : (0 : ℤ) < 2 ^ (exponent + 1) := by positivity
  rw [← pow_succ, int32_of_fits (by omega) (by omega)]

theorem double_iterate {exponent : ℕ} (turn : ℕ) (small : exponent + turn ≤ 30) :
    (fun capacity => int32 (capacity * 2))^[turn] ((2 : ℤ) ^ exponent) = 2 ^ (exponent + turn) := by
  induction turn with
  | zero => rfl
  | succ turn ih =>
    rw [Function.iterate_succ_apply', ih (by omega), double_power (by omega)]
    rfl

/-- The capacities behind the largest power of two are too small for everything. -/
theorem double_iterate_nonpos (turn : ℕ) :
    (fun capacity => int32 (capacity * 2))^[turn + 1] ((2 : ℤ) ^ 30) ≤ 0 := by
  have settled : ∀ turn, (fun capacity => int32 (capacity * 2))^[turn] (0 : ℤ) = 0 :=
    Function.iterate_fixed rfl
  cases turn with
  | zero => decide
  | succ turn =>
    rw [Nat.add_assoc, Function.iterate_add_apply]
    exact (settled turn).le

theorem growUntil_of_fits {exponent : ℕ} {needed : ℤ} (le : exponent ≤ 30) (fits : needed ≤ 2 ^ 30) :
    ∃ last, exponent ≤ last ∧ last ≤ 30 ∧ growUntil needed (2 ^ exponent) = some (2 ^ last) ∧
      needed ≤ 2 ^ last := by
  cases runs : growUntil needed (2 ^ exponent) with
  | none =>
    have stays := loopUntil_eq_none_iff.mp runs (30 - exponent) (by omega)
    rw [double_iterate _ (by omega), show exponent + (30 - exponent) = 30 by omega,
      if_neg (by omega)] at stays
    cases stays
  | some capacity =>
    obtain ⟨turn, -, ends, before⟩ := exists_turn_of_loopUntil_eq_some runs
    have early : exponent + turn ≤ 30 := by
      by_contra late
      have stays := before (30 - exponent) (by omega)
      rw [double_iterate _ (by omega), show exponent + (30 - exponent) = 30 by omega,
        if_neg (by omega)] at stays
      cases stays
    rw [double_iterate turn early] at ends
    split at ends
    · cases ends
    · next enough =>
      obtain rfl := Option.some.inj ends
      exact ⟨exponent + turn, by omega, early, rfl, by omega⟩

theorem le_of_growUntil {needed first capacity : ℤ} (grows : growUntil needed first = some capacity) :
    needed ≤ capacity := by
  obtain ⟨turn, -, exits, -⟩ := exists_turn_of_loopUntil_eq_some grows
  split at exits
  · cases exits
  · next enough =>
    cases exits
    exact Int.not_lt.mp enough

theorem growUntil_of_not_fits {exponent : ℕ} {needed : ℤ} (le : exponent ≤ 30)
    (large : 2 ^ 30 < needed) : growUntil needed (2 ^ exponent) = none := by
  rw [growUntil, loopUntil_eq_none_iff]
  intro turn _
  apply if_pos
  by_cases early : exponent + turn ≤ 30
  · have below : (2 : ℤ) ^ (exponent + turn) ≤ 2 ^ 30 := pow_le_pow_right₀ (by decide) early
    rw [double_iterate turn early]
    omega
  · obtain ⟨later, rfl⟩ : ∃ later, turn = later + 1 + (30 - exponent) :=
      ⟨turn - 1 - (30 - exponent), by omega⟩
    have small := double_iterate_nonpos later
    rw [Function.iterate_add_apply, double_iterate _ (by omega),
      show exponent + (30 - exponent) = 30 by omega]
    omega

end Growing

section Adding

variable {sb : StringBuilder} {extra : ℤ}

theorem Valid.length_lt (valid : sb.Valid) : sb.text.length < 2 ^ 30 := by
  obtain ⟨exponent, -, le, capacity⟩ := valid.capacity
  have below : (2 : ℤ) ^ exponent ≤ 2 ^ 30 := pow_le_pow_right₀ (by decide) le
  have room := valid.room
  omega

theorem Valid.reserve (valid : sb.Valid) (not_negative : 0 ≤ extra)
    (fits : sb.text.length + extra < 2 ^ 30) :
    ∃ grown, sb.reserve extra = some grown ∧ grown.Valid ∧ grown.text = sb.text ∧
      sb.text.length + extra < grown.capacity := by
  obtain ⟨⟨exponent, ge, le, capacity⟩, room⟩ := valid
  have needed_eq : int32 (sb.text.length + extra + 1) = sb.text.length + extra + 1 :=
    int32_of_fits (by omega) (by omega)
  rw [StringBuilder.reserve, needed_eq]
  split
  · next enough => exact ⟨sb, rfl, ⟨⟨exponent, ge, le, capacity⟩, room⟩, rfl, by omega⟩
  · next grows =>
    have small : exponent < 30 := by
      by_contra large
      obtain rfl : exponent = 30 := by omega
      omega
    have above : (16 : ℤ) ≤ 2 ^ (exponent + 1) :=
      (by decide : (16 : ℤ) = 2 ^ 4).le.trans (pow_le_pow_right₀ (by decide) (by omega))
    obtain ⟨last, first_le, last_le, runs, enough⟩ :=
      @growUntil_of_fits (exponent + 1) (sb.text.length + extra + 1) (by omega) (by omega)
    rw [capacity, double_power small]
    dsimp only
    rw [if_neg (Int.not_lt.mpr above), runs]
    exact ⟨_, rfl, ⟨⟨last, by omega, last_le, rfl⟩, by dsimp only; omega⟩, rfl, by dsimp only; omega⟩

theorem Valid.reserve_eq_none (valid : sb.Valid) (small : extra < 2 ^ 30)
    (large : 2 ^ 30 ≤ sb.text.length + extra) : sb.reserve extra = none := by
  have length := valid.length_lt
  obtain ⟨⟨exponent, ge, le, capacity⟩, room⟩ := valid
  have needed_eq : int32 (sb.text.length + extra + 1) = sb.text.length + extra + 1 :=
    int32_of_fits (by omega) (by omega)
  have below : (2 : ℤ) ^ exponent ≤ 2 ^ 30 := pow_le_pow_right₀ (by decide) le
  rw [StringBuilder.reserve, needed_eq, if_neg (by omega), capacity]
  by_cases double : exponent < 30
  · have above : (16 : ℤ) ≤ 2 ^ (exponent + 1) :=
      (by decide : (16 : ℤ) = 2 ^ 4).le.trans (pow_le_pow_right₀ (by decide) (by omega))
    rw [double_power double]
    dsimp only
    rw [if_neg (Int.not_lt.mpr above), growUntil_of_not_fits (by omega) (by omega)]
    rfl
  · obtain rfl : exponent = 30 := by omega
    have again : growUntil (sb.text.length + extra + 1) (2 ^ 4) = none :=
      growUntil_of_not_fits (by omega) (by omega)
    dsimp only
    rw [if_pos (by decide), show (16 : ℤ) = 2 ^ 4 by decide, again]
    rfl

theorem Valid.addChar (valid : sb.Valid) (c : BitVec 8) :
    (sb.text.length + 1 < 2 ^ 30 → ∃ grown, sb.addChar c = some grown ∧ grown.Valid ∧
      grown.text = sb.text ++ [c]) ∧ (2 ^ 30 ≤ sb.text.length + 1 → sb.addChar c = none) := by
  constructor
  · intro fits
    have one : (0 : ℤ) ≤ 1 := by decide
    obtain ⟨grown, reserves, grown_valid, same, room⟩ := valid.reserve one (by omega)
    refine ⟨{ grown with text := grown.text ++ [c] }, ?_, ⟨grown_valid.capacity, ?_⟩, by rw [same]⟩
    · rw [StringBuilder.addChar, reserves]
      exact if_pos (by rw [same]; exact room)
    · rw [List.length_append, List.length_singleton, same]
      exact room
  · intro large
    rw [StringBuilder.addChar, valid.reserve_eq_none (by decide) (by omega)]
    rfl

theorem Valid.addString (valid : sb.Valid) {s : Text} (short : s.length < 2 ^ 30) :
    (sb.text.length + s.length < 2 ^ 30 → ∃ grown, sb.addString s = some grown ∧ grown.Valid ∧
      grown.text = sb.text ++ s) ∧
    (2 ^ 30 ≤ sb.text.length + s.length → sb.addString s = none) := by
  have count : int32 s.length = s.length := int32_of_fits (by omega) (by omega)
  rw [StringBuilder.addString, count]
  cases s with
  | nil =>
    constructor
    · intro fits
      exact ⟨sb, rfl, valid, (List.append_nil _).symm⟩
    · intro large
      exact absurd valid.length_lt (Nat.not_lt.mpr large)
  | cons c s =>
    have positive : ¬((c :: s).length : ℤ) ≤ 0 := by
      rw [List.length_cons]
      omega
    rw [if_neg positive, Int.toNat_natCast, List.take_length]
    constructor
    · intro fits
      have not_negative : (0 : ℤ) ≤ (c :: s).length := by omega
      obtain ⟨grown, reserves, grown_valid, same, room⟩ := valid.reserve not_negative (by omega)
      refine ⟨{ grown with text := grown.text ++ c :: s }, ?_, ⟨grown_valid.capacity, ?_⟩,
        by rw [same]⟩
      · rw [reserves]
        exact if_pos (by rw [same]; exact room)
      · rw [List.length_append, same]
        exact_mod_cast room
    · intro large
      rw [valid.reserve_eq_none (by omega) (by omega)]
      rfl

theorem Valid.addChars (valid : sb.Valid) {cs : Text} (fits : sb.text.length + cs.length < 2 ^ 30) :
    ∃ grown, cs.foldlM StringBuilder.addChar sb = some grown ∧ grown.Valid ∧
      grown.text = sb.text ++ cs := by
  induction cs generalizing sb with
  | nil => exact ⟨sb, rfl, valid, (List.append_nil _).symm⟩
  | cons c cs ih =>
    rw [List.length_cons] at fits
    obtain ⟨next, adds, nextValid, nextText⟩ := (valid.addChar c).1 (by omega)
    obtain ⟨grown, others, grownValid, grownText⟩ := ih nextValid (by
      rw [nextText, List.length_append, List.length_singleton]
      omega)
    refine ⟨grown, ?_, grownValid, ?_⟩
    · rw [List.foldlM_cons, adds]
      exact others
    · rw [grownText, nextText, List.append_assoc]
      rfl

theorem reserve_text {grown : StringBuilder} (reserves : sb.reserve extra = some grown) :
    grown.text = sb.text := by
  rw [StringBuilder.reserve] at reserves
  dsimp only at reserves
  split at reserves
  · obtain rfl := Option.some.inj reserves
    rfl
  · obtain ⟨capacity, -, rfl⟩ := Option.map_eq_some_iff.mp reserves
    rfl

end Adding

section Empty

variable {extra : ℤ} {s : Text} {sb : StringBuilder}

/-- The first memory of a text. -/
theorem reserve_empty (positive : 0 < extra) (fits : extra < 2 ^ 30) :
    ∃ grown, StringBuilder.reserve ⟨[], 0⟩ extra = some grown ∧ grown.Valid ∧ grown.text = [] ∧
      extra < grown.capacity := by
  have needed : int32 (([] : Text).length + extra + 1) = extra + 1 := by
    rw [List.length_nil, Nat.cast_zero, Int.zero_add]
    exact int32_of_fits (by omega) (by omega)
  obtain ⟨last, first_le, last_le, runs, enough⟩ :=
    @growUntil_of_fits 4 (extra + 1) (by decide) (by omega)
  rw [StringBuilder.reserve, needed, if_neg (by dsimp only; omega)]
  dsimp only
  rw [if_pos (by decide), show (16 : ℤ) = 2 ^ 4 by decide, runs]
  refine ⟨_, rfl, ⟨⟨last, first_le, last_le, rfl⟩, ?_⟩, rfl, ?_⟩
  · dsimp only
    rw [List.length_nil, Nat.cast_zero]
    omega
  · dsimp only
    omega

/-- There is no room for 1 GiB, and no loop that ends for more of it than an int counts. -/
theorem reserve_empty_large {grown : StringBuilder} (large : 2 ^ 30 ≤ extra) (small : extra < 2 ^ 31)
    (reserves : StringBuilder.reserve ⟨[], 0⟩ extra = some grown) : grown.capacity = 0 := by
  rw [StringBuilder.reserve] at reserves
  dsimp only at reserves
  split at reserves
  · obtain rfl := Option.some.inj reserves
    rfl
  · next grows =>
    rw [List.length_nil, Nat.cast_zero, Int.zero_add] at grows reserves
    by_cases last : extra = 2 ^ 31 - 1
    · have wraps : int32 (extra + 1) = -2147483648 := by
        rw [last]
        decide
      rw [wraps] at grows
      exact absurd (by decide) grows
    · have needed : int32 (extra + 1) = extra + 1 := int32_of_fits (by omega) (by omega)
      have never : growUntil (extra + 1) (2 ^ 4) = none := growUntil_of_not_fits (by decide) (by omega)
      rw [if_pos (by decide), needed, show (16 : ℤ) = 2 ^ 4 by decide, never] at reserves
      cases reserves

theorem addString_empty (short : s.length < 2 ^ 30) :
    ∃ sb, StringBuilder.addString ⟨[], 0⟩ s = some sb ∧ sb.text = s := by
  have count : int32 s.length = s.length := int32_of_fits (by omega) (by omega)
  rw [StringBuilder.addString, count]
  split
  · next none =>
    have nil : s = [] := List.length_eq_zero_iff.mp (by omega)
    exact ⟨_, rfl, nil.symm⟩
  · next some =>
    obtain ⟨grown, reserves, -, text, room⟩ := @reserve_empty s.length (by omega) (by omega)
    rw [reserves, Int.toNat_natCast, List.take_length]
    refine ⟨{ grown with text := grown.text ++ s }, if_pos ?_, ?_⟩
    · rw [text, List.length_nil, Nat.cast_zero, Int.zero_add]
      exact room
    · rw [text]
      rfl

/-- A text of 1 GiB or more is never all of the text of a builder. -/
theorem addString_empty_lt (long : 2 ^ 30 ≤ s.length)
    (adds : StringBuilder.addString ⟨[], 0⟩ s = some sb) : sb.text.length < s.length := by
  have upper : int32 s.length < 2 ^ 31 := by
    have := Int.bmod_lt (x := s.length) (m := 2 ^ 32) (by decide)
    rw [int32]
    omega
  rw [StringBuilder.addString] at adds
  split at adds
  · obtain rfl := Option.some.inj adds
    rw [List.length_nil]
    omega
  · obtain ⟨grown, reserves, writes⟩ := Option.bind_eq_some_iff.mp adds
    have text : grown.text = [] := reserve_text reserves
    rw [StringBuilder.write] at writes
    rcases Int.lt_or_le (int32 s.length) (2 ^ 30) with small | large
    · split at writes
      · obtain rfl := Option.some.inj writes
        dsimp only
        rw [text, List.nil_append, List.length_take]
        omega
      · cases writes
    · rw [reserve_empty_large large upper reserves, if_neg (by omega)] at writes
      cases writes

end Empty

end StringBuilder

end Saad
