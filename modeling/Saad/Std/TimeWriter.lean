import Saad.Std.TimeWrapped

/-! # The text that times and durations are written to

Each function gives the bytes that the method of `Text` adds, in `i64`. It gives none when an index is
outside of its array, or when the turns of a loop run out.
-/

namespace Saad.Time.Writer

section Definitions

/-- The digits in a buffer with that much room, the last digit first written. -/
def digits : ℕ → ℤ → Option Text
  | 0, _ => none
  | room + 1, v =>
    let digit := BitVec.ofInt 8 (v.tmod 10) + byteOf '0'
    if v.tdiv 10 > 0 then (digits room (v.tdiv 10)).map (· ++ [digit]) else some [digit]

/-- At least width digits, with zeros in front. -/
def number (value width : ℤ) : Option Text := do
  let v := if value < 0 then int64 (-value) else value
  let written ← digits 20 v
  some ((if value < 0 then [byteOf '-'] else []) ++
    List.replicate (width - written.length).toNat (byteOf '0') ++ written)

/-- A value without its last digits, as many as the count. -/
def withoutDigits : ℕ → ℤ → ℤ
  | 0, value => value
  | count + 1, value => withoutDigits count (value.tdiv 10)

/-- A fraction of a second with that many digits. -/
def fraction (nanoseconds : ℤ) (digits : ℕ) (trim : Bool) : Option Text :=
  let n := min digits 9
  let value := withoutDigits (9 - n) nanoseconds
  let (value, n) := if trim then trimmed n value else (value, n)
  if trim ∧ n = 0 then some [] else (number value n).map (byteOf '.' :: ·)

/-- The digits of a fraction of a unit. -/
def unitDigits : ℕ → ℤ → Option ℤ
  | 0, _ => none
  | turns + 1, size => if size > 1 then (unitDigits turns (size.tdiv 10)).map (· + 1) else some 0

/-- A value and its number of digits without the zeros at its end. -/
def withoutZeros : ℕ → ℤ → ℤ → Option (ℤ × ℤ)
  | 0, _, _ => none
  | turns + 1, value, digits =>
    if value.tmod 10 = 0 then withoutZeros turns (value.tdiv 10) (digits - 1) else some (value, digits)

/-- The fraction of a unit. -/
def decimals (rest unit : ℤ) : Option Text :=
  if rest = 0 then some []
  else do
    let digits ← unitDigits 64 unit
    let (value, digits) ← withoutZeros 64 rest digits
    let written ← number value digits
    some (byteOf '.' :: written)

/-- An offset as `+01:00`, `+0100` or `+01`, or `Z` for UTC. -/
def zone (offset : ℤ) (z colon minutes : Bool) : Option Text :=
  if z ∧ offset = 0 then some [byteOf 'Z']
  else do
    let total := if offset < 0 then int64 (-offset) else offset
    let hours ← number (total.tdiv 3600) 2
    let behind ←
      if minutes ∨ total.tmod 3600 ≠ 0 then
        (number ((total.tmod 3600).tdiv 60) 2).map ((if colon then [byteOf ':'] else []) ++ ·)
      else some []
    some ((if offset < 0 then byteOf '-' else byteOf '+') :: (hours ++ behind))

end Definitions

section Numbers

variable {value : ℤ} {n room : ℕ}

/-- With room for them, the digits are those of the number. -/
theorem digits_eq (enough : n < 10 ^ (room + 1)) : digits (room + 1) n = some (decimalText n) := by
  induction room generalizing n with
  | zero =>
    have small : n < 10 := by simpa using enough
    rw [digits, decimalText_of_small small, Int.tdiv_eq_ediv_of_nonneg (by omega), Int.tmod_eq_emod_of_nonneg (by omega),
      if_neg (by omega), show (n : ℤ) % 10 = n by omega, BitVec.ofInt_natCast]
  | succ room ih =>
    rw [digits, Int.tdiv_eq_ediv_of_nonneg (by omega), Int.tmod_eq_emod_of_nonneg (by omega)]
    by_cases small : n < 10
    · rw [decimalText_of_small small, if_neg (by omega), show (n : ℤ) % 10 = n by omega, BitVec.ofInt_natCast]
    · have shorter : n / 10 < 10 ^ (room + 1) := Nat.div_lt_of_lt_mul (by rwa [← pow_succ'])
      have behind := ih shorter
      push_cast at behind
      rw [if_pos (by omega), behind, @decimalText_of_big n (by omega), ← BitVec.ofInt_natCast]
      rfl

/-- A number that isn't the smallest one is written as it is. -/
theorem number_eq (low : -2 ^ 63 < value) (high : value < 2 ^ 63) (width : ℕ) :
    number value width = some (Time.number value width) := by
  have abs : (if value < 0 then int64 (-value) else value) = value.natAbs := by
    split
    · rw [int64_of_fits (by omega) (by omega)]
      omega
    · omega
  have written : digits 20 value.natAbs = some (decimalText value.natAbs) := digits_eq (by omega)
  unfold number Time.number
  simp only [abs, written, bind, Option.bind]
  have zeros : ((width : ℤ) - (decimalText value.natAbs).length).toNat = width - (decimalText value.natAbs).length := by
    omega
  rw [zeros]

end Numbers

end Saad.Time.Writer
