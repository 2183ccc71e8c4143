import Mathlib.Data.List.DropRight
import Saad.General.Binary64
import Saad.Std.Text

/-! # What sprintf writes to fixed buffers

The texts of C's `%f`, `%.*g`, `%p` and `%lld` for the values that the standard library prints with them, and
the buffers they are written to with their NUL.
-/

namespace Saad.Sprintf

open General

section Values

/-- A finite number with a significand of so many bits and an exponent in this range. -/
structure FiniteFloat (bits : ℕ) (least greatest : ℤ) where
  negative : Bool
  significand : ℕ
  exponent : ℤ
  fits : significand < 2 ^ bits
  least_le : least ≤ exponent
  le_greatest : exponent ≤ greatest

abbrev F32 := FiniteFloat 24 (-149) 104

abbrev F64 := FiniteFloat 53 (-1074) 971

def FiniteFloat.magnitude {bits : ℕ} {least greatest : ℤ} (v : FiniteFloat bits least greatest) : ℚ :=
  v.significand * 2 ^ v.exponent

/-- `%p` is not the same in every C library. -/
inductive CLibrary
  | glibc | msvcrt
deriving DecidableEq

end Values

section Formats

def signText (negative : Bool) : Text := if negative then [byteOf '-'] else []

/-- The decimal digits with zeros in front of them, up to a width. -/
def padded (width n : ℕ) : Text := List.replicate (width - (decimalText n).length) (byteOf '0') ++ decimalText n

/-- `%f`: six digits behind the point. -/
def fixedText (negative : Bool) (magnitude : ℚ) : Text :=
  let millionths := (roundEven (magnitude * 10 ^ 6)).toNat
  signText negative ++ decimalText (millionths / 10 ^ 6) ++ byteOf '.' :: padded 6 (millionths % 10 ^ 6)

/-- The exponent of ten of a number that is rounded to so many digits, and its digits as a number. -/
def significantDigits (precision : ℕ) (magnitude : ℚ) : ℤ × ℕ :=
  let exponent := Int.log 10 magnitude
  let digits := (roundEven (magnitude / 10 ^ (exponent + 1 - precision))).toNat
  if digits = 10 ^ precision then (exponent + 1, 10 ^ (precision - 1)) else (exponent, digits)

/-- The zeros at the end of the fraction are left out, and the point when nothing is left behind it. -/
def withFraction (whole fraction : Text) : Text :=
  let fraction := fraction.rdropWhile (· == byteOf '0')
  if fraction = [] then whole else whole ++ byteOf '.' :: fraction

/-- `%.*g`. -/
def generalText (negative : Bool) (magnitude : ℚ) (precision : ℕ) : Text :=
  let exponent := (significantDigits precision magnitude).1
  let digits := decimalText (significantDigits precision magnitude).2
  signText negative ++
    if exponent < -4 ∨ precision ≤ exponent then
      withFraction (digits.take 1) (digits.drop 1) ++
        byteOf 'e' :: (if exponent < 0 then byteOf '-' else byteOf '+') :: padded 2 exponent.natAbs
    else if exponent < 0 then
      withFraction [byteOf '0'] (List.replicate (exponent.natAbs - 1) (byteOf '0') ++ digits)
    else withFraction (digits.take (exponent.toNat + 1)) (digits.drop (exponent.toNat + 1))

def hexText (n : ℕ) : Text := (Nat.toDigits 16 n).map byteOf

/-- `%p`. -/
def pointerText (library : CLibrary) (p : BitVec 64) : Text :=
  match library with
  | .glibc => if p = 0 then asciiBytes "(nil)" else asciiBytes "0x" ++ hexText p.toNat
  | .msvcrt =>
    List.replicate (16 - (hexText p.toNat).length) (byteOf '0') ++ (hexText p.toNat).map toUpper

end Formats

section Written

def addFloat32Text (v : F32) : Text := fixedText v.negative v.magnitude

def addFloat64Text (v : F64) : Text := fixedText v.negative v.magnitude

def addPointerText (library : CLibrary) (p : BitVec 64) : Text := asciiBytes "0x" ++ pointerText library p

/-- The texts that are written one after the other, with more digits each time until one reads back as the
number. -/
def jsonTexts (readsBack : Text → Bool) (negative : Bool) (magnitude : ℚ) : List ℕ → List Text
  | [] => []
  | precision :: others =>
    let text := generalText negative magnitude precision
    text :: if readsBack text then [] else jsonTexts readsBack negative magnitude others

def writeF64Texts (readsBack : Text → Bool) (v : F64) : List Text :=
  jsonTexts readsBack v.negative v.magnitude [15, 16, 17]

def writeF32Texts (readsBack : Text → Bool) (v : F32) : List Text :=
  jsonTexts readsBack v.negative v.magnitude [6, 7, 8, 9]

def panicIndexText (index count : BitVec 64) : Text :=
  asciiBytes "Index " ++ intText index.toInt ++ asciiBytes " is out of bounds, as there are " ++
    intText count.toInt ++ asciiBytes " elements"

/-- The text and its NUL are inside the buffer. -/
def FitsBuffer (size : ℕ) (text : Text) : Prop := text.length + 1 ≤ size

/-- What is printed with sprintf stays inside its buffer. -/
structure PrintsInside (library : CLibrary) (readsBack : Text → Bool) (single : F32) (double : F64)
    (pointer index count : BitVec 64) : Prop where
  float32 : FitsBuffer 32 (addFloat32Text single)
  float64 : FitsBuffer 32 (addFloat64Text double)
  pointer : FitsBuffer 64 (addPointerText library pointer)
  json64 : ∀ text ∈ writeF64Texts readsBack double, FitsBuffer 32 text
  json32 : ∀ text ∈ writeF32Texts readsBack single, FitsBuffer 32 text
  panic : FitsBuffer 96 (panicIndexText index count)

/-- The buffer has room for 24 digits in front of the point, with the sign. -/
def RoomForFixed (negative : Bool) (magnitude : ℚ) : Prop := magnitude < 10 ^ (if negative then 23 else 24)

end Written

section Lengths

variable {negative : Bool} {magnitude : ℚ} {precision width n k : ℕ} {text whole fraction : Text}

theorem length_signText_le : (signText negative).length ≤ 1 := by
  cases negative <;> decide

theorem length_decimalText_le_iff (positive : 0 < k) : (decimalText n).length ≤ k ↔ n < 10 ^ k := by
  rw [decimalText, asciiBytes, toList_toString, List.length_map]
  exact Nat.length_toDigits_le_iff (by decide) positive

theorem length_padded_le (lt : n < 10 ^ width) (positive : 0 < width) : (padded width n).length = width := by
  have short := (length_decimalText_le_iff positive).mpr lt
  rw [padded, List.length_append, List.length_replicate]
  omega

theorem length_withFraction_le : (withFraction whole fraction).length ≤ whole.length + 1 + fraction.length := by
  have short : (fraction.rdropWhile (· == byteOf '0')).length ≤ fraction.length :=
    (List.rdropWhile_prefix _ _).length_le
  dsimp only [withFraction]
  split
  · omega
  · rw [List.length_append, List.length_cons]
    omega

/-- The digits in front of the point decide how long `%f` is. -/
theorem fitsBuffer_fixedText_iff (nonneg : 0 ≤ magnitude) : FitsBuffer 32 (fixedText negative magnitude) ↔
    roundEven (magnitude * 10 ^ 6) < 10 ^ ((if negative then 23 else 24) + 6) := by
  have rounded : 0 ≤ roundEven (magnitude * 10 ^ 6) := by
    have mono := roundEven_mono (show ((0 : ℤ) : ℚ) ≤ magnitude * 10 ^ 6 by push_cast; positivity)
    rwa [roundEven_intCast] at mono
  obtain ⟨millionths, same⟩ := Int.eq_ofNat_of_zero_le rounded
  have fraction : (padded 6 (millionths % 10 ^ 6)).length = 6 :=
    length_padded_le (Nat.mod_lt _ (by decide)) (by decide)
  unfold FitsBuffer fixedText
  rw [same, Int.toNat_natCast, List.length_append, List.length_append, List.length_cons, fraction]
  have digits {room : ℕ} (positive : 0 < room) :
      (decimalText (millionths / 10 ^ 6)).length ≤ room ↔ (millionths : ℤ) < 10 ^ (room + 6) := by
    rw [length_decimalText_le_iff positive, Nat.div_lt_iff_lt_mul (by decide), ← pow_add]
    exact_mod_cast Iff.rfl
  cases negative with
  | false =>
    rw [show (signText false).length = 0 from rfl, if_neg Bool.false_ne_true]
    exact Iff.trans (by omega) (@digits 24 (by decide))
  | true =>
    rw [show (signText true).length = 1 from rfl, if_pos rfl]
    exact Iff.trans (by omega) (@digits 23 (by decide))

/-- The digits of a number below a power of ten are no more than asked for, in the range of exponents. -/
theorem significantDigits_bounds (positive : 0 < precision) :
    (significantDigits precision magnitude).2 < 10 ^ precision ∧
      (significantDigits precision magnitude).1 ≤ Int.log 10 magnitude + 1 ∧
        Int.log 10 magnitude ≤ (significantDigits precision magnitude).1 := by
  set place : ℤ := Int.log 10 magnitude + 1 - precision with isPlace
  have scale : (0 : ℚ) < 10 ^ place := zpow_pos (by norm_num) _
  have below : magnitude / 10 ^ place ≤ ((10 ^ precision : ℕ) : ℤ) := by
    rw [div_le_iff₀ scale]
    have under := Int.lt_zpow_succ_log_self (b := 10) (by norm_num) magnitude
    push_cast
    rw [← zpow_natCast, ← zpow_add₀ (by norm_num), show (precision : ℤ) + place = Int.log 10 magnitude + 1 by omega]
    exact_mod_cast under.le
  have rounded := roundEven_mono below
  rw [roundEven_intCast] at rounded
  unfold significantDigits
  dsimp only
  rw [← isPlace]
  split
  · exact ⟨Nat.pow_lt_pow_right (by norm_num) (by omega), le_rfl, by omega⟩
  · next notFull =>
    exact ⟨lt_of_le_of_ne (Int.toNat_le.mpr rounded) notFull, by omega, le_rfl⟩

theorem length_generalText_le (positive : 0 < precision) (nonneg : 0 ≤ magnitude)
    (least : magnitude = 0 ∨ 10 ^ (-999 : ℤ) ≤ magnitude) (greatest : magnitude < 10 ^ (998 : ℤ)) :
    (generalText negative magnitude precision).length ≤ precision + 7 := by
  obtain ⟨digits_lt, exponent_le, le_exponent⟩ := significantDigits_bounds positive
  have upper : Int.log 10 magnitude ≤ 997 := by
    obtain zero | some_ := nonneg.eq_or_lt
    · rw [← zero, Int.log_zero_right]
      norm_num
    · have := (Int.lt_zpow_iff_log_lt (b := 10) (by norm_num) some_).mp (by rw [Nat.cast_ofNat]; exact greatest)
      omega
  have lower : -999 ≤ Int.log 10 magnitude := by
    obtain zero | least := least
    · rw [zero, Int.log_zero_right]
      norm_num
    · have some_ : 0 < magnitude := lt_of_lt_of_le (zpow_pos (by norm_num) _) least
      exact (Int.zpow_le_iff_le_log (b := 10) (by norm_num) some_).mp (by rw [Nat.cast_ofNat]; exact least)
  set exponent := (significantDigits precision magnitude).1 with isExponent
  set digits := decimalText (significantDigits precision magnitude).2 with isDigits
  have few : digits.length ≤ precision := (length_decimalText_le_iff positive).mpr digits_lt
  have exponentDigits : (padded 2 exponent.natAbs).length ≤ 3 := by
    have short : (decimalText exponent.natAbs).length ≤ 3 := (length_decimalText_le_iff (by decide)).mpr (by omega)
    rw [padded, List.length_append, List.length_replicate]
    omega
  have sign := @length_signText_le negative
  unfold generalText
  dsimp only
  rw [← isExponent, ← isDigits, List.length_append]
  split
  · have mantissa := @length_withFraction_le (digits.take 1) (digits.drop 1)
    rw [List.length_take, List.length_drop] at mantissa
    rw [List.length_append, List.length_cons, List.length_cons]
    omega
  split
  · have small := @length_withFraction_le [byteOf '0'] (List.replicate (exponent.natAbs - 1) (byteOf '0') ++ digits)
    rw [List.length_append, List.length_replicate, List.length_singleton] at small
    omega
  · have whole := @length_withFraction_le (digits.take (exponent.toNat + 1)) (digits.drop (exponent.toNat + 1))
    rw [List.length_take, List.length_drop] at whole
    omega

end Lengths

section Floats

variable {bits : ℕ} {least greatest : ℤ} {v : FiniteFloat bits least greatest} {k : ℕ}

theorem magnitude_nonneg : 0 ≤ v.magnitude := mul_nonneg (Nat.cast_nonneg _) (two_zpow_pos _).le

/-- A number of at most 53 bits is no closer than 1 below a power of ten that is not below 2^53. -/
theorem magnitude_le_of_lt (small : bits ≤ 53) (large : 16 ≤ k) (lt : v.magnitude < 10 ^ k) :
    v.magnitude ≤ 10 ^ k - 1 := by
  have power : (10 : ℚ) ^ 16 ≤ 10 ^ k := pow_le_pow_right₀ (by norm_num) large
  unfold FiniteFloat.magnitude at lt ⊢
  obtain negative | nonneg := lt_or_ge v.exponent 0
  · have below : (2 : ℚ) ^ v.exponent ≤ 1 := zpow_le_one_of_nonpos₀ (by norm_num) negative.le
    have bound : (v.significand : ℚ) ≤ 2 ^ 53 := by
      have := v.fits.le.trans (Nat.pow_le_pow_right (by norm_num) small)
      exact_mod_cast this
    have product := mul_le_mul bound below (two_zpow_pos _).le (by positivity)
    linarith
  · obtain ⟨n, same⟩ := Int.eq_ofNat_of_zero_le nonneg
    rw [same, zpow_natCast] at lt ⊢
    have whole : v.significand * 2 ^ n < 10 ^ k := by exact_mod_cast lt
    have le : v.significand * 2 ^ n + 1 ≤ 10 ^ k := whole
    have cast : (v.significand : ℚ) * 2 ^ n + 1 ≤ 10 ^ k := by exact_mod_cast le
    linarith

theorem roundEven_lt_iff (small : bits ≤ 53) (large : 16 ≤ k) :
    roundEven (v.magnitude * 10 ^ 6) < 10 ^ (k + 6) ↔ v.magnitude < 10 ^ k := by
  have whole : roundEven (10 ^ k * 10 ^ 6) = 10 ^ (k + 6) := by
    have cast := roundEven_intCast (10 ^ (k + 6))
    rw [← cast]
    congr 1
    push_cast
    ring
  constructor
  · intro lt
    by_contra notLess
    have le := roundEven_mono (mul_le_mul_of_nonneg_right (not_lt.mp notLess) (show (0 : ℚ) ≤ 10 ^ 6 by norm_num))
    omega
  · intro lt
    have le := magnitude_le_of_lt small large lt
    have below : v.magnitude * 10 ^ 6 ≤ ((10 ^ (k + 6) - 10 ^ 6 : ℤ) : ℚ) := by
      push_cast
      rw [pow_add]
      linarith
    have rounded := roundEven_mono below
    rw [roundEven_intCast] at rounded
    have : (0 : ℤ) < 10 ^ 6 := by norm_num
    omega

theorem fitsBuffer_float_iff (small : bits ≤ 53) :
    FitsBuffer 32 (fixedText v.negative v.magnitude) ↔ RoomForFixed v.negative v.magnitude := by
  rw [fitsBuffer_fixedText_iff magnitude_nonneg, RoomForFixed]
  cases v.negative with
  | false => exact roundEven_lt_iff small (by decide)
  | true => exact roundEven_lt_iff small (by decide)

theorem two_pow_le : (2 : ℚ) ^ (1074 : ℤ) ≤ 10 ^ (358 : ℤ) := by
  have natural : (2 : ℚ) ^ 1074 ≤ 10 ^ 358 :=
    calc
      (2 : ℚ) ^ 1074 = (2 ^ 3) ^ 358 := by rw [← pow_mul]
      _ ≤ 10 ^ 358 := pow_le_pow_left₀ (by norm_num) (by norm_num) 358
  rw [← zpow_natCast, ← zpow_natCast] at natural
  exact natural

/-- Both formats are far inside of three digits of an exponent. -/
theorem length_jsonText_le {precision : ℕ} (positive : 0 < precision) (small : bits ≤ 53) (lowest : -1074 ≤ least)
    (highest : greatest ≤ 971) : (generalText v.negative v.magnitude precision).length ≤ precision + 7 := by
  have step : (2 : ℚ) ^ (-1074 : ℤ) ≤ 2 ^ v.exponent :=
    zpow_le_zpow_right₀ (by norm_num) (lowest.trans v.least_le)
  have top : (2 : ℚ) ^ v.exponent ≤ 2 ^ (971 : ℤ) := zpow_le_zpow_right₀ (by norm_num) (v.le_greatest.trans highest)
  refine length_generalText_le positive magnitude_nonneg ?_ ?_
  · obtain zero | some_ := Nat.eq_zero_or_pos v.significand
    · left
      rw [FiniteFloat.magnitude, zero, Nat.cast_zero, zero_mul]
    · right
      have one : (1 : ℚ) ≤ v.significand := by exact_mod_cast some_
      calc
        (10 : ℚ) ^ (-999 : ℤ) ≤ 10 ^ (-358 : ℤ) := zpow_le_zpow_right₀ (by norm_num) (by norm_num)
        _ ≤ 2 ^ (-1074 : ℤ) := by
          rw [zpow_neg, zpow_neg]
          exact inv_anti₀ (two_zpow_pos _) two_pow_le
        _ ≤ 2 ^ v.exponent := step
        _ ≤ v.significand * 2 ^ v.exponent := le_mul_of_one_le_left (two_zpow_pos _).le one
  · have bound : (v.significand : ℚ) < 2 ^ 53 := by
      have := v.fits.trans_le (Nat.pow_le_pow_right (by norm_num) small)
      exact_mod_cast this
    calc
      v.magnitude < 2 ^ 53 * 2 ^ v.exponent := mul_lt_mul_of_pos_right bound (two_zpow_pos _)
      _ ≤ 2 ^ 53 * 2 ^ (971 : ℤ) := mul_le_mul_of_nonneg_left top (by norm_num)
      _ = 2 ^ (1024 : ℤ) := by rw [← zpow_natCast, ← zpow_add₀ (by norm_num)]; rfl
      _ ≤ 2 ^ (1074 : ℤ) := zpow_le_zpow_right₀ (by norm_num) (by norm_num)
      _ ≤ 10 ^ (358 : ℤ) := two_pow_le
      _ ≤ 10 ^ (998 : ℤ) := zpow_le_zpow_right₀ (by norm_num) (by norm_num)

end Floats

section Others

variable {readsBack : Text → Bool} {negative : Bool} {magnitude : ℚ} {text : Text} {precisions : List ℕ}

theorem exists_of_mem_jsonTexts (member : text ∈ jsonTexts readsBack negative magnitude precisions) :
    ∃ precision ∈ precisions, text = generalText negative magnitude precision := by
  induction precisions with
  | nil => cases member
  | cons precision others ih =>
    rw [jsonTexts] at member
    rcases List.mem_cons.mp member with rfl | later
    · exact ⟨precision, List.mem_cons_self, rfl⟩
    · split at later
      · cases later
      · obtain ⟨other, inside, same⟩ := ih later
        exact ⟨other, List.mem_cons_of_mem _ inside, same⟩

theorem length_intText_le (n : BitVec 64) : (intText n.toInt).length ≤ 20 := by
  have low := BitVec.le_toInt n
  have high := BitVec.toInt_lt (x := n)
  unfold intText
  split
  · rw [List.length_cons]
    have digits : (decimalText n.toInt.natAbs).length ≤ 19 := (length_decimalText_le_iff (by decide)).mpr (by omega)
    omega
  · have digits : (decimalText n.toInt.toNat).length ≤ 19 := (length_decimalText_le_iff (by decide)).mpr (by omega)
    omega

theorem fitsBuffer_panicIndexText (index count : BitVec 64) : FitsBuffer 96 (panicIndexText index count) := by
  have first := length_intText_le index
  have second := length_intText_le count
  have texts : (asciiBytes "Index ").length = 6 ∧
      (asciiBytes " is out of bounds, as there are ").length = 32 ∧ (asciiBytes " elements").length = 9 := by decide
  simp only [FitsBuffer, panicIndexText, List.length_append, texts]
  omega

theorem fitsBuffer_addPointerText (library : CLibrary) (p : BitVec 64) :
    FitsBuffer 64 (addPointerText library p) := by
  have hex : (hexText p.toNat).length ≤ 16 := by
    rw [hexText, List.length_map]
    exact (Nat.length_toDigits_le_iff (by decide) (by decide)).mpr p.isLt
  have front : (asciiBytes "0x").length = 2 := by decide
  unfold FitsBuffer addPointerText pointerText
  cases library with
  | glibc =>
    dsimp only
    split
    · decide
    · simp only [List.length_append, front]
      omega
  | msvcrt =>
    simp only [List.length_append, front, List.length_replicate, List.length_map]
    omega

end Others

/-- Only `%f` leaves its buffer, for numbers of more digits than it has room for. -/
theorem printsInside_iff (library : CLibrary) (readsBack : Text → Bool) (single : F32) (double : F64)
    (pointer index count : BitVec 64) :
    PrintsInside library readsBack single double pointer index count ↔
      RoomForFixed single.negative single.magnitude ∧ RoomForFixed double.negative double.magnitude := by
  constructor
  · intro inside
    exact ⟨(fitsBuffer_float_iff (by decide)).mp inside.float32, (fitsBuffer_float_iff (by decide)).mp inside.float64⟩
  · rintro ⟨singleRoom, doubleRoom⟩
    refine ⟨(fitsBuffer_float_iff (by decide)).mpr singleRoom, (fitsBuffer_float_iff (by decide)).mpr doubleRoom,
      fitsBuffer_addPointerText library pointer, fun text member => ?_, fun text member => ?_,
      fitsBuffer_panicIndexText index count⟩
    · obtain ⟨precision, inside, rfl⟩ := exists_of_mem_jsonTexts member
      have bounds : 0 < precision ∧ precision ≤ 17 := by
        simp only [List.mem_cons, List.not_mem_nil, or_false] at inside
        omega
      have short := @length_jsonText_le 53 (-1074) 971 double precision bounds.1 le_rfl le_rfl le_rfl
      unfold FitsBuffer
      omega
    · obtain ⟨precision, inside, rfl⟩ := exists_of_mem_jsonTexts member
      have bounds : 0 < precision ∧ precision ≤ 9 := by
        simp only [List.mem_cons, List.not_mem_nil, or_false] at inside
        omega
      have short := @length_jsonText_le 24 (-149) 104 single precision bounds.1 (by decide) (by decide) (by decide)
      unfold FitsBuffer
      omega

/-- 2^100 has 31 digits in front of the point. -/
theorem not_printsInside : ¬ ∀ (library : CLibrary) (readsBack : Text → Bool) (single : F32) (double : F64)
    (pointer index count : BitVec 64), PrintsInside library readsBack single double pointer index count := by
  intro all
  have inside := all .glibc (fun _ => true) ⟨false, 1, 100, by decide, by decide, by decide⟩
    ⟨false, 0, 0, by decide, by decide, by decide⟩ 0 0 0
  have room := (fitsBuffer_float_iff (by decide)).mp inside.float32
  rw [RoomForFixed, FiniteFloat.magnitude, if_neg Bool.false_ne_true] at room
  norm_num at room

end Saad.Sprintf
