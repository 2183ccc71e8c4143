import Saad.General.Measures
import Saad.Json.Grammar

/-! # Positions in a line

The compiler counts a character of a line as a byte of the UTF-8 text, editors count UTF-16 code units.
-/

namespace Saad.Source

open General

def utf8Size (lead : BitVec 8) : ℕ :=
  if lead < 128 then 1 else if lead ≥ 240 then 4 else if lead ≥ 224 then 3 else if lead ≥ 192 then 2 else 1

/-- Outside the basic plane, it is two UTF-16 units. -/
def utf16Size (lead : BitVec 8) : ℕ := if utf8Size lead = 4 then 2 else 1

theorem utf8Size_pos (lead : BitVec 8) : 0 < utf8Size lead := by
  unfold utf8Size
  split_ifs <;> decide

theorem utf16Size_pos (lead : BitVec 8) : 0 < utf16Size lead := by
  unfold utf16Size
  split <;> decide

/-- The loop of `toUtf16`. -/
def toUtf16From (line : Text) (byteColumn : ℤ) (i : ℕ) (column : ℤ) : ℤ :=
  if inside : (i : ℤ) < byteColumn ∧ i < line.length then
    let ch := (line)[i]
    let size := utf8Size ch
    let column := column + 1
    let column := if size = 4 then column + 1 else column
    toUtf16From line byteColumn (i + size) column
  else column
termination_by line.length - i
decreasing_by
  have positive := utf8Size_pos (line)[i]
  omega

/-- The UTF-16 column of a byte column of the line. -/
def toUtf16 (line : Text) (byteColumn : ℤ) : ℤ :=
  let column := toUtf16From line byteColumn 0 0
  if byteColumn > line.length then column + (byteColumn - line.length) else column

/-- The loop of `toByte`. -/
def toByteFrom (line : Text) (utf16Column : ℤ) (i : ℕ) (column : ℤ) : ℤ :=
  if inside : column < utf16Column ∧ i < line.length then
    let size := utf8Size (line)[i]
    let column := column + 1
    let column := if size = 4 then column + 1 else column
    toByteFrom line utf16Column (i + size) column
  else i
termination_by line.length - i
decreasing_by
  have positive := utf8Size_pos (line)[i]
  omega

/-- The byte column of a UTF-16 column of the line. -/
def toByte (line : Text) (utf16Column : ℤ) : ℤ := toByteFrom line utf16Column 0 0

section Walk

/-- The bytes that both walks stop at: the first one, and behind each one that its length leads to. -/
def leads : Text → List (BitVec 8)
  | [] => []
  | lead :: rest => lead :: leads (rest.drop (utf8Size lead - 1))
termination_by line => line.length
decreasing_by
  rw [List.length_drop, List.length_cons]
  omega

theorem leads_nil : leads [] = [] := by rw [leads]

theorem leads_cons (lead : BitVec 8) (rest : Text) :
    leads (lead :: rest) = lead :: leads (rest.drop (utf8Size lead - 1)) := by rw [leads]

/-- From any place the walk is that over what is left of the line. -/
theorem leads_drop {line : Text} {i : ℕ} (inside : i < line.length) :
    leads (line.drop i) = (line)[i] :: leads (line.drop (i + utf8Size (line)[i])) := by
  have positive := utf8Size_pos (line)[i]
  rw [List.drop_eq_getElem_cons inside, leads_cons, List.drop_drop]
  congr 3
  omega

theorem leads_drop_of_le {line : Text} {i : ℕ} (outside : line.length ≤ i) : leads (line.drop i) = [] := by
  rw [List.drop_eq_nil_of_le outside, leads_nil]

/-- What a character adds to the column. -/
theorem column_eq (column : ℤ) (ch : BitVec 8) :
    (if utf8Size ch = 4 then column + 1 + 1 else column + 1) = column + utf16Size ch := by
  rw [utf16Size]
  split <;> simp [add_assoc]

/-- The loop counts the UTF-16 units of the characters that start before the byte column. -/
theorem toUtf16From_eq (line : Text) (byteColumn : ℤ) (i : ℕ) (column : ℤ) :
    toUtf16From line byteColumn i column =
      column + convert utf8Size utf16Size (leads (line.drop i)) (byteColumn - i) := by
  induction i, column using toUtf16From.induct line byteColumn with
  | case1 i column inside ch size one two ih =>
    have next : two = column + utf16Size (line)[i] := column_eq column _
    rw [toUtf16From, dif_pos inside, leads_drop inside.2, convert_cons, if_pos (by omega), Nat.cast_add, ← add_assoc,
      ← next, sub_sub, ← Nat.cast_add]
    exact ih
  | case2 i column outside =>
    rw [toUtf16From, dif_neg outside]
    by_cases last : i < line.length
    · rw [convert_of_nonpos (by omega), Nat.cast_zero, add_zero]
    · rw [leads_drop_of_le (by omega), convert_nil, Nat.cast_zero, add_zero]

/-- The loop counts the bytes of the characters that start before the UTF-16 column. -/
theorem toByteFrom_eq (line : Text) (utf16Column : ℤ) (i : ℕ) (column : ℤ) :
    toByteFrom line utf16Column i column =
      i + convert utf16Size utf8Size (leads (line.drop i)) (utf16Column - column) := by
  induction i, column using toByteFrom.induct line utf16Column with
  | case1 i column inside size one two ih =>
    have next : two = column + utf16Size (line)[i] := column_eq column _
    rw [toByteFrom, dif_pos inside, leads_drop inside.2, convert_cons, if_pos (by omega), Nat.cast_add, ← add_assoc,
      ← Nat.cast_add, sub_sub, ← next]
    exact ih
  | case2 i column outside =>
    rw [toByteFrom, dif_neg outside]
    by_cases last : i < line.length
    · rw [convert_of_nonpos (by omega), Nat.cast_zero, add_zero]
    · rw [leads_drop_of_le (by omega), convert_nil, Nat.cast_zero, add_zero]

theorem toUtf16_eq (line : Text) (byteColumn : ℤ) : toUtf16 line byteColumn =
    convert utf8Size utf16Size (leads line) byteColumn + max 0 (byteColumn - line.length) := by
  rw [toUtf16, toUtf16From_eq, List.drop_zero, zero_add, Nat.cast_zero, sub_zero]
  split
  · rw [max_eq_right (by omega)]
  · rw [max_eq_left (by omega), add_zero]

theorem toByte_eq (line : Text) (utf16Column : ℤ) :
    toByte line utf16Column = convert utf16Size utf8Size (leads line) utf16Column := by
  rw [toByte, toByteFrom_eq, List.drop_zero, Nat.cast_zero, zero_add, sub_zero]

end Walk

end Saad.Source

/-! # Columns of the compiler and of editors

In a line of characters the two columns are the extents of the same characters in bytes and in UTF-16 units. A line whose
last character is cut is shorter than its lead bytes say, and `toByte` leaves it.
-/

namespace Saad.Source

open General

section Characters

/-- The line of the characters. -/
def lineOf (cs : List Char) : Text := cs.flatMap fun c => Json.utf8 c.toNat

/-- The UTF-16 units of a character. -/
def units (c : Char) : ℕ := if c.toNat < 0x10000 then 1 else 2

/-- The first byte of a character. -/
def leadOf (c : Char) : BitVec 8 := (Json.utf8 c.toNat).headD 0

theorem toNat_lt (c : Char) : c.toNat < 0x110000 := by
  obtain valid | valid := c.valid
  · exact Nat.lt_trans valid (by decide)
  · exact valid.2

theorem utf8Size_ofNat {n : ℕ} (lt : n < 256) : utf8Size (BitVec.ofNat 8 n) =
    if n < 128 then 1 else if n ≥ 240 then 4 else if n ≥ 224 then 3 else if n ≥ 192 then 2 else 1 := by
  simp only [utf8Size, BitVec.lt_def, ge_iff_le, BitVec.le_def, BitVec.toNat_ofNat, Nat.mod_eq_of_lt lt]
  rfl

/-- The lead byte of a character says how many bytes and units it has. -/
theorem utf8_eq (c : Char) : ∃ tail, Json.utf8 c.toNat = leadOf c :: tail ∧
    utf8Size (leadOf c) = tail.length + 1 ∧ utf16Size (leadOf c) = units c := by
  have lt := toNat_lt c
  have size (n : ℕ) {tail : Text} (fits : n < 256) (whole : Json.utf8 c.toNat = BitVec.ofNat 8 n :: tail)
      (is : utf8Size (BitVec.ofNat 8 n) = tail.length + 1) (pair : tail.length = 3 ↔ ¬c.toNat < 0x10000) :
      ∃ tail, Json.utf8 c.toNat = leadOf c :: tail ∧ utf8Size (leadOf c) = tail.length + 1 ∧
        utf16Size (leadOf c) = units c := by
    have lead : leadOf c = BitVec.ofNat 8 n := by rw [leadOf, whole, List.headD_cons]
    refine ⟨tail, by rw [lead, whole], by rw [lead, is], ?_⟩
    rw [lead, utf16Size, is, units]
    split_ifs <;> omega
  by_cases one : c.toNat < 0x80
  · refine size c.toNat (by omega) (by rw [Json.utf8, if_pos one]) ?_ (by simp; omega)
    rw [utf8Size_ofNat (by omega), if_pos (by omega)]
    rfl
  · by_cases two : c.toNat < 0x800
    · refine size (0xC0 + c.toNat / 0x40) (by omega) (by rw [Json.utf8, if_neg one, if_pos two]) ?_ (by simp; omega)
      rw [utf8Size_ofNat (by omega), if_neg (by omega), if_neg (by omega), if_neg (by omega), if_pos (by omega)]
      rfl
    · by_cases three : c.toNat < 0x10000
      · refine size (0xE0 + c.toNat / 0x1000) (by omega)
          (by rw [Json.utf8, if_neg one, if_neg two, if_pos three]) ?_ (by simp; omega)
        rw [utf8Size_ofNat (by omega), if_neg (by omega), if_neg (by omega), if_pos (by omega)]
        rfl
      · refine size (0xF0 + c.toNat / 0x40000) (by omega)
          (by rw [Json.utf8, if_neg one, if_neg two, if_neg three]) ?_ (by simp; omega)
        rw [utf8Size_ofNat (by omega), if_neg (by omega), if_pos (by omega)]
        rfl

theorem leads_lineOf (cs : List Char) : leads (lineOf cs) = cs.map leadOf := by
  induction cs with
  | nil => exact leads_nil
  | cons c cs ih =>
    obtain ⟨tail, whole, size, -⟩ := utf8_eq c
    rw [lineOf, List.flatMap_cons, whole, List.cons_append, leads_cons, size, Nat.add_sub_cancel, List.drop_left,
      List.map_cons, ← ih, lineOf]

theorem length_lineOf (cs : List Char) : (lineOf cs).length = extent utf8Size (cs.map leadOf) := by
  induction cs with
  | nil => rfl
  | cons c cs ih =>
    obtain ⟨tail, whole, size, -⟩ := utf8_eq c
    rw [lineOf, List.flatMap_cons, List.length_append, whole, List.map_cons, extent_cons, ← ih, size]
    rfl

theorem extent_units (cs : List Char) : extent units cs = extent utf16Size (cs.map leadOf) := by
  induction cs with
  | nil => rfl
  | cons c cs ih =>
    obtain ⟨tail, -, -, both⟩ := utf8_eq c
    rw [List.map_cons, extent_cons, extent_cons, both, ih]

end Characters

section Agree

/-- The two columns of a line of characters. `i` characters are in front of a border. -/
structure ColumnsAgree (line : Text) (cs : List Char) : Prop where
  toUtf16_border : ∀ i ≤ cs.length, toUtf16 line (lineOf (cs.take i)).length = extent units (cs.take i)
  toByte_border : ∀ i ≤ cs.length, toByte line (extent units (cs.take i)) = (lineOf (cs.take i)).length
  mono : Monotone (toUtf16 line)
  /-- In a character it is the column behind it. -/
  toUtf16_inside : ∀ i < cs.length, ∀ byteColumn : ℤ, (lineOf (cs.take i)).length < byteColumn →
    byteColumn ≤ (lineOf (cs.take (i + 1))).length → toUtf16 line byteColumn = extent units (cs.take (i + 1))
  /-- In a surrogate pair it is the column behind it. -/
  toByte_inside : ∀ i < cs.length, ∀ utf16Column : ℤ, extent units (cs.take i) < utf16Column →
    utf16Column ≤ extent units (cs.take (i + 1)) → toByte line utf16Column = (lineOf (cs.take (i + 1))).length

theorem toUtf16_mono (line : Text) : Monotone (toUtf16 line) := by
  intro column last le
  have more : convert utf8Size utf16Size (leads line) column ≤ convert utf8Size utf16Size (leads line) last :=
    convert_mono le
  rw [toUtf16_eq, toUtf16_eq]
  omega

theorem columnsAgree_lineOf (cs : List Char) : ColumnsAgree (lineOf cs) cs := by
  have bytes (i : ℕ) : (lineOf (cs.take i)).length = extent utf8Size ((cs.map leadOf).take i) := by
    rw [length_lineOf, List.map_take]
  have both (i : ℕ) : extent units (cs.take i) = extent utf16Size ((cs.map leadOf).take i) := by
    rw [extent_units, List.map_take]
  have inside (i : ℕ) : (lineOf (cs.take i)).length ≤ (lineOf cs).length := by
    rw [bytes, length_lineOf]
    exact extent_take_le _ i
  have to16 {byteColumn : ℤ} (le : byteColumn ≤ (lineOf cs).length) :
      toUtf16 (lineOf cs) byteColumn = convert utf8Size utf16Size (cs.map leadOf) byteColumn := by
    rw [toUtf16_eq, leads_lineOf, max_eq_left (by omega), add_zero]
  refine ⟨?_, ?_, toUtf16_mono _, ?_, ?_⟩
  · intro i le
    rw [to16 (Int.ofNat_le.mpr (inside i)), bytes, both]
    exact congrArg Nat.cast (convert_extent (fun lead _ => utf8Size_pos lead) (by rwa [List.length_map]))
  · intro i le
    rw [toByte_eq, leads_lineOf, bytes, both]
    exact congrArg Nat.cast (convert_extent (fun lead _ => utf16Size_pos lead) (by rwa [List.length_map]))
  · intro i lt byteColumn behind before
    have whole := inside (i + 1)
    rw [to16 (by omega), both]
    rw [bytes] at behind before
    exact congrArg Nat.cast (convert_of_inside (by rwa [List.length_map]) behind before)
  · intro i lt utf16Column behind before
    rw [toByte_eq, leads_lineOf, bytes]
    rw [both] at behind before
    exact congrArg Nat.cast (convert_of_inside (by rwa [List.length_map]) behind before)

/-- What the columns of a line should be. -/
def ColumnsRight (line : Text) : Prop :=
  (∀ cs, line = lineOf cs → ColumnsAgree line cs) ∧
    ∀ utf16Column, 0 ≤ toByte line utf16Column ∧ toByte line utf16Column ≤ line.length

theorem length_le_extent_leads (line : Text) : line.length ≤ extent utf8Size (leads line) := by
  induction line using leads.induct with
  | case1 => exact Nat.zero_le _
  | case2 lead rest ih =>
    have positive := utf8Size_pos lead
    rw [leads_cons, extent_cons, List.length_cons]
    rw [List.length_drop] at ih
    omega

/-- The columns are right if and only if the line has all bytes of its last character. -/
theorem columnsRight_iff (line : Text) : ColumnsRight line ↔ extent utf8Size (leads line) = line.length := by
  constructor
  · rintro ⟨-, inside⟩
    have last := (inside (extent utf16Size (leads line))).2
    rw [toByte_eq, convert_of_extent_le (fun lead _ => utf16Size_pos lead) (le_refl _)] at last
    exact Nat.le_antisymm (Int.ofNat_le.mp last) (length_le_extent_leads line)
  · intro whole
    refine ⟨?_, fun utf16Column => ?_⟩
    · rintro cs rfl
      exact columnsAgree_lineOf cs
    · rw [toByte_eq, ← whole]
      exact ⟨Int.natCast_nonneg _, Int.ofNat_le.mpr (convert_le _ _)⟩

/-- A first byte that announces three more is not followed by any. -/
theorem not_columnsRight : ¬ColumnsRight [0xF0] := by
  rintro ⟨-, inside⟩
  have one := (inside 1).2
  rw [toByte, toByteFrom, dif_pos (by decide), toByteFrom, dif_neg (by decide)] at one
  exact absurd one (by decide)

end Agree

end Saad.Source
