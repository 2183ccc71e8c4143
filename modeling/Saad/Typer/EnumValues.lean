import Mathlib.Data.List.Induction
import Mathlib.Data.List.Nodup
import Mathlib.Data.Nat.Size
import Mathlib.Tactic.Linarith
import Saad.General.Outcomes

/-! # The values of enumerators

The typer gives each enumerator its constant, as an int of C, or the next value. A constant is the literal that its
expression is simplified to.
-/

namespace Saad.EnumValues

open General

section Typer

/-- An integer of 64 bits, with the flag for those that are bigger than a signed one. -/
structure Constant where
  integer : BitVec 64
  isBigger : Bool := false
deriving DecidableEq, Repr

def Constant.value (constant : Constant) : ℤ :=
  if constant.isBigger then constant.integer.toNat else constant.integer.toInt

/-- An enumerator, with the literal of its expression if it has one: none is an expression that isn't a constant. -/
structure Enumerator where
  name : String
  expr : Option (Option Constant) := none
deriving DecidableEq, Repr

inductive EnumError where
  | notConstant
  | notUnique
  | countIsReserved
  | namesIsReserved
deriving DecidableEq, Repr

/-- What the loop keeps: the values of the enumerators that are checked, the greatest one, and the next one. -/
structure State where
  values : List (BitVec 32) := []
  maxValue : BitVec 32 := 0
  autoIncrementValue : BitVec 32 := 0

/-- `while (bit <= max_value) bit <<= 1` on integers of 64 bits. -/
def nextBit (maxValue : ℤ) : ℕ → ℤ → ℤ
  | 0, bit => bit
  | fuel + 1, bit => if bit ≤ maxValue then nextBit maxValue fuel (2 * bit) else bit

/-- The value of an enumerator, and the next value behind it. -/
def enumeratorValue (isFlags : Bool) (state : State) (etor : Enumerator) : Except EnumError (BitVec 32 × BitVec 32) :=
  match etor.expr with
  | some none => .error .notConstant
  | some (some constant) =>
    let value := constant.integer.setWidth 32
    .ok (value, value + 1)
  | none =>
    if isFlags then .ok (BitVec.ofInt 32 (nextBit state.maxValue.toInt 32 1), state.autoIncrementValue)
    else .ok (state.autoIncrementValue, state.autoIncrementValue + 1)

/-- The loop of `check_enum_values`. -/
def checkEnumValues (isFlags : Bool) : State → List Enumerator → Except EnumError (List (BitVec 32))
  | state, [] => .ok state.values
  | state, etor :: rest => do
    let value ← enumeratorValue isFlags state etor
    if value.1 ∈ state.values then .error .notUnique
    else if etor.name = "count" then .error .countIsReserved
    else if etor.name = "names" then .error .namesIsReserved
    else
      checkEnumValues isFlags {
        values := state.values ++ [value.1]
        maxValue := if state.maxValue.slt value.1 then value.1 else state.maxValue
        autoIncrementValue := value.2 } rest

end Typer

section Spec

/-- What the values of an enum should be: the constants, or the values behind the ones before, or bits that none before
has. -/
structure EnumRight (isFlags : Bool) (etors : List Enumerator) (values : List (BitVec 32)) : Prop where
  length : values.length = etors.length
  constants : ∀ (i : ℕ) (etor : Enumerator) (constant : Constant) (value : BitVec 32), etors[i]? = some etor →
    etor.expr = some (some constant) → values[i]? = some value → value.toInt = constant.value
  first : isFlags = false → ∀ (etor : Enumerator) (value : BitVec 32), etors[0]? = some etor → etor.expr = none →
    values[0]? = some value → value.toInt = 0
  next : isFlags = false → ∀ (i : ℕ) (etor : Enumerator) (before value : BitVec 32), etors[i + 1]? = some etor →
    etor.expr = none → values[i]? = some before → values[i + 1]? = some value → value.toInt = before.toInt + 1
  bits : isFlags = true → ∀ (i : ℕ) (etor : Enumerator) (value : BitVec 32), etors[i]? = some etor → etor.expr = none →
    values[i]? = some value → ∃ bit < 32, value = BitVec.twoPow 32 bit ∧ ∀ before ∈ values.take i, before.getLsbD bit = false
  different : values.Nodup

/-- The bit above all values, of which none is negative. -/
def bitAbove (values : List ℤ) : ℕ := (values.foldl max 0).toNat.size

/-- The value of an enumerator behind others, in exact arithmetic. -/
def exactValue (isFlags : Bool) (before : List ℤ) (etor : Enumerator) : ℤ :=
  match etor.expr with
  | some (some constant) => constant.value
  | _ => if isFlags then (BitVec.twoPow 32 (bitAbove before)).toInt else before.getLast?.elim 0 (· + 1)

def exactValues (isFlags : Bool) (etors : List Enumerator) : List ℤ :=
  etors.foldl (fun before etor => before ++ [exactValue isFlags before etor]) []

/-- The enums whose exact values are integers of 32 bits, and where the bits of flags are in no negative value before. -/
structure EnumPlain (isFlags : Bool) (etors : List Enumerator) : Prop where
  fits : ∀ value ∈ exactValues isFlags etors, -2 ^ 31 ≤ value ∧ value < 2 ^ 31
  apart : isFlags = true → ∀ (i : ℕ) (etor : Enumerator), etors[i]? = some etor → etor.expr = none →
    ∀ before ∈ (exactValues isFlags etors).take i, before < 0 →
      (BitVec.ofInt 32 before).getLsbD (bitAbove ((exactValues isFlags etors).take i)) = false

end Spec

section Bits

theorem nextBit_eq {n fuel k : ℕ} (below : k ≤ n.size) (enough : n.size ≤ k + fuel) :
    nextBit n fuel (2 ^ k) = 2 ^ n.size := by
  induction fuel generalizing k with
  | zero =>
    have same : n.size = k := by omega
    rw [nextBit, same]
  | succ fuel ih =>
    rw [nextBit]
    split
    · rename_i le
      have le : 2 ^ k ≤ n := by exact_mod_cast le
      have less : k < n.size := Nat.lt_size.mpr le
      have double : (2 : ℤ) * 2 ^ k = 2 ^ (k + 1) := by rw [pow_succ, mul_comm]
      rw [double]
      exact ih (by omega) (by omega)
    · rename_i greater
      have greater : n < 2 ^ k := by
        have := not_le.mp greater
        exact_mod_cast this
      have le : n.size ≤ k := Nat.size_le.mpr greater
      have same : n.size = k := by omega
      rw [same]

/-- The next bit above an int is the power of two with as many bits as it has. -/
theorem ofInt_nextBit {maxValue : ℤ} (positive : 0 ≤ maxValue) (less : maxValue < 2 ^ 31) :
    maxValue.toNat.size ≤ 31 ∧ BitVec.ofInt 32 (nextBit maxValue 32 1) = BitVec.twoPow 32 maxValue.toNat.size := by
  obtain ⟨n, rfl⟩ := Int.eq_ofNat_of_zero_le positive
  have size : n.size ≤ 31 := Nat.size_le.mpr (by exact_mod_cast less)
  refine ⟨size, ?_⟩
  have bit := nextBit_eq (n := n) (Nat.zero_le _) (show n.size ≤ 0 + 32 by omega)
  rw [pow_zero] at bit
  rw [bit]
  apply BitVec.eq_of_toNat_eq
  have cast : (2 : ℤ) ^ n.size = ((2 ^ n.size : ℕ) : ℤ) := by push_cast; rfl
  rw [cast, BitVec.ofInt_natCast, BitVec.toNat_ofNat, BitVec.toNat_twoPow]
  rfl

end Bits

section Run

variable {α β : Type} (next : List β → α → β)
variable {isFlags : Bool} {etor : Enumerator} {state : State}

/-- The list that grows by what follows from the elements before. -/
theorem getElem?_foldl_snoc (l : List α) :
    let whole := l.foldl (fun before a => before ++ [next before a]) []
    whole.length = l.length ∧
      ∀ (i : ℕ) (a : α), l[i]? = some a → whole[i]? = some (next (whole.take i) a) := by
  induction l using List.reverseRecOn with
  | nil => exact ⟨rfl, fun i a is => by cases is⟩
  | append_singleton l last ih =>
    obtain ⟨length, values⟩ := ih
    simp only [List.foldl_append, List.foldl_cons, List.foldl_nil]
    generalize l.foldl (fun before a => before ++ [next before a]) [] = whole at *
    refine ⟨by rw [List.length_append, List.length_append, length]; rfl, fun i a is => ?_⟩
    rw [List.getElem?_append] at is
    split at is
    · rw [List.getElem?_append_left (by omega), List.take_append_of_le_length (by omega)]
      exact values i a is
    · rw [List.getElem?_singleton] at is
      obtain ⟨at_end, rfl⟩ : i - l.length = 0 ∧ last = a := by simpa using is
      obtain rfl : i = whole.length := by omega
      simp

/-- What the typer gives to an enumerator behind others. -/
def typerValue (isFlags : Bool) (before : List (BitVec 32)) (etor : Enumerator) : BitVec 32 :=
  match etor.expr with
  | some (some constant) => constant.integer.setWidth 32
  | _ => if isFlags then BitVec.twoPow 32 (bitAbove (before.map BitVec.toInt)) else before.getLast?.elim 0 (· + 1)

theorem typerValue_of_constant (before : List (BitVec 32)) {constant : Constant}
    (expr : etor.expr = some (some constant)) :
    typerValue isFlags before etor = constant.integer.setWidth 32 := by
  rw [typerValue.eq_def, expr]

theorem typerValue_of_flag (before : List (BitVec 32)) (expr : etor.expr = none) :
    typerValue true before etor = BitVec.twoPow 32 (bitAbove (before.map BitVec.toInt)) := by
  rw [typerValue.eq_def, expr]
  rfl

theorem typerValue_of_next (before : List (BitVec 32)) (expr : etor.expr = none) :
    typerValue false before etor = before.getLast?.elim 0 (· + 1) := by
  rw [typerValue.eq_def, expr]
  rfl

theorem foldl_max_bounds (values : List (BitVec 32)) (most : ℤ) (positive : 0 ≤ most) (less : most < 2 ^ 31) :
    0 ≤ (values.map BitVec.toInt).foldl max most ∧ (values.map BitVec.toInt).foldl max most < 2 ^ 31 := by
  induction values generalizing most with
  | nil => exact ⟨positive, less⟩
  | cons value values ih =>
    have bound : value.toInt < 2 ^ 31 := by
      have := BitVec.toInt_lt (x := value)
      simpa using this
    exact ih (max most value.toInt) (le_max_of_le_left positive) (max_lt less bound)

/-- What the loop keeps is what follows from the values. -/
structure State.Follows (isFlags : Bool) (state : State) : Prop where
  maxValue : state.maxValue.toInt = (state.values.map BitVec.toInt).foldl max 0
  auto : isFlags = false → state.autoIncrementValue = state.values.getLast?.elim 0 (· + 1)

theorem enumeratorValue_eq {value : BitVec 32 × BitVec 32} (follows : state.Follows isFlags)
    (is : enumeratorValue isFlags state etor = .ok value) :
    value.1 = typerValue isFlags state.values etor ∧ (isFlags = false → value.2 = value.1 + 1) ∧ etor.expr ≠ some none := by
  rw [enumeratorValue.eq_def] at is
  rw [typerValue.eq_def]
  split at is
  · cases is
  · rename_i constant expr
    cases is
    rw [expr]
    exact ⟨rfl, fun _ => rfl, by simp⟩
  · rename_i expr
    rw [expr]
    cases isFlags with
    | true =>
      cases is
      obtain ⟨positive, less⟩ := foldl_max_bounds state.values 0 (le_refl 0) (by norm_num)
      obtain ⟨_, bit⟩ := ofInt_nextBit positive less
      rw [← follows.maxValue] at bit
      refine ⟨?_, fun flags => (by cases flags), by simp⟩
      rw [if_pos rfl, bitAbove, ← follows.maxValue]
      exact bit
    | false =>
      cases is
      exact ⟨follows.auto rfl, fun _ => rfl, by simp⟩

/-- The values of an enum that the typer takes. -/
theorem values_of_check {etors : List Enumerator} {values : List (BitVec 32)}
    (follows : state.Follows isFlags) (accepts : checkEnumValues isFlags state etors = .ok values) :
    values = etors.foldl (fun before etor => before ++ [typerValue isFlags before etor]) state.values ∧
      (∀ etor ∈ etors, etor.expr ≠ some none) ∧ (state.values.Nodup → values.Nodup) := by
  induction etors generalizing state with
  | nil =>
    cases accepts
    exact ⟨rfl, fun _ mem => (List.not_mem_nil mem).elim, id⟩
  | cons etor rest ih =>
    rw [checkEnumValues] at accepts
    obtain ⟨value, is, later⟩ := bind_eq_ok_iff.mp accepts
    obtain ⟨value_eq, auto, constant⟩ := enumeratorValue_eq follows is
    split at later
    · cases later
    rename_i fresh
    split at later
    · cases later
    split at later
    · cases later
    have next : State.Follows isFlags {
        values := state.values ++ [value.1]
        maxValue := if state.maxValue.slt value.1 then value.1 else state.maxValue
        autoIncrementValue := value.2 } := by
      refine ⟨?_, fun flags => ?_⟩
      · dsimp only
        rw [List.map_append, List.foldl_append, ← follows.maxValue, List.map_singleton, List.foldl_cons, List.foldl_nil]
        split
        · rename_i less
          have less : state.maxValue.toInt < value.1.toInt := by simpa [BitVec.slt] using less
          exact (max_eq_right (le_of_lt less)).symm
        · rename_i not_less
          have le : value.1.toInt ≤ state.maxValue.toInt := by simpa [BitVec.slt] using not_less
          exact (max_eq_left le).symm
      · dsimp only
        rw [auto flags, List.getLast?_concat]
        rfl
    obtain ⟨values_eq, constants, nodup⟩ := ih next later
    refine ⟨?_, List.forall_mem_cons.mpr ⟨constant, constants⟩, fun distinct => nodup ?_⟩
    · rw [values_eq, List.foldl_cons, value_eq]
    · exact List.nodup_append.mpr ⟨distinct, List.nodup_singleton _, by
        intro a mem b mem_b
        rw [List.mem_singleton.mp mem_b]
        exact fun same => fresh (same ▸ mem)⟩

end Run

section Exact

variable {isFlags : Bool} {etors : List Enumerator} {values : List (BitVec 32)}

theorem toInt_setWidth_of_fits {constant : Constant} (fits : -2 ^ 31 ≤ constant.value ∧ constant.value < 2 ^ 31) :
    (constant.integer.setWidth 32).toInt = constant.value := by
  rw [BitVec.toInt_setWidth, Int.bmod_def]
  rw [Constant.value] at fits ⊢
  have bound := constant.integer.isLt
  split at fits
  · rename_i bigger
    rw [if_pos bigger]
    omega
  · rename_i signed
    rw [if_neg signed]
    rw [BitVec.toInt_eq_toNat_cond] at fits ⊢
    split at fits <;> omega

theorem toInt_succ_of_fits {value : BitVec 32} (fits : value.toInt + 1 < 2 ^ 31) : (value + 1).toInt = value.toInt + 1 := by
  have bound := BitVec.le_toInt (x := value)
  rw [BitVec.toInt_add, Int.bmod_def]
  have one : (1 : BitVec 32).toInt = 1 := rfl
  rw [one]
  omega

/-- A value that is taken for an enumerator, behind values that are exact. -/
theorem exactValue_eq (before : List (BitVec 32)) (etor : Enumerator)
    (constant : ∀ constant, etor.expr = some (some constant) →
      (constant.integer.setWidth 32).toInt = constant.value)
    (auto : isFlags = false → ∀ last, before.getLast? = some last → etor.expr = none →
      (last + 1).toInt = last.toInt + 1)
    (valid : etor.expr ≠ some none) :
    (typerValue isFlags before etor).toInt = exactValue isFlags (before.map BitVec.toInt) etor := by
  rw [typerValue.eq_def, exactValue.eq_def]
  cases expr : etor.expr with
  | some literal =>
    cases literal with
    | none => exact absurd expr valid
    | some literal => exact constant literal expr
  | none =>
    dsimp only
    cases isFlags with
    | true => rfl
    | false =>
      rw [if_neg Bool.false_ne_true, if_neg Bool.false_ne_true, List.getLast?_map]
      cases last_is : before.getLast? with
      | none => rfl
      | some last => exact auto rfl last last_is expr

/-- The values that are taken for enumerators are the exact ones if each one is that is behind exact ones. -/
theorem map_toInt_eq (values_eq : values = etors.foldl (fun before etor => before ++ [typerValue isFlags before etor]) [])
    (exact : ∀ (i : ℕ) (etor : Enumerator), etors[i]? = some etor →
      (values.take i).map BitVec.toInt = (exactValues isFlags etors).take i →
      (typerValue isFlags (values.take i) etor).toInt = exactValue isFlags ((values.take i).map BitVec.toInt) etor) :
    values.map BitVec.toInt = exactValues isFlags etors := by
  obtain ⟨length, value_at⟩ := getElem?_foldl_snoc (typerValue isFlags) etors
  obtain ⟨exact_length, exact_at⟩ := getElem?_foldl_snoc (exactValue isFlags) etors
  rw [← values_eq] at length value_at
  rw [← exactValues] at exact_length exact_at
  have prefixes : ∀ i ≤ etors.length, (values.take i).map BitVec.toInt = (exactValues isFlags etors).take i := by
    intro i le
    induction i with
    | zero => rfl
    | succ i ih =>
      have before := ih (by omega)
      have is := List.getElem?_eq_getElem (show i < etors.length by omega)
      rw [List.take_add_one, List.take_add_one, List.map_append, before, value_at i _ is, exact_at i _ is, ← before]
      simp only [Option.toList_some, List.map_singleton]
      rw [exact i _ is before]
  have whole := prefixes etors.length (Nat.le_refl _)
  rwa [List.take_of_length_le (by omega), List.take_of_length_le (by omega)] at whole

theorem toInt_bounds (value : BitVec 32) : -2 ^ 31 ≤ value.toInt ∧ value.toInt < 2 ^ 31 := by
  have low := BitVec.le_toInt (x := value)
  have high := BitVec.toInt_lt (x := value)
  constructor
  · simpa using low
  · simpa using high

theorem le_foldl_max {values : List ℤ} {most value : ℤ} (mem : value ∈ values ∨ value ≤ most) :
    value ≤ values.foldl max most := by
  induction values generalizing most with
  | nil => exact mem.resolve_left (List.not_mem_nil)
  | cons first values ih =>
    rw [List.foldl_cons]
    apply ih
    rcases mem with mem | le
    · rcases List.mem_cons.mp mem with rfl | mem
      · exact .inr (le_max_right _ _)
      · exact .inl mem
    · exact .inr (le_max_of_le_left le)

/-- The bit above values is in none of them that isn't negative. -/
theorem getLsbD_bitAbove {before : List (BitVec 32)} {value : BitVec 32} (mem : value ∈ before)
    (positive : 0 ≤ value.toInt) : value.getLsbD (bitAbove (before.map BitVec.toInt)) = false := by
  have le : value.toInt ≤ (before.map BitVec.toInt).foldl max 0 :=
    le_foldl_max (.inl (List.mem_map_of_mem mem))
  have toNat : value.toInt = value.toNat := by
    rw [BitVec.toInt_eq_toNat_cond] at positive ⊢
    split at positive
    · rename_i small
      rw [if_pos small]
    · have := value.isLt
      omega
  have less : value.toNat < 2 ^ bitAbove (before.map BitVec.toInt) := by
    rw [bitAbove, ← Nat.size_le]
    exact Nat.size_le_size (by omega)
  rw [BitVec.getLsbD]
  exact Nat.testBit_lt_two_pow less

theorem bitAbove_lt (before : List (BitVec 32)) : bitAbove (before.map BitVec.toInt) < 32 := by
  obtain ⟨positive, less⟩ := foldl_max_bounds before 0 (le_refl 0) (by norm_num)
  exact Nat.lt_succ_of_le (ofInt_nextBit positive less).1

theorem twoPow_inj {i j : ℕ} (i_lt : i < 32) (j_lt : j < 32) (same : BitVec.twoPow 32 i = BitVec.twoPow 32 j) : i = j := by
  have toNat := congrArg BitVec.toNat same
  rw [BitVec.toNat_twoPow_of_lt i_lt, BitVec.toNat_twoPow_of_lt j_lt] at toNat
  exact Nat.pow_right_injective (le_refl 2) toNat

/-- The enums that the typer takes are right exactly where they are plain. -/
theorem enumRight_iff (accepts : checkEnumValues isFlags {} etors = .ok values) :
    EnumRight isFlags etors values ↔ EnumPlain isFlags etors := by
  have follows : State.Follows isFlags {} := ⟨rfl, fun _ => rfl⟩
  obtain ⟨values_eq, constants, nodup⟩ := values_of_check follows accepts
  have valid : ∀ (i : ℕ) (etor : Enumerator), etors[i]? = some etor → etor.expr ≠ some none :=
    fun i etor is => constants etor (List.mem_of_getElem? is)
  obtain ⟨length, value_at⟩ := getElem?_foldl_snoc (typerValue isFlags) etors
  obtain ⟨exact_length, exact_at⟩ := getElem?_foldl_snoc (exactValue isFlags) etors
  rw [← values_eq] at length value_at
  rw [← exactValues] at exact_length exact_at
  have last_of : ∀ (j : ℕ), j < values.length → (values.take (j + 1)).getLast? = values[j]? := by
    intro j less
    rw [List.getLast?_eq_getElem?, List.length_take, Nat.min_eq_left less, Nat.succ_sub_one,
      List.getElem?_take_of_lt (Nat.lt_succ_self j)]
  have less_of : ∀ (i : ℕ) (etor : Enumerator), etors[i]? = some etor → i < values.length := by
    intro i etor is
    rw [length]
    exact (List.getElem?_eq_some_iff.mp is).1
  constructor
  · intro right
    have same : values.map BitVec.toInt = exactValues isFlags etors := by
      refine map_toInt_eq values_eq fun i etor is _ => exactValue_eq _ etor (fun constant expr => ?_) ?_ (valid i etor is)
      · have value := right.constants i etor constant _ is expr (value_at i etor is)
        rwa [typerValue_of_constant _ expr] at value
      · intro flags last last_is expr
        subst flags
        cases i with
        | zero => cases last_is
        | succ j =>
          rw [last_of j (Nat.lt_of_succ_lt (less_of _ etor is))] at last_is
          have value := right.next rfl j etor last _ is expr last_is (value_at (j + 1) etor is)
          rwa [typerValue_of_next _ expr, last_of j (Nat.lt_of_succ_lt (less_of _ etor is)), last_is] at value
    rw [← same] at exact_at
    refine ⟨?_, ?_⟩
    · rw [← same]
      intro value mem
      obtain ⟨bits, _, rfl⟩ := List.mem_map.mp mem
      exact toInt_bounds bits
    · intro flags i etor is expr before mem _
      subst flags
      rw [← same, ← List.map_take] at mem ⊢
      obtain ⟨bits, bits_mem, rfl⟩ := List.mem_map.mp mem
      obtain ⟨bit, bit_lt, value, apart⟩ := right.bits rfl i etor _ is expr (value_at i etor is)
      rw [typerValue_of_flag _ expr] at value
      rw [BitVec.ofInt_toInt, twoPow_inj (bitAbove_lt _) bit_lt value]
      exact apart bits bits_mem
  · intro plain
    have same : values.map BitVec.toInt = exactValues isFlags etors := by
      refine map_toInt_eq values_eq fun i etor is before => exactValue_eq _ etor (fun constant expr => ?_) ?_ (valid i etor is)
      · have value := exact_at i etor is
        rw [exactValue.eq_def, expr] at value
        exact toInt_setWidth_of_fits (plain.fits _ (List.mem_of_getElem? value))
      · intro flags last last_is expr
        subst flags
        have value := exact_at i etor is
        rw [← before, exactValue.eq_def, expr] at value
        simp only [Bool.false_eq_true, if_false, List.getLast?_map, last_is, Option.map_some, Option.elim_some] at value
        exact toInt_succ_of_fits (plain.fits _ (List.mem_of_getElem? value)).2
    have exact_of : ∀ (i : ℕ) (etor : Enumerator) (value : BitVec 32), etors[i]? = some etor → values[i]? = some value →
        value.toInt = exactValue isFlags ((values.take i).map BitVec.toInt) etor := by
      intro i etor value is is_value
      have at_i := exact_at i etor is
      rw [← same, List.getElem?_map, is_value, ← List.map_take] at at_i
      exact Option.some.inj at_i
    refine ⟨length, ?_, ?_, ?_, ?_, nodup List.nodup_nil⟩
    · intro i etor constant value is expr is_value
      rw [exact_of i etor value is is_value, exactValue.eq_def, expr]
    · intro flags etor value is expr is_value
      subst flags
      rw [exact_of 0 etor value is is_value, exactValue.eq_def, expr]
      rfl
    · intro flags i etor before value is expr is_before is_value
      subst flags
      have less := Nat.lt_of_succ_lt (less_of _ etor is)
      rw [exact_of (i + 1) etor value is is_value, exactValue.eq_def, expr]
      simp only [Bool.false_eq_true, if_false, List.getLast?_map, last_of i less, is_before, Option.map_some,
        Option.elim_some]
    · intro flags i etor value is expr is_value
      subst flags
      have value_eq := value_at i etor is
      rw [is_value, typerValue_of_flag _ expr] at value_eq
      refine ⟨_, bitAbove_lt (values.take i), Option.some.inj value_eq, fun before mem => ?_⟩
      by_cases negative : before.toInt < 0
      · have mem_exact : before.toInt ∈ (exactValues true etors).take i := by
          rw [← same, ← List.map_take]
          exact List.mem_map_of_mem mem
        have apart := plain.apart rfl i etor is expr before.toInt mem_exact negative
        rwa [BitVec.ofInt_toInt, ← same, ← List.map_take] at apart
      · exact getLsbD_bitAbove mem (Int.not_lt.mp negative)

/-- `enum { a, b = 5, c }` -/
theorem enumRight_iff_three :
    EnumRight false [⟨"a", none⟩, ⟨"b", some (some ⟨5, false⟩)⟩, ⟨"c", none⟩] [0, 5, 6] ↔
      EnumPlain false [⟨"a", none⟩, ⟨"b", some (some ⟨5, false⟩)⟩, ⟨"c", none⟩] :=
  enumRight_iff rfl

/-- In `enum { big = 4294967296 }` the value is 0. -/
theorem not_enumRight :
    checkEnumValues false {} [⟨"big", some (some ⟨4294967296, false⟩)⟩] = .ok [0] ∧
      ¬ EnumRight false [⟨"big", some (some ⟨4294967296, false⟩)⟩] [0] := by
  refine ⟨rfl, fun right => ?_⟩
  have value := right.constants 0 _ _ 0 rfl rfl rfl
  revert value
  decide

end Exact

end Saad.EnumValues
