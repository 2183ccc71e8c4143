import Saad.Json.ParseStrings

/-! # Surrogates that the parser keeps together

Behind a high surrogate the parser takes the next escape with it, so it reads a run of high ones two by
two. A low one belongs to the last of the run, which is still there to be read if the run is odd.
-/

namespace Saad.Json

section Pairs

variable {parts : List Part} {text : Text} {n : ℕ}

/-- Every low surrogate is behind an odd run of high ones, or behind none. The number counts the high
ones directly in front. -/
def PairsKept : ℕ → List Part → Prop
  | _, [] => True
  | _, .byte _ :: parts => PairsKept 0 parts
  | run, .unit n :: parts =>
    if IsHigh n then PairsKept (run + 1) parts
    else (IsLow n → run = 0 ∨ run % 2 = 1) ∧ PairsKept 0 parts

def NoLowFirst (parts : List Part) : Prop := ∀ m ∈ parts.head?, ∀ n, m = .unit n → ¬IsLow n

theorem IsHigh.not_low (high : IsHigh n) : ¬IsLow n := by
  rintro ⟨low, -⟩
  exact absurd (lt_of_lt_of_le high.2 low) (lt_irrefl _)

theorem pairsKept_high (run : ℕ) (high : IsHigh n) :
    PairsKept run (.unit n :: parts) ↔ PairsKept (run + 1) parts := by
  rw [PairsKept, if_pos high]

theorem pairsKept_other (run : ℕ) (other : ¬IsHigh n) :
    PairsKept run (.unit n :: parts) ↔ (IsLow n → run = 0 ∨ run % 2 = 1) ∧ PairsKept 0 parts := by
  rw [PairsKept, if_neg other]

/-- A longer run is as good, if it is one of the same kind. -/
theorem PairsKept.longer {run : ℕ} (kept : PairsKept run parts) (runs : run ≠ 0 ∨ NoLowFirst parts) :
    PairsKept (run + 2) parts := by
  induction parts generalizing run with
  | nil => trivial
  | cons part parts ih =>
    cases part with
    | byte b => exact kept
    | unit n =>
      by_cases high : IsHigh n
      · rw [pairsKept_high _ high] at kept ⊢
        exact ih kept (.inl (Nat.succ_ne_zero _))
      · rw [pairsKept_other _ high] at kept ⊢
        refine ⟨fun low => ?_, kept.2⟩
        have before := kept.1 low
        obtain nonzero | no_low := runs
        · omega
        · exact absurd low (no_low _ rfl n rfl)

/-- Behind an even run nothing of it is left to combine. -/
theorem PairsKept.noLowFirst {run : ℕ} (kept : PairsKept (run + 2) parts) (even : run % 2 = 0) :
    NoLowFirst parts := by
  rintro m member n rfl low
  cases parts with
  | nil => cases member
  | cons part parts =>
    obtain rfl := Option.some.inj member
    rw [pairsKept_other _ (fun high => high.not_low low)] at kept
    have odd := kept.1 low
    omega

theorem PairsKept.replaced {run : ℕ} (kept : PairsKept run parts) (even : run % 2 = 0) :
    Replaced parts (replaceUnits parts) := by
  fun_induction replaceUnits parts generalizing run with
  | case1 => exact .nil
  | case2 b parts ih => exact .byte b parts _ (ih kept rfl)
  | case3 high low parts is_high is_low ih =>
    rw [pairsKept_high _ is_high, pairsKept_other _ (fun high => high.not_low is_low)] at kept
    exact .pair high low parts _ is_high is_low (ih kept.2 rfl)
  | case4 high low parts is_high no_low ih =>
    rw [pairsKept_high _ is_high] at kept
    rw [List.append_assoc]
    refine .alone high _ _ _ (.inl is_high) ?_ (.inl rfl) ?_
    · rintro - m member n rfl
      obtain ⟨⟩ := Option.some.inj member
      exact no_low
    · by_cases again : IsHigh low
      · rw [pairsKept_high _ again] at kept
        exact .alone low parts _ _ (.inl again) (fun _ => kept.noLowFirst even) (.inr rfl)
          (ih kept (by omega))
      · rw [pairsKept_other _ again] at kept
        exact .unit low parts _ again no_low (ih kept.2 rfl)
  | case5 high low parts no_high ih =>
    rw [pairsKept_other _ no_high] at kept
    by_cases is_low : IsLow high
    · exact .alone high _ _ _ (.inr is_low) (fun is_high => absurd is_high no_high) (.inr rfl)
        (ih kept.2 rfl)
    · exact .unit high _ _ no_high is_low (ih kept.2 rfl)
  | case6 n parts no_unit ih =>
    have no_low : NoLowFirst parts := by
      rintro m member low rfl
      cases parts with
      | nil => cases member
      | cons part parts =>
        obtain rfl := Option.some.inj member
        exact absurd rfl (no_unit low parts)
    by_cases high : IsHigh n
    · have behind : PairsKept 0 parts := by
        rw [pairsKept_high _ high] at kept
        cases parts with
        | nil => trivial
        | cons part parts =>
          cases part with
          | byte b => exact kept
          | unit low => exact absurd rfl (no_unit low parts)
      exact .alone n parts _ _ (.inl high) (fun _ => no_low) (.inr rfl) (ih behind rfl)
    · rw [pairsKept_other _ high] at kept
      by_cases low : IsLow n
      · exact .alone n parts _ _ (.inr low) (fun is_high => absurd is_high high) (.inr rfl)
          (ih kept.2 rfl)
      · exact .unit n parts _ high low (ih kept.2 rfl)

end Pairs

section Lengths

variable {parts : List Part} {text : Text} {n : ℕ}

theorem length_utf8_surrogate (alone : IsHigh n ∨ IsLow n) : (utf8 n).length = 3 := by
  have bounds : 0xD800 ≤ n ∧ n < 0xE000 := by
    obtain ⟨_, _⟩ | ⟨_, _⟩ := alone <;> omega
  rw [utf8, if_neg (by omega), if_neg (by omega), if_pos (by omega)]
  rfl

theorem length_utf8_pair {high low : ℕ} (is_high : IsHigh high) (is_low : IsLow low) :
    (utf8 (pairCode high low)).length = 4 := by
  obtain ⟨_, _⟩ := is_high
  obtain ⟨_, _⟩ := is_low
  have big : 0x10000 ≤ pairCode high low := by
    unfold pairCode
    omega
  rw [utf8, if_neg (by omega), if_neg (by omega), if_neg (by omega)]
  rfl

/-- What a high surrogate and the unit behind it are replaced by. -/
theorem replaceUnits_apart {high low : ℕ} (is_high : IsHigh high) (no_low : ¬IsLow low) :
    replaceUnits (.unit high :: .unit low :: parts) =
      utf8 0xFFFD ++ utf8 low ++ replaceUnits parts := by
  rw [replaceUnits, if_pos is_high, if_neg no_low]

/-- The parser never adds less than it should, and it adds more if it takes a pair apart. -/
theorem Replaced.length_le (replaced : Replaced parts text) :
    text.length ≤ (replaceUnits parts).length ∧
      (text.length = (replaceUnits parts).length → PairsKept 0 parts) := by
  have length_replacement : (utf8 0xFFFD).length = 3 := by decide
  induction size : parts.length using Nat.strong_induction_on generalizing parts text with
  | _ size ih =>
    cases replaced with
    | nil => exact ⟨Nat.le_refl _, fun _ => trivial⟩
    | byte b parts text replaced =>
      obtain ⟨le, kept⟩ := ih _ (by simp [← size]) replaced rfl
      rw [replaceUnits_byte]
      simp only [List.length_cons]
      exact ⟨by omega, fun same => kept (by omega)⟩
    | unit n parts text no_high no_low replaced =>
      obtain ⟨le, kept⟩ := ih _ (by simp [← size]) replaced rfl
      rw [replaceUnits_unit fun high => absurd high no_high, pairsKept_other _ no_high]
      simp only [List.length_append]
      exact ⟨by omega, fun same => ⟨fun low => absurd low no_low, kept (by omega)⟩⟩
    | pair high low parts text is_high is_low replaced =>
      obtain ⟨le, kept⟩ := ih _ (by simp only [← size, List.length_cons]; omega) replaced rfl
      rw [replaceUnits, if_pos is_high, if_pos is_low, pairsKept_high _ is_high,
        pairsKept_other _ fun high => high.not_low is_low]
      simp only [List.length_append]
      exact ⟨by omega, fun same => ⟨fun _ => .inr trivial, kept (by omega)⟩⟩
    | alone n parts replacement text surrogate apart replacement_eq replaced =>
      have length_alone : replacement.length = 3 := by
        obtain rfl | rfl := replacement_eq
        · exact length_replacement
        · exact length_utf8_surrogate surrogate
      obtain ⟨le, kept⟩ := ih _ (by simp [← size]) replaced rfl
      by_cases high : IsHigh n
      · rw [pairsKept_high _ high]
        cases parts with
        | nil =>
          rw [replaceUnits_unit (by simp)]
          simp only [List.length_append, length_utf8_surrogate surrogate, length_alone]
          exact ⟨by omega, fun _ => trivial⟩
        | cons part behind =>
          cases part with
          | byte b =>
            rw [replaceUnits_unit (by simp)]
            simp only [List.length_append, length_utf8_surrogate surrogate, length_alone]
            exact ⟨by omega, fun same => kept (by omega)⟩
          | unit m =>
            have no_low : ¬IsLow m := apart high _ rfl m rfl
            rw [replaceUnits_apart high no_low]
            simp only [List.length_append, length_replacement, length_alone]
            by_cases again : IsHigh m
            · rw [pairsKept_high _ again]
              cases replaced with
              | unit _ _ _ no_high => exact absurd again no_high
              | pair _ low behind text _ is_low replaced =>
                -- The parser has read `m`, so that `low` is alone.
                obtain ⟨le, -⟩ := ih _ (by simp only [← size, List.length_cons]; omega) replaced rfl
                rw [replaceUnits_unit fun high => absurd is_low high.not_low]
                simp only [List.length_append, length_utf8_pair again is_low,
                  length_utf8_surrogate (.inl again), length_utf8_surrogate (.inr is_low)]
                exact ⟨by omega, fun same => by omega⟩
              | alone _ _ replacement text _ apart replacement_eq replaced =>
                have length_second : replacement.length = 3 := by
                  obtain rfl | rfl := replacement_eq
                  · exact length_replacement
                  · exact length_utf8_surrogate (.inl again)
                obtain ⟨le, kept⟩ := ih _ (by simp only [← size, List.length_cons]; omega) replaced rfl
                simp only [List.length_append, length_second, length_utf8_surrogate (.inl again)]
                exact ⟨by omega, fun same => (kept (by omega)).longer (.inr (apart again))⟩
            · rw [replaceUnits_unit fun high => absurd high again, List.length_append] at le kept
              rw [pairsKept_other _ again] at kept ⊢
              exact ⟨by omega, fun same => ⟨fun low => absurd low no_low, (kept (by omega)).2⟩⟩
      · rw [replaceUnits_unit fun is_high => absurd is_high high, pairsKept_other _ high]
        simp only [List.length_append, length_utf8_surrogate surrogate, length_alone]
        exact ⟨by omega, fun same => ⟨fun _ => .inl trivial, kept (by omega)⟩⟩

/-- The parser replaces the escapes of a string as they should be, if it keeps the pairs. -/
theorem replaced_replaceUnits_iff : Replaced parts (replaceUnits parts) ↔ PairsKept 0 parts := by
  constructor
  · intro replaced
    exact replaced.length_le.2 rfl
  · intro kept
    exact kept.replaced rfl

end Lengths

end Saad.Json
