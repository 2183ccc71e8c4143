import Saad.Std.StringBuilder

/-! # Builders of texts are sound

A builder has no memory yet, or memory of a valid size. Whatever is added it stays so, and so its text is
always below 1 GiB.
-/

namespace Saad.StringBuilder

open General

section Sound

variable {sb grown : StringBuilder} {s : Text} {c : BitVec 8}

/-- A builder without memory, or with memory of a valid size. -/
def Sound (sb : StringBuilder) : Prop := sb = ⟨[], 0⟩ ∨ sb.Valid

theorem Sound.length_lt (sound : sb.Sound) : sb.text.length < 2 ^ 30 := by
  obtain rfl | valid := sound
  · decide
  · exact valid.length_lt

theorem Sound.capacity (sound : sb.Sound) :
    sb.capacity = 0 ∨ ∃ exponent, 4 ≤ exponent ∧ exponent ≤ 30 ∧ sb.capacity = 2 ^ exponent := by
  obtain rfl | valid := sound
  · exact .inl rfl
  · exact .inr valid.capacity

/-- A capacity that is enough for something is a power of two. -/
theorem growUntil_power {exponent : ℕ} {needed capacity : ℤ} (ge : 4 ≤ exponent) (le : exponent ≤ 30)
    (grows : growUntil needed (2 ^ exponent) = some capacity) :
    ∃ last, 4 ≤ last ∧ last ≤ 30 ∧ capacity = 2 ^ last := by
  by_cases fits : needed ≤ 2 ^ 30
  · obtain ⟨last, first_le, last_le, runs, -⟩ := growUntil_of_fits le fits
    rw [runs] at grows
    cases grows
    exact ⟨last, by omega, last_le, rfl⟩
  · rw [growUntil_of_not_fits le (by omega)] at grows
    cases grows

theorem Sound.reserve_capacity {extra : ℤ} (sound : sb.Sound) (reserves : sb.reserve extra = some grown) :
    grown.capacity = 0 ∨ ∃ exponent, 4 ≤ exponent ∧ exponent ≤ 30 ∧ grown.capacity = 2 ^ exponent := by
  unfold reserve at reserves
  dsimp only at reserves
  split at reserves
  · cases reserves
    exact sound.capacity
  · obtain ⟨capacity, grows, rfl⟩ := Option.map_eq_some_iff.mp reserves
    have sixteen : (16 : ℤ) = 2 ^ 4 := by decide
    obtain none | ⟨exponent, ge, le, is⟩ := sound.capacity
    · rw [none, if_pos (by decide), sixteen] at grows
      exact .inr (growUntil_power le_rfl (by decide) grows)
    · rw [is] at grows
      by_cases small : exponent < 30
      · rw [double_power small] at grows
        split at grows
        · rw [sixteen] at grows
          exact .inr (growUntil_power le_rfl (by decide) grows)
        · exact .inr (growUntil_power (by omega) (by omega) grows)
      · obtain rfl : exponent = 30 := by omega
        rw [if_pos (by decide), sixteen] at grows
        exact .inr (growUntil_power le_rfl (by decide) grows)

theorem write_text {bytes : Text} (writes : sb.write bytes = some grown) : grown.text = sb.text ++ bytes := by
  unfold write at writes
  split at writes
  · cases writes
    rfl
  · cases writes

/-- What is written behind a reserved place leaves a sound builder. -/
theorem Sound.written {extra : ℤ} {more : StringBuilder} {bytes : Text} (sound : sb.Sound)
    (reserves : sb.reserve extra = some more) (writes : more.write bytes = some grown) : grown.Sound := by
  unfold write at writes
  split at writes
  · next room =>
    cases writes
    obtain none | power := sound.reserve_capacity reserves
    · omega
    · exact .inr ⟨power, by rw [List.length_append]; push_cast; exact room⟩
  · cases writes

/-- Whatever is added, the builder stays sound. -/
theorem Sound.addString (sound : sb.Sound) (adds : sb.addString s = some grown) : grown.Sound := by
  unfold StringBuilder.addString at adds
  dsimp only at adds
  split at adds
  · cases adds
    exact sound
  · obtain ⟨more, reserves, writes⟩ := Option.bind_eq_some_iff.mp adds
    exact sound.written reserves writes

/-- A text that fits is added. -/
theorem Sound.addString_of_fits (sound : sb.Sound) (fits : sb.text.length + s.length < 2 ^ 30) :
    ∃ grown, sb.addString s = some grown ∧ grown.Sound ∧ grown.text = sb.text ++ s := by
  obtain rfl | valid := sound
  · obtain ⟨grown, adds, text⟩ := @StringBuilder.addString_empty s (by simpa using fits)
    exact ⟨grown, adds, Sound.addString (.inl rfl) adds, text⟩
  · obtain ⟨grown, adds, grownValid, text⟩ := (valid.addString (s := s) (by omega)).1 fits
    exact ⟨grown, adds, .inr grownValid, text⟩

theorem Sound.addChar (sound : sb.Sound) (adds : sb.addChar c = some grown) : grown.Sound := by
  obtain ⟨more, reserves, writes⟩ := Option.bind_eq_some_iff.mp adds
  exact sound.written reserves writes

/-- A character that fits is added. -/
theorem Sound.addChar_of_fits (sound : sb.Sound) (fits : sb.text.length + 1 < 2 ^ 30) :
    ∃ grown, sb.addChar c = some grown ∧ grown.Sound ∧ grown.text = sb.text ++ [c] := by
  obtain rfl | valid := sound
  · obtain ⟨more, reserves, moreValid, text, room⟩ := @reserve_empty 1 (by decide) (by decide)
    have adds : StringBuilder.addChar ⟨[], 0⟩ c = some { more with text := more.text ++ [c] } := by
      unfold StringBuilder.addChar
      rw [reserves]
      exact if_pos (by rw [text]; exact room)
    exact ⟨_, adds, Sound.addChar (.inl rfl) adds, by rw [text]⟩
  · obtain ⟨grown, adds, grownValid, text⟩ := (valid.addChar c).1 fits
    exact ⟨grown, adds, .inr grownValid, text⟩

/-- Characters that are added one after another. -/
theorem Sound.addChars {cs : Text} (sound : sb.Sound) (adds : cs.foldlM StringBuilder.addChar sb = some grown) :
    grown.Sound ∧ grown.text = sb.text ++ cs := by
  induction cs generalizing sb with
  | nil =>
    cases adds
    exact ⟨sound, (List.append_nil _).symm⟩
  | cons c cs ih =>
    rw [List.foldlM_cons] at adds
    obtain ⟨next, first, others⟩ := Option.bind_eq_some_iff.mp adds
    obtain ⟨grownSound, text⟩ := ih (sound.addChar first) others
    obtain ⟨more, reserves, writes⟩ := Option.bind_eq_some_iff.mp first
    refine ⟨grownSound, ?_⟩
    rw [text, write_text writes, reserve_text reserves, List.append_assoc]
    rfl

theorem Sound.addChars_of_fits {cs : Text} (sound : sb.Sound) (fits : sb.text.length + cs.length < 2 ^ 30) :
    ∃ grown, cs.foldlM StringBuilder.addChar sb = some grown := by
  induction cs generalizing sb with
  | nil => exact ⟨sb, rfl⟩
  | cons c cs ih =>
    rw [List.length_cons] at fits
    obtain ⟨next, adds, nextSound, text⟩ := sound.addChar_of_fits (c := c) (by omega)
    obtain ⟨grown, others⟩ := ih nextSound (by rw [text, List.length_append, List.length_singleton]; omega)
    exact ⟨grown, by rw [List.foldlM_cons, adds]; exact others⟩

end Sound

section New

variable {n : ℤ} {sb : StringBuilder}

/-- A builder that is new has no text, and room for what it was made for. -/
theorem sound_newStringBuilder (makes : newStringBuilder n = some sb) : sb.Sound ∧ sb.text = [] := by
  unfold newStringBuilder at makes
  have text : sb.text = [] := reserve_text makes
  refine ⟨?_, text⟩
  by_cases same : sb = ⟨[], 0⟩
  · exact .inl same
  · obtain none | power := Sound.reserve_capacity (.inl rfl) makes
    · exfalso
      apply same
      cases sb
      dsimp only at text none
      rw [text, none]
    · refine .inr ⟨power, ?_⟩
      obtain ⟨exponent, -, -, is⟩ := power
      rw [text, is]
      exact pow_pos (by decide) exponent

theorem exists_newStringBuilder (low : -2 ^ 31 < n) (high : n + 1 ≤ 2 ^ 30) :
    ∃ sb, newStringBuilder n = some sb := by
  have needed : int32 (([] : Text).length + n + 1) = n + 1 := by
    rw [List.length_nil, Nat.cast_zero, Int.zero_add]
    exact int32_of_fits (by omega) (by omega)
  unfold newStringBuilder StringBuilder.reserve
  rw [needed]
  dsimp only
  split
  · exact ⟨_, rfl⟩
  · obtain ⟨last, -, -, runs, -⟩ := @growUntil_of_fits 4 (n + 1) (by decide) high
    rw [if_pos (by decide), show (16 : ℤ) = 2 ^ 4 by decide, runs]
    exact ⟨_, rfl⟩

/-- The loop that doubles the capacity doesn't end for more than 1 GiB. -/
theorem newStringBuilder_eq_none (low : 2 ^ 30 < n + 1) (high : n + 1 < 2 ^ 31) : newStringBuilder n = none := by
  have needed : int32 (([] : Text).length + n + 1) = n + 1 := by
    rw [List.length_nil, Nat.cast_zero, Int.zero_add]
    exact int32_of_fits (by omega) (by omega)
  unfold newStringBuilder StringBuilder.reserve
  rw [needed]
  dsimp only
  rw [if_neg (by omega), if_pos (by decide), show (16 : ℤ) = 2 ^ 4 by decide, growUntil_of_not_fits (by decide) low]
  rfl

end New

end Saad.StringBuilder
