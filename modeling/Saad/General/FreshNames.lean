import Saad.General.Probing

/-! # Texts in buffers, and names that are not taken

A buffer cuts a text that is too long for it. A search that tries one candidate after the other finds
a name that is not taken as long as the cuts leave enough of them apart.
-/

namespace Saad.General

section Buffers

variable {α : Type*} {size : ℕ} {text more other : List α}

/-- What a buffer of `size` bytes holds of a text, with the byte that ends it. -/
def cut (size : ℕ) (text : List α) : List α := text.take (size - 1)

theorem cut_of_fits (fits : text.length < size) : cut size text = text := by
  apply List.take_of_length_le
  omega

theorem length_cut (size : ℕ) (text : List α) : (cut size text).length = min (size - 1) text.length :=
  List.length_take

theorem length_cut_of_full (full : size ≤ text.length + 1) : (cut size text).length = size - 1 := by
  rw [length_cut]
  omega

/-- Of two texts behind each other, the buffer cuts the second at what the first leaves of it. -/
theorem cut_append (fits : text.length < size) :
    cut size (text ++ more) = text ++ more.take (size - 1 - text.length) := by
  rw [cut, List.take_append, List.take_of_length_le (by omega)]

end Buffers

section Search

variable {α : Type*} {taken : List α} {candidate : ℕ → α}

/-- Among more candidates than names are taken, one is free. -/
theorem exists_free [DecidableEq α] (apart : Set.InjOn candidate (Set.Iic taken.length)) :
    ∃ n ≤ taken.length, candidate n ∉ taken := by
  by_contra all_taken
  push Not at all_taken
  let candidates := (Finset.range (taken.length + 1)).image candidate
  have subset : candidates ⊆ taken.toFinset := by
    intro name member
    obtain ⟨n, lt, rfl⟩ := Finset.mem_image.mp member
    rw [Finset.mem_range] at lt
    exact List.mem_toFinset.mpr (all_taken n (by omega))
  have count : candidates.card = taken.length + 1 := by
    rw [Finset.card_image_of_injOn, Finset.card_range]
    intro first first_lt second second_lt equal
    rw [Finset.coe_range, Set.mem_Iio] at first_lt second_lt
    exact apart (Set.mem_Iic.mpr (by omega)) (Set.mem_Iic.mpr (by omega)) equal
  have := Finset.card_le_card subset
  have := taken.toFinset_card_le
  omega

end Search

end Saad.General
