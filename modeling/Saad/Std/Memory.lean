import Saad.Std.Text

/-! # Blocks of memory

A block is its bytes. A store behind its end is none, and what a block is when it grows is unknown.
-/

namespace Saad

section Blocks

/-- What unknown memory of a size holds at a place. -/
abbrev FreshMemory := ℕ → ℕ → BitVec 8

/-- The block with a new size, which keeps what fits of it. -/
def resizedBlock (fresh : FreshMemory) (block : Text) (size : ℕ) : Text :=
  block.take size ++ (List.range (size - block.length)).map fun place => fresh size (block.length + place)

/-- Writes the bytes at a place of a block. -/
def store (block : Text) (place : ℤ) (bytes : Text) : Option Text :=
  if 0 ≤ place ∧ place + bytes.length ≤ block.length then
    some (block.take place.toNat ++ (bytes ++ block.drop (place.toNat + bytes.length)))
  else none

variable {before behind bytes block : Text} {place : ℤ} {size : ℕ}

@[simp] theorem length_resizedBlock (fresh : FreshMemory) (block : Text) (size : ℕ) :
    (resizedBlock fresh block size).length = size := by
  simp [resizedBlock]
  omega

theorem resizedBlock_of_le (fresh : FreshMemory) (fits : block.length ≤ size) :
    ∃ behind, resizedBlock fresh block size = block ++ behind ∧ behind.length = size - block.length := by
  refine ⟨(List.range (size - block.length)).map fun place => fresh size (block.length + place), ?_, by simp⟩
  rw [resizedBlock, List.take_of_length_le fits]

theorem store_append (fits : bytes.length ≤ behind.length) :
    store (before ++ behind) before.length bytes = some (before ++ (bytes ++ behind.drop bytes.length)) := by
  have inside : (0 : ℤ) ≤ before.length ∧ (before.length : ℤ) + bytes.length ≤ (before ++ behind).length := by
    rw [List.length_append]
    omega
  rw [store, if_pos inside, Int.toNat_natCast, List.take_left, List.drop_append]
  simp

theorem length_of_store {stored : Text} (stores : store block place bytes = some stored) :
    stored.length = block.length := by
  unfold store at stores
  split at stores
  · next inside =>
    cases stores
    simp only [List.length_append, List.length_take, List.length_drop]
    omega
  · cases stores

end Blocks

end Saad
