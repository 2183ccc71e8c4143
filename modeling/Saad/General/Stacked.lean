import Mathlib.Data.List.Pairwise
import Mathlib.Data.Int.Notation

/-! # Areas below each other

Areas of a line that are laid out downwards: each lies below the one before it. Such areas are apart from
each other and inside of what they are laid out in.
-/

namespace Saad.General

/-- The numbers from `offset` on, as many as `size`. -/
structure Area where
  offset : ℤ
  size : ℕ
deriving DecidableEq, Repr

namespace Area

def stop (area : Area) : ℤ := area.offset + area.size

/-- The areas have no number in common, whatever their sizes are. -/
def Apart (first second : Area) : Prop := first.stop ≤ second.offset ∨ second.stop ≤ first.offset

end Area

/-- The areas go down from `top`, each below the one before it, and end at `bottom` or above. -/
inductive Stacked : ℤ → List Area → ℤ → Prop
  | nil {top bottom : ℤ} (le : bottom ≤ top) : Stacked top [] bottom
  | cons {top bottom : ℤ} {area : Area} {areas : List Area} (below : area.stop ≤ top)
      (rest : Stacked area.offset areas bottom) : Stacked top (area :: areas) bottom

namespace Stacked

variable {top middle bottom : ℤ} {areas others : List Area}

theorem le (stacked : Stacked top areas bottom) : bottom ≤ top := by
  induction stacked with
  | nil le => exact le
  | cons below _ ih =>
    simp only [Area.stop] at below
    omega

theorem weaken (stacked : Stacked middle areas bottom) (le : middle ≤ top) : Stacked top areas bottom := by
  cases stacked with
  | nil lower => exact .nil (by omega)
  | cons below rest => exact .cons (by omega) rest

theorem append (stacked : Stacked top areas middle) (rest : Stacked middle others bottom) :
    Stacked top (areas ++ others) bottom := by
  induction stacked with
  | nil le => exact rest.weaken le
  | cons below _ ih => exact .cons below (ih rest)

theorem inside (stacked : Stacked top areas bottom) {area : Area} (member : area ∈ areas) :
    bottom ≤ area.offset ∧ area.stop ≤ top := by
  induction stacked with
  | nil => exact absurd member List.not_mem_nil
  | cons below rest ih =>
    obtain rfl | member := List.mem_cons.mp member
    · exact ⟨rest.le, below⟩
    · obtain ⟨low, high⟩ := ih member
      simp only [Area.stop] at below high ⊢
      exact ⟨low, by omega⟩

theorem apart (stacked : Stacked top areas bottom) : areas.Pairwise Area.Apart := by
  induction stacked with
  | nil => exact .nil
  | cons _ rest ih => exact List.pairwise_cons.mpr ⟨fun other member => .inr (rest.inside member).2, ih⟩

end Stacked

end Saad.General
