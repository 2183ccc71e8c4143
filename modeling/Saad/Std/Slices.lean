import Saad.General.Indexed
import Saad.Std.Int32

/-! # Sorting a slice

`sort` of slices.sd. A slice is the list of its elements, whose number is an i64; the indices are ints.
A read or write outside of the slice has no result, and neither has a loop that never ends, which runs
with fuel. Nothing is asked of the `<` of the elements.
-/

namespace Saad

open General

variable {α : Type} (less : α → α → Bool)

def swap (elements : List α) (i j : ℤ) : Option (List α) := do
  let tmp ← elementAt elements i
  let other ← elementAt elements j
  let elements ← setElement elements i other
  setElement elements j tmp

/-- `if elements[i] < elements[j] { elements.swap(i, j); }` -/
def swapIfLess (elements : List α) (i j : ℤ) : Option (List α) := do
  let x ← elementAt elements i
  let y ← elementAt elements j
  if less x y then swap elements i j else some elements

/-- `while elements[i] < pivot` -/
def scanUp (pivot : α) : ℕ → ℤ → List α → Option ℤ
  | 0, _, _ => none
  | fuel + 1, i, elements => do
    let x ← elementAt elements i
    if less x pivot then scanUp pivot fuel (int32 (i + 1)) elements else some i

/-- `while pivot < elements[j]` -/
def scanDown (pivot : α) : ℕ → ℤ → List α → Option ℤ
  | 0, _, _ => none
  | fuel + 1, j, elements => do
    let x ← elementAt elements j
    if less pivot x then scanDown pivot fuel (int32 (j - 1)) elements else some j

/-- The loop that moves what is less than the pivot to the left of what is more. -/
def partition (pivot : α) : ℕ → ℤ × ℤ × List α → Option (ℤ × ℤ × List α)
  | 0, _ => none
  | fuel + 1, (i, j, elements) =>
    if i ≤ j then do
      let i ← scanUp less pivot fuel i elements
      let j ← scanDown less pivot fuel j elements
      if i ≤ j then do
        let elements ← swap elements i j
        partition pivot fuel (int32 (i + 1), int32 (j - 1), elements)
      else partition pivot fuel (i, j, elements)
    else some (i, j, elements)

/-- Moves what is bigger than `value` up from below `j`, and puts `value` in its place. -/
def insert (lo : ℤ) (value : α) : ℕ → ℤ → List α → Option (List α)
  | 0, _, _ => none
  | fuel + 1, j, elements =>
    if lo < j then do
      let before ← elementAt elements (int32 (j - 1))
      if less value before then do
        let elements ← setElement elements j before
        insert lo value fuel (int32 (j - 1)) elements
      else setElement elements j value
    else setElement elements j value

def insertionSort (fuel : ℕ) (lo hi : ℤ) (elements : List α) : Option (List α) :=
  (integersBetween (int32 (lo + 1)) (int32 (hi + 1))).foldlM
    (fun elements i => do
      let value ← elementAt elements i
      insert less lo value fuel i elements)
    elements

/-- Sorts `elements[lo]` to `elements[hi]`. The second result is how deep the calls are nested in this one:
the smaller half is a call, and with the bigger one the loop goes on. -/
def quickSort : ℕ → ℤ → ℤ → List α → Option (List α × ℕ)
  | 0, _, _, _ => none
  | fuel + 1, lo, hi, elements =>
    if int32 (hi - lo) > 16 then do
      let mid := int32 (lo + (int32 (hi - lo)).tdiv 2)
      let elements ← swapIfLess less elements mid lo
      let elements ← swapIfLess less elements hi lo
      let elements ← swapIfLess less elements hi mid
      let pivot ← elementAt elements mid
      let (i, j, elements) ← partition less pivot fuel (lo, hi, elements)
      if int32 (j - lo) < int32 (hi - i) then do
        let (elements, nested) ← quickSort fuel lo j elements
        let (elements, depth) ← quickSort fuel i hi elements
        some (elements, max (nested + 1) depth)
      else do
        let (elements, nested) ← quickSort fuel i hi elements
        let (elements, depth) ← quickSort fuel lo j elements
        some (elements, max (nested + 1) depth)
    else do
      let elements ← insertionSort less fuel lo hi elements
      some (elements, 0)

def sort (fuel : ℕ) (elements : List α) : Option (List α × ℕ) :=
  quickSort less fuel 0 (int32 (elements.length - 1)) elements

/-- The turns of the loop of `isSorted`. -/
def isSortedAt (elements : List α) : List ℤ → Option Bool
  | [] => some true
  | i :: rest => do
    let x ← elementAt elements i
    let before ← elementAt elements (int32 (i - 1))
    if less x before then some false else isSortedAt elements rest

def isSorted (elements : List α) : Option Bool :=
  isSortedAt less elements (integersBetween 1 (int32 elements.length))

end Saad
