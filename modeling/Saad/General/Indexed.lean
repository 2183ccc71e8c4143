import Mathlib.Algebra.Group.End
import Mathlib.Data.List.Nodup

/-! # Lists by index

An index is an integer that can be outside of the list. A range of a list is rearranged when its
elements are moved within it and all others stay where they are.
-/

namespace Saad.General

section Elements

variable {α : Type*} {xs : List α} {i k : ℤ} {x : α}

/-- The element at an index. -/
def elementAt (xs : List α) (i : ℤ) : Option α := if 0 ≤ i then xs[i.toNat]? else none

/-- The list with another element at an index. -/
def setElement (xs : List α) (i : ℤ) (x : α) : Option (List α) :=
  if 0 ≤ i ∧ i < xs.length then some (xs.set i.toNat x) else none

theorem elementAt_eq_getElem? (low : 0 ≤ i) : elementAt xs i = xs[i.toNat]? := if_pos low

theorem elementAt_natCast (n : ℕ) : elementAt xs n = xs[n]? := by
  rw [elementAt_eq_getElem? (Int.natCast_nonneg n), Int.toNat_natCast]

theorem exists_elementAt (low : 0 ≤ i) (high : i < xs.length) : ∃ x, elementAt xs i = some x := by
  rw [elementAt_eq_getElem? low]
  exact ⟨_, List.getElem?_eq_getElem (by omega)⟩

theorem inside_of_elementAt (found : elementAt xs i = some x) : 0 ≤ i ∧ i < xs.length := by
  rw [elementAt] at found
  split at found
  · obtain ⟨inside, -⟩ := List.getElem?_eq_some_iff.mp found
    omega
  · cases found

theorem setElement_eq (low : 0 ≤ i) (high : i < xs.length) (x : α) :
    setElement xs i x = some (xs.set i.toNat x) := if_pos ⟨low, high⟩

theorem elementAt_set (low : 0 ≤ i) (high : i < xs.length) (x : α) (k : ℤ) :
    elementAt (xs.set i.toNat x) k = if k = i then some x else elementAt xs k := by
  by_cases same : k = i
  · subst same
    rw [elementAt_eq_getElem? low, List.getElem?_set_self (by omega), if_pos rfl]
  · rw [if_neg same, elementAt, elementAt]
    split
    · rw [List.getElem?_set_ne (by omega)]
    · rfl

/-- A list with its own element at an index. -/
theorem set_elementAt (found : elementAt xs i = some x) : xs.set i.toNat x = xs := by
  have low := (inside_of_elementAt found).1
  rw [elementAt_eq_getElem? low] at found
  obtain ⟨inside, rfl⟩ := List.getElem?_eq_some_iff.mp found
  exact List.set_getElem_self inside

end Elements

section Between

variable {start stop : ℤ}

/-- The integers from `start` on, in front of `stop`. -/
def integersBetween (start stop : ℤ) : List ℤ := (List.range (stop - start).toNat).map fun n : ℕ => start + n

theorem integersBetween_of_le (le : stop ≤ start) : integersBetween start stop = [] := by
  rw [integersBetween, show (stop - start).toNat = 0 by omega]
  rfl

theorem integersBetween_cons (lt : start < stop) :
    integersBetween start stop = start :: integersBetween (start + 1) stop := by
  rw [integersBetween, integersBetween, show (stop - start).toNat = (stop - (start + 1)).toNat + 1 by omega,
    List.range_succ_eq_map, List.map_cons, List.map_map]
  congr 1
  · omega
  · apply List.map_congr_left
    intro n _
    simp only [Function.comp_apply, Nat.succ_eq_add_one]
    omega

theorem length_integersBetween (start stop : ℤ) : (integersBetween start stop).length = (stop - start).toNat := by
  rw [integersBetween, List.length_map, List.length_range]

/-- Integers that are there say where they begin and end. -/
theorem integersBetween_inj {start' stop' : ℤ} (lt : start < stop)
    (same : integersBetween start stop = integersBetween start' stop') : start = start' ∧ stop = stop' := by
  have lengths := congrArg List.length same
  rw [length_integersBetween, length_integersBetween] at lengths
  rw [integersBetween_cons lt, integersBetween_cons (show start' < stop' by omega)] at same
  have first := (List.cons.inj same).1
  omega

end Between

section Rearranged

variable {α : Type*} {xs ys zs : List α} {lo hi i j k : ℤ} {x y : α}

/-- The elements from `lo` to `hi` are moved among each other. -/
structure Rearranged (lo hi : ℤ) (xs ys : List α) : Prop where
  perm : xs.Perm ys
  moves : ∃ source : Equiv.Perm ℤ, (∀ k, k < lo ∨ hi < k → source k = k) ∧
    ∀ k, elementAt ys k = elementAt xs (source k)

namespace Rearranged

theorem refl (lo hi : ℤ) (xs : List α) : Rearranged lo hi xs xs :=
  ⟨.refl xs, 1, fun _ _ => rfl, fun _ => rfl⟩

theorem trans (first : Rearranged lo hi xs ys) (second : Rearranged lo hi ys zs) : Rearranged lo hi xs zs := by
  obtain ⟨firstPerm, firstSource, firstFixed, firstMoves⟩ := first
  obtain ⟨secondPerm, secondSource, secondFixed, secondMoves⟩ := second
  refine ⟨firstPerm.trans secondPerm, firstSource * secondSource, fun k outside => ?_, fun k => ?_⟩
  · rw [Equiv.Perm.mul_apply, secondFixed k outside, firstFixed k outside]
  · rw [secondMoves, firstMoves, Equiv.Perm.mul_apply]

theorem mono {less more : ℤ} (rearranged : Rearranged lo hi xs ys) (low : less ≤ lo) (high : hi ≤ more) :
    Rearranged less more xs ys := by
  obtain ⟨perm, source, fixed, moves⟩ := rearranged
  exact ⟨perm, source, fun k outside => fixed k (by omega), moves⟩

theorem length_eq (rearranged : Rearranged lo hi xs ys) : ys.length = xs.length :=
  rearranged.perm.length_eq.symm

theorem elementAt_outside (rearranged : Rearranged lo hi xs ys) (outside : k < lo ∨ hi < k) :
    elementAt ys k = elementAt xs k := by
  obtain ⟨-, source, fixed, moves⟩ := rearranged
  rw [moves, fixed k outside]

/-- An element of the range was in the range. -/
theorem exists_source (rearranged : Rearranged lo hi xs ys) (low : lo ≤ k) (high : k ≤ hi) :
    ∃ before, lo ≤ before ∧ before ≤ hi ∧ elementAt ys k = elementAt xs before := by
  obtain ⟨-, source, fixed, moves⟩ := rearranged
  by_cases inside : lo ≤ source k ∧ source k ≤ hi
  · exact ⟨source k, inside.1, inside.2, moves k⟩
  · have stays : source k = k := source.injective (fixed (source k) (by omega))
    omega

/-- What holds of all elements of a range that holds the rearranged one. -/
theorem forall_range {less more : ℤ} {p : α → Prop} (rearranged : Rearranged lo hi xs ys)
    (low : less ≤ lo) (high : hi ≤ more)
    (all : ∀ k x, less ≤ k → k ≤ more → elementAt xs k = some x → p x) :
    ∀ k x, less ≤ k → k ≤ more → elementAt ys k = some x → p x := by
  intro k x from_ upTo found
  by_cases outside : k < lo ∨ hi < k
  · rw [rearranged.elementAt_outside outside] at found
    exact all k x from_ upTo found
  · have inside : lo ≤ k ∧ k ≤ hi := by omega
    obtain ⟨before, after, until_, same⟩ := rearranged.exists_source inside.1 inside.2
    rw [same] at found
    exact all before x (by omega) (by omega) found

/-- Two elements change places. -/
theorem swap (atI : elementAt xs i = some x) (atJ : elementAt xs j = some y) (lowI : lo ≤ i) (highI : i ≤ hi)
    (lowJ : lo ≤ j) (highJ : j ≤ hi) : Rearranged lo hi xs ((xs.set i.toNat y).set j.toNat x) := by
  have insideI := inside_of_elementAt atI
  have insideJ := inside_of_elementAt atJ
  have second : j < (xs.set i.toNat y).length := by
    rw [List.length_set]
    exact insideJ.2
  constructor
  case perm =>
    have xIs := atI
    have yIs := atJ
    rw [elementAt_eq_getElem? insideI.1] at xIs
    rw [elementAt_eq_getElem? insideJ.1] at yIs
    obtain ⟨inI, rfl⟩ := List.getElem?_eq_some_iff.mp xIs
    obtain ⟨inJ, rfl⟩ := List.getElem?_eq_some_iff.mp yIs
    exact (List.set_set_perm inI inJ).symm
  case moves =>
    refine ⟨Equiv.swap i j, fun k outside => Equiv.swap_apply_of_ne_of_ne (by omega) (by omega), fun k => ?_⟩
    rw [elementAt_set insideJ.1 second, elementAt_set insideI.1 insideI.2, Equiv.swap_apply_def]
    by_cases isJ : k = j
    · subst isJ
      rw [if_pos rfl, if_pos rfl]
      split_ifs with same
      · rw [same, atI]
      · exact atI.symm
    · rw [if_neg isJ, if_neg isJ]
      split_ifs
      · exact atJ.symm
      · rfl

/-- The first elements of moved ones come from different positions. -/
theorem positions (moved : Rearranged lo hi xs ys) {count : ℕ} (inside : count ≤ ys.length) :
    ∃ positions : List ℤ, positions.length = count ∧ positions.Nodup ∧
      positions.map (elementAt xs) = (ys.take count).map some := by
  obtain ⟨-, source, -, moves⟩ := moved
  refine ⟨(List.range count).map fun n : ℕ => source n, ?_, ?_, ?_⟩
  · rw [List.length_map, List.length_range]
  · apply List.Nodup.map _ List.nodup_range
    intro m n same
    exact_mod_cast source.injective same
  · apply List.ext_getElem?
    intro n
    rw [List.map_map, List.getElem?_map, List.getElem?_map, List.getElem?_take]
    by_cases early : n < count
    · rw [List.getElem?_range early, if_pos early, List.getElem?_eq_getElem (by omega)]
      simp only [Option.map_some, Function.comp_apply]
      rw [← moves, elementAt_natCast, List.getElem?_eq_getElem (by omega)]
    · rw [if_neg early, List.getElem?_eq_none (by rw [List.length_range]; omega)]
      rfl

end Rearranged

end Rearranged

section Sorted

variable {α : Type*} {less : α → α → Bool} {xs ys : List α} {lo hi i j : ℤ}

/-- No element from `lo` to `hi` is less than one before it. -/
def SortedOn (less : α → α → Bool) (lo hi : ℤ) (xs : List α) : Prop :=
  ∀ a b x y, lo ≤ a → a < b → b ≤ hi → elementAt xs a = some x → elementAt xs b = some y → less y x = false

theorem sortedOn_of_le (le : hi ≤ lo) : SortedOn less lo hi xs := by
  intro a b x y low before high
  omega

theorem SortedOn.congr (sorted : SortedOn less lo hi xs)
    (same : ∀ k, lo ≤ k → k ≤ hi → elementAt ys k = elementAt xs k) : SortedOn less lo hi ys := by
  intro a b x y low before high atA atB
  rw [same a low (by omega)] at atA
  rw [same b (by omega) high] at atB
  exact sorted a b x y low before high atA atB

/-- A strict weak order goes through an element that is between two. -/
theorem less_eq_false_trans [weak : IsStrictWeakOrder α fun x y => less x y = true] {x y z : α}
    (first : less x y = false) (second : less y z = false) : less x z = false := by
  by_contra found
  rw [Bool.not_eq_false] at found
  by_cases below : less y x = true
  · have through := weak.trans y x z below found
    rw [second] at through
    cases through
  · by_cases above : less z y = true
    · have through := weak.trans x z y found above
      rw [first] at through
      cases through
    · have apart := weak.incomp_trans x y z ⟨by simp [first], below⟩ ⟨by simp [second], above⟩
      exact apart.1 found

/-- Two ranges in order, and what is not over `pivot` before what is not under it. -/
theorem SortedOn.append [IsStrictWeakOrder α fun x y => less x y = true] {pivot : α} (left : SortedOn less lo j xs)
    (right : SortedOn less i hi xs)
    (below : ∀ k x, lo ≤ k → k < i → elementAt xs k = some x → less pivot x = false)
    (above : ∀ k x, j < k → k ≤ hi → elementAt xs k = some x → less x pivot = false) : SortedOn less lo hi xs := by
  intro a b x y low before high atA atB
  by_cases onLeft : b ≤ j
  · exact left a b x y low before onLeft atA atB
  · by_cases onRight : i ≤ a
    · exact right a b x y onRight before high atA atB
    · exact less_eq_false_trans (above b y (by omega) high atB) (below a x low (by omega) atA)

end Sorted

end Saad.General
