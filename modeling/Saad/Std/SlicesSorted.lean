import Mathlib.Data.Nat.Log
import Saad.General.Fuel
import Saad.Std.Slices

/-! # What sorting leaves behind

The inner loops of the partition stay inside of the range as the median of three, and later the elements
that were swapped, stop them. Only a strict weak order gives a sorted slice, but every irreflexive `<`
gives the same elements in some order.
-/

namespace Saad

open General

section Swaps

variable {α : Type} {less : α → α → Bool} {elements : List α} {lo hi i j : ℤ} {x y : α}

theorem swap_eq (atI : elementAt elements i = some x) (atJ : elementAt elements j = some y) :
    swap elements i j = some ((elements.set i.toNat y).set j.toNat x) := by
  have insideI := inside_of_elementAt atI
  have insideJ := inside_of_elementAt atJ
  have second : j < (elements.set i.toNat y).length := by
    rw [List.length_set]
    exact insideJ.2
  simp only [swap, atI, atJ, setElement_eq insideI.1 insideI.2, setElement_eq insideJ.1 second, bind, Option.bind_some]

theorem swapIfLess_rearranges (first : 0 ≤ lo) (last : hi < elements.length) (lowI : lo ≤ i) (highI : i ≤ hi)
    (lowJ : lo ≤ j) (highJ : j ≤ hi) :
    ∃ after, swapIfLess less elements i j = some after ∧ Rearranged lo hi elements after := by
  obtain ⟨x, atI⟩ := exists_elementAt (show 0 ≤ i by omega) (show i < elements.length by omega)
  obtain ⟨y, atJ⟩ := exists_elementAt (show 0 ≤ j by omega) (show j < elements.length by omega)
  simp only [swapIfLess, atI, atJ, bind, Option.bind_some, swap_eq atI atJ]
  split
  · exact ⟨_, rfl, .swap atI atJ lowI highI lowJ highJ⟩
  · exact ⟨_, rfl, .refl lo hi elements⟩

end Swaps

section Scans

variable {α : Type} {less : α → α → Bool} {elements : List α} {pivot x : α} {i j stop : ℤ}

/-- The scan from the left ends at the latest at an element that is not less than the pivot. -/
theorem scanUp_gives (low : 0 ≤ i) (le : i ≤ stop) (fits : stop < 2 ^ 31) (atStop : elementAt elements stop = some x)
    (stops : less x pivot = false) :
    ∃ at_, Gives (fun fuel => scanUp less pivot fuel i elements) at_ ∧ i ≤ at_ ∧ at_ ≤ stop ∧
      (∃ y, elementAt elements at_ = some y ∧ less y pivot = false) ∧
      ∀ k y, i ≤ k → k < at_ → elementAt elements k = some y → less y pivot = true := by
  induction distance : (stop - i).toNat generalizing i with
  | zero =>
    obtain rfl : i = stop := by omega
    refine ⟨i, Gives.step (Gives.of_eq fun _ => rfl) fun fuel => ?_, le, le, ⟨x, atStop, stops⟩, by omega⟩
    simp [scanUp, atStop, stops]
  | succ distance ih =>
    have inside := inside_of_elementAt atStop
    obtain ⟨y, atI⟩ := exists_elementAt low (show i < elements.length by omega)
    cases goesOn : less y pivot with
    | false =>
      refine ⟨i, Gives.step (Gives.of_eq fun _ => rfl) fun fuel => ?_, Int.le_refl i, le, ⟨y, atI, goesOn⟩, by omega⟩
      simp [scanUp, atI, goesOn]
    | true =>
      obtain ⟨at_, gives, after, before, found, passed⟩ :=
        ih (show 0 ≤ i + 1 by omega) (by omega) (by omega)
      refine ⟨at_, Gives.step gives fun fuel => ?_, by omega, before, found, fun k z from_ upTo atK => ?_⟩
      · simp [scanUp, atI, goesOn, int32_of_fits (show -2 ^ 31 ≤ i + 1 by omega) (by omega)]
      · by_cases here : k = i
        · subst here
          rw [atI] at atK
          cases atK
          exact goesOn
        · exact passed k z (by omega) upTo atK

/-- The scan from the right ends at the latest at an element that the pivot is not less than. -/
theorem scanDown_gives (low : 0 ≤ stop) (le : stop ≤ j) (inside : j < elements.length) (fits : j < 2 ^ 31)
    (atStop : elementAt elements stop = some x) (stops : less pivot x = false) :
    ∃ at_, Gives (fun fuel => scanDown less pivot fuel j elements) at_ ∧ stop ≤ at_ ∧ at_ ≤ j ∧
      (∃ y, elementAt elements at_ = some y ∧ less pivot y = false) ∧
      ∀ k y, at_ < k → k ≤ j → elementAt elements k = some y → less pivot y = true := by
  induction distance : (j - stop).toNat generalizing j with
  | zero =>
    obtain rfl : j = stop := by omega
    refine ⟨j, Gives.step (Gives.of_eq fun _ => rfl) fun fuel => ?_, le, le, ⟨x, atStop, stops⟩, by omega⟩
    simp [scanDown, atStop, stops]
  | succ distance ih =>
    obtain ⟨y, atJ⟩ := exists_elementAt (show 0 ≤ j by omega) inside
    cases goesOn : less pivot y with
    | false =>
      refine ⟨j, Gives.step (Gives.of_eq fun _ => rfl) fun fuel => ?_, le, Int.le_refl j, ⟨y, atJ, goesOn⟩, by omega⟩
      simp [scanDown, atJ, goesOn]
    | true =>
      obtain ⟨at_, gives, after, before, found, passed⟩ :=
        ih (show stop ≤ j - 1 by omega) (by omega) (by omega) (by omega)
      refine ⟨at_, Gives.step gives fun fuel => ?_, after, by omega, found, fun k z from_ upTo atK => ?_⟩
      · simp [scanDown, atJ, goesOn, int32_of_fits (show -2 ^ 31 ≤ j - 1 by omega) (by omega)]
      · by_cases here : k = j
        · subst here
          rw [atJ] at atK
          cases atK
          exact goesOn
        · exact passed k z from_ (by omega) atK

end Scans

section Partition

variable {α : Type} {less : α → α → Bool} {elements : List α} {pivot : α} {lo hi i j : ℤ}

/-- Elements that both scans stop at: the pivot itself before the first swap, and later what was swapped. -/
def Stops (less : α → α → Bool) (pivot : α) (lo hi i j : ℤ) (elements : List α) : Prop :=
  ∃ l r x y, (elementAt elements l = some x ∧ less pivot x = false) ∧
    (elementAt elements r = some y ∧ less y pivot = false) ∧ lo ≤ l ∧ l ≤ j ∧ i ≤ r ∧ r ≤ hi ∧
    (lo < i ∧ j < hi ∨ l = r ∧ lo < l ∧ r < hi)

/-- What holds between two turns of the partition. -/
structure Split (less : α → α → Bool) (pivot : α) (lo hi i j : ℤ) (elements : List α) : Prop where
  low : lo ≤ i
  high : j ≤ hi
  below : ∀ k x, lo ≤ k → k < i → elementAt elements k = some x → less x pivot = true ∨ less pivot x = false
  above : ∀ k x, j < k → k ≤ hi → elementAt elements k = some x → less pivot x = true ∨ less x pivot = false
  stops : i ≤ j → Stops less pivot lo hi i j elements
  ends : j < i → (lo < i ∧ i ≤ hi) ∧ lo ≤ j ∧ j < hi

/-- The partition ends with the two scans past each other. -/
theorem partition_gives (first : 0 ≤ lo) (last : hi < elements.length) (fits : hi < 2 ^ 31)
    (split : Split less pivot lo hi i j elements) :
    ∃ iEnd jEnd after, Gives (fun fuel => partition less pivot fuel (i, j, elements)) (iEnd, jEnd, after) ∧
      Rearranged lo hi elements after ∧ Split less pivot lo hi iEnd jEnd after ∧ jEnd < iEnd := by
  induction turns : (j - i + 1).toNat using Nat.strong_induction_on generalizing i j elements with
  | _ turns ih =>
  by_cases crossed : j < i
  · refine ⟨i, j, elements, Gives.step (Gives.of_eq fun _ => rfl) fun fuel => ?_, .refl lo hi elements, split, crossed⟩
    simp [partition, Int.not_le.mpr crossed]
  obtain ⟨l, r, x, y, ⟨atL, stopsDown⟩, ⟨atR, stopsUp⟩, lowL, highL, lowR, highR, apart⟩ :=
    split.stops (Int.not_lt.mp crossed)
  have low := split.low
  have high := split.high
  obtain ⟨up, givesUp, fromI, toR, ⟨p, atUp, upStops⟩, passedUp⟩ :=
    scanUp_gives (show 0 ≤ i by omega) lowR (by omega) atR stopsUp
  obtain ⟨down, givesDown, fromL, toJ, ⟨q, atDown, downStops⟩, passedDown⟩ :=
    scanDown_gives (show 0 ≤ l by omega) highL (by omega) (by omega) atL stopsDown
  have below : ∀ k z, lo ≤ k → k < up → elementAt elements k = some z → less z pivot = true ∨ less pivot z = false := by
    intro k z from_ upTo found
    by_cases before : k < i
    · exact split.below k z from_ before found
    · exact .inl (passedUp k z (by omega) upTo found)
  have above : ∀ k z, down < k → k ≤ hi → elementAt elements k = some z →
      less pivot z = true ∨ less z pivot = false := by
    intro k z from_ upTo found
    by_cases behind : j < k
    · exact split.above k z behind upTo found
    · exact .inl (passedDown k z from_ (by omega) found)
  have turn : ∀ {result}, Gives (fun fuel => if up ≤ down then
        (swap elements up down).bind fun elements => partition less pivot fuel (int32 (up + 1), int32 (down - 1), elements)
      else partition less pivot fuel (up, down, elements)) result →
      Gives (fun fuel => partition less pivot fuel (i, j, elements)) result := by
    intro result gives
    refine Gives.step (Gives.bind (fun fuel up => (scanDown less pivot fuel j elements).bind fun down =>
      if up ≤ down then (swap elements up down).bind fun elements =>
          partition less pivot fuel (int32 (up + 1), int32 (down - 1), elements)
        else partition less pivot fuel (up, down, elements)) givesUp
      (Gives.bind (fun fuel down => if up ≤ down then (swap elements up down).bind fun elements =>
          partition less pivot fuel (int32 (up + 1), int32 (down - 1), elements)
        else partition less pivot fuel (up, down, elements)) givesDown gives)) fun fuel => ?_
    simp [partition, Int.not_lt.mp crossed]
  by_cases swaps : up ≤ down
  · -- What was swapped is now on its side, and stops the next scans.
    have moved := Rearranged.swap atUp atDown (Int.le_refl up) swaps swaps (Int.le_refl down)
    have atUpAfter : elementAt ((elements.set up.toNat q).set down.toNat p) up = some q := by
      have inside := inside_of_elementAt atUp
      have insideDown := inside_of_elementAt atDown
      rw [elementAt_set insideDown.1 (by rw [List.length_set]; exact insideDown.2), elementAt_set inside.1 inside.2]
      split
      · next same =>
        subst same
        exact atUp.symm.trans atDown
      · exact if_pos rfl
    have atDownAfter : elementAt ((elements.set up.toNat q).set down.toNat p) down = some p := by
      have insideDown := inside_of_elementAt atDown
      rw [elementAt_set insideDown.1 (by rw [List.length_set]; exact insideDown.2), if_pos rfl]
    have next : Split less pivot lo hi (up + 1) (down - 1) ((elements.set up.toNat q).set down.toNat p) := by
      constructor
      case low => omega
      case high => omega
      case below =>
        intro k z from_ upTo found
        by_cases here : k = up
        · subst here
          rw [atUpAfter] at found
          cases found
          exact .inr downStops
        · rw [moved.elementAt_outside (by omega)] at found
          exact below k z from_ (by omega) found
      case above =>
        intro k z from_ upTo found
        by_cases here : k = down
        · subst here
          rw [atDownAfter] at found
          cases found
          exact .inr upStops
        · rw [moved.elementAt_outside (by omega)] at found
          exact above k z (by omega) upTo found
      case stops =>
        intro again
        exact ⟨up, down, q, p, ⟨atUpAfter, downStops⟩, ⟨atDownAfter, upStops⟩, by omega, by omega, by omega, by omega,
          .inl (by omega)⟩
      case ends =>
        intro _
        omega
    have length := moved.length_eq
    obtain ⟨iEnd, jEnd, after, gives, rearranged, ended, past⟩ :=
      ih _ (by omega) (by rw [length]; exact last) next rfl
    refine ⟨iEnd, jEnd, after, turn (Gives.congr gives fun fuel => ?_),
      (moved.mono (by omega) (by omega)).trans rearranged, ended, past⟩
    rw [if_pos swaps, swap_eq atUp atDown, Option.bind_some, int32_of_fits (by omega) (by omega),
      int32_of_fits (by omega) (by omega)]
  · have next : Split less pivot lo hi up down elements :=
      ⟨by omega, by omega, below, above, fun again => absurd again swaps, fun _ => by omega⟩
    refine ⟨up, down, elements, turn (Gives.step (Gives.of_eq fun _ => rfl) fun fuel => ?_), .refl lo hi elements, next,
      by omega⟩
    simp [swaps, partition]

/-- The first turn begins with the median of three in the middle. -/
theorem split_median {mid : ℤ} (irrefl : less pivot pivot = false) (atMid : elementAt elements mid = some pivot)
    (low : lo < mid) (high : mid < hi) : Split less pivot lo hi lo hi elements where
  low := Int.le_refl lo
  high := Int.le_refl hi
  below := by omega
  above := by omega
  stops _ := ⟨mid, mid, pivot, pivot, ⟨atMid, irrefl⟩, ⟨atMid, irrefl⟩, by omega, by omega, by omega, by omega,
    .inr ⟨rfl, low, high⟩⟩
  ends := by omega

end Partition

section Insertion

variable {α : Type} {less : α → α → Bool} {elements : List α} {value x : α} {lo hi i j : ℤ}

/-- In order but for what stands before `j`, which the element at `j` may still be less than. -/
def SortedBut (less : α → α → Bool) (lo i j : ℤ) (elements : List α) : Prop :=
  ∀ a b x y, lo ≤ a → a < b → b ≤ i → b ≠ j → elementAt elements a = some x → elementAt elements b = some y →
    less y x = false

/-- The slice where the element to insert is written at `j` is only rearranged. -/
theorem insert_gives (first : 0 ≤ lo) (low : lo ≤ j) (high : j ≤ i) (last : i < elements.length) (fits : i < 2 ^ 31) :
    ∃ after, Gives (fun fuel => insert less lo value fuel j elements) after ∧
      Rearranged lo i (elements.set j.toNat value) after ∧
      (IsStrictWeakOrder α (fun x y => less x y = true) → SortedBut less lo i j (elements.set j.toNat value) →
        SortedOn less lo i after) := by
  induction distance : (j - lo).toNat generalizing j elements with
  | zero =>
    obtain rfl : j = lo := by omega
    refine ⟨elements.set j.toNat value, Gives.step (Gives.of_eq fun _ => rfl) fun fuel => ?_, .refl _ _ _,
      fun _ sorted a b x y from_ before upTo => sorted a b x y from_ before upTo (by omega)⟩
    simp only [insert, lt_irrefl, if_false, setElement_eq first (show j < elements.length by omega)]
  | succ distance ih =>
    have inside : j < elements.length := by omega
    obtain ⟨x, atBefore⟩ := exists_elementAt (show 0 ≤ j - 1 by omega) (show j - 1 < elements.length by omega)
    have atValue : elementAt (elements.set j.toNat value) j = some value := by
      rw [elementAt_set (by omega) inside, if_pos rfl]
    have atX : elementAt (elements.set j.toNat value) (j - 1) = some x := by
      rw [elementAt_set (by omega) inside, if_neg (by omega), atBefore]
    have index : int32 (j - 1) = j - 1 := int32_of_fits (by omega) (by omega)
    cases smaller : less value x with
    | false =>
      refine ⟨elements.set j.toNat value, Gives.step (Gives.of_eq fun _ => rfl) fun fuel => ?_, .refl _ _ _, ?_⟩
      · simp [insert, show lo < j by omega, index, atBefore, smaller, setElement_eq (show 0 ≤ j by omega) inside]
      · intro weak sorted a b y z from_ before upTo atA atB
        by_cases here : b = j
        · subst here
          rw [atValue] at atB
          cases atB
          by_cases next : a = b - 1
          · subst next
            rw [atX] at atA
            cases atA
            exact smaller
          · exact less_eq_false_trans smaller
              (sorted a (b - 1) y x from_ (by omega) (by omega) (by omega) atA atX)
        · exact sorted a b y z from_ before upTo here atA atB
    | true =>
      -- The element before moves up: the two change places in the slice with `value` at `j`.
      have moved := Rearranged.swap atX atValue (show lo ≤ j - 1 by omega) (show j - 1 ≤ i by omega) low high
      have same : (elements.set j.toNat x).set (j - 1).toNat value =
          ((elements.set j.toNat value).set (j - 1).toNat value).set j.toNat x := by
        rw [List.set_comm _ _ (show (j - 1).toNat ≠ j.toNat by omega), List.set_set]
      obtain ⟨after, gives, rearranged, sorts⟩ :=
        @ih (elements.set j.toNat x) (j - 1) (by omega) (by omega) (by rw [List.length_set]; omega) (by omega)
      rw [same] at rearranged sorts
      refine ⟨after, Gives.step gives fun fuel => ?_, moved.trans rearranged, ?_⟩
      · simp [insert, show lo < j by omega, index, atBefore, smaller, setElement_eq (show 0 ≤ j by omega) inside]
      · intro weak sorted
        refine sorts weak fun a b y z from_ before upTo notHere atA atB => ?_
        have valueLess : less x value = false := by
          by_contra found
          rw [Bool.not_eq_false] at found
          exact weak.irrefl x (weak.trans _ _ _ found smaller)
        have newJ : elementAt (((elements.set j.toNat value).set (j - 1).toNat value).set j.toNat x) j = some x := by
          rw [elementAt_set (by omega) (by simp only [List.length_set]; omega), if_pos rfl]
        have newBefore : elementAt (((elements.set j.toNat value).set (j - 1).toNat value).set j.toNat x) (j - 1) =
            some value := by
          rw [elementAt_set (by omega) (by simp only [List.length_set]; omega), if_neg (by omega),
            elementAt_set (by omega) (by simp only [List.length_set]; omega), if_pos rfl]
        have others : ∀ k, k ≠ j → k ≠ j - 1 →
            elementAt (((elements.set j.toNat value).set (j - 1).toNat value).set j.toNat x) k =
              elementAt (elements.set j.toNat value) k := by
          intro k notJ notBefore
          rw [elementAt_set (by omega) (by simp only [List.length_set]; omega), if_neg notJ,
            elementAt_set (by omega) (by simp only [List.length_set]; omega), if_neg notBefore]
        by_cases bIsJ : b = j
        · subst bIsJ
          rw [newJ] at atB
          cases atB
          by_cases aIsBefore : a = b - 1
          · subst aIsBefore
            rw [newBefore] at atA
            cases atA
            exact valueLess
          · rw [others a (by omega) aIsBefore] at atA
            exact sorted a (b - 1) y x from_ (by omega) (by omega) (by omega) atA atX
        · rw [others b bIsJ notHere] at atB
          by_cases aIsJ : a = j
          · subst aIsJ
            rw [newJ] at atA
            cases atA
            exact sorted (a - 1) b x z (by omega) (by omega) upTo (by omega) atX atB
          · by_cases aIsBefore : a = j - 1
            · subst aIsBefore
              rw [newBefore] at atA
              cases atA
              exact sorted j b value z (by omega) (by omega) upTo bIsJ atValue atB
            · rw [others a aIsJ aIsBefore] at atA
              exact sorted a b y z from_ before upTo bIsJ atA atB

/-- The loop of the insertion sort from `i` on, behind elements in order. -/
theorem insertions_give (first : 0 ≤ lo) (low : lo < i) (high : i ≤ hi + 1) (last : hi < elements.length)
    (fits : hi < 2 ^ 31) :
    ∃ after, Gives (fun fuel => (integersBetween i (hi + 1)).foldlM (fun elements i => do
        let value ← elementAt elements i
        insert less lo value fuel i elements) elements) after ∧
      Rearranged lo hi elements after ∧
      (IsStrictWeakOrder α (fun x y => less x y = true) → SortedOn less lo (i - 1) elements →
        SortedOn less lo hi after) := by
  induction turns : (hi + 1 - i).toNat generalizing i elements with
  | zero =>
    obtain rfl : i = hi + 1 := by omega
    refine ⟨elements, Gives.of_eq fun fuel => ?_, .refl lo hi elements, fun _ sorted => ?_⟩
    · rw [integersBetween_of_le (Int.le_refl _)]
      rfl
    · rwa [Int.add_sub_cancel] at sorted
  | succ turns ih =>
    obtain ⟨value, atI⟩ := exists_elementAt (show 0 ≤ i by omega) (show i < elements.length by omega)
    obtain ⟨inserted, gives, rearranged, sorts⟩ := @insert_gives _ less elements value lo i i first (by omega)
      (Int.le_refl i) (by omega) (by omega)
    rw [set_elementAt atI] at rearranged sorts
    obtain ⟨after, givesRest, rearrangedRest, sortsRest⟩ :=
      @ih inserted (i + 1) (by omega) (by omega) (by rw [rearranged.length_eq]; exact last) (by omega)
    refine ⟨after, Gives.congr (Gives.bind (fun fuel elements => (integersBetween (i + 1) (hi + 1)).foldlM (fun elements i => do
        let value ← elementAt elements i
        insert less lo value fuel i elements) elements) gives givesRest) fun fuel => ?_,
      (rearranged.mono (Int.le_refl lo) (by omega)).trans rearrangedRest, fun weak sorted => sortsRest weak ?_⟩
    · rw [integersBetween_cons (show i < hi + 1 by omega), List.foldlM_cons]
      simp only [atI, bind, Option.bind_some]
    · rw [Int.add_sub_cancel]
      exact sorts weak fun a b x y from_ before upTo notI => sorted a b x y from_ before (by omega)

end Insertion

section QuickSort

variable {α : Type} {less : α → α → Bool} {elements : List α} {lo hi : ℤ}

/-- A half that is not the bigger one is at most half as long. -/
theorem log_succ_le {half whole : ℕ} (some_ : 0 < half) (le : half + half ≤ whole) :
    Nat.log 2 half + 1 ≤ Nat.log 2 whole := by
  rw [← Nat.log_mul_base (by decide) (by omega)]
  exact Nat.log_mono_right (by omega)

/-- The three swaps of the median leave a pivot in the middle. -/
theorem median_gives {mid : ℤ} (first : 0 ≤ lo) (low : lo ≤ mid) (high : mid ≤ hi) (last : hi < elements.length) :
    ∃ ordered pivot, (do
        let elements ← swapIfLess less elements mid lo
        let elements ← swapIfLess less elements hi lo
        swapIfLess less elements hi mid) = some ordered ∧
      elementAt ordered mid = some pivot ∧ Rearranged lo hi elements ordered := by
  obtain ⟨one, swapsOne, movedOne⟩ := @swapIfLess_rearranges α less elements lo hi mid lo first last low high
    (Int.le_refl lo) (by omega)
  obtain ⟨two, swapsTwo, movedTwo⟩ := @swapIfLess_rearranges α less one lo hi hi lo first
    (by rw [movedOne.length_eq]; exact last) (by omega) (Int.le_refl hi) (Int.le_refl lo) (by omega)
  obtain ⟨three, swapsThree, movedThree⟩ := @swapIfLess_rearranges α less two lo hi hi mid first
    (by rw [movedTwo.length_eq, movedOne.length_eq]; exact last) (by omega) (Int.le_refl hi) low high
  have moved := (movedOne.trans movedTwo).trans movedThree
  obtain ⟨pivot, atMid⟩ := exists_elementAt (show 0 ≤ mid by omega)
    (show mid < three.length by rw [moved.length_eq]; omega)
  refine ⟨three, pivot, ?_, atMid, moved⟩
  rw [swapsOne]
  simp only [bind, Option.bind_some, swapsTwo, swapsThree]

/-- The code behind the swaps of the median. -/
theorem swapIfLess_bind {β : Type} {mid : ℤ} {ordered : List α} {after : List α → Option β}
    (medians : (do
        let elements ← swapIfLess less elements mid lo
        let elements ← swapIfLess less elements hi lo
        swapIfLess less elements hi mid) = some ordered) :
    (do
        let elements ← swapIfLess less elements mid lo
        let elements ← swapIfLess less elements hi lo
        let elements ← swapIfLess less elements hi mid
        after elements) = after ordered := by
  have bound := congrArg (fun ordered => ordered.bind after) medians
  simpa only [bind, Option.bind_assoc, Option.bind_some] using bound

/-- What the split says is still so after both halves are rearranged. -/
theorem Split.sorted [weak : IsStrictWeakOrder α fun x y => less x y = true] {pivot : α} {i j : ℤ} {sorted : List α}
    (split : Split less pivot lo hi i j elements) (past : j < i)
    (halves : ∃ between, Rearranged lo j elements between ∧ Rearranged i hi between sorted ∨
      Rearranged i hi elements between ∧ Rearranged lo j between sorted)
    (left : SortedOn less lo j sorted) (right : SortedOn less i hi sorted) : SortedOn less lo hi sorted := by
  have asymm : ∀ x y, less x y = true → less y x = false := by
    intro x y found
    by_contra other
    rw [Bool.not_eq_false] at other
    exact weak.irrefl x (weak.trans _ _ _ found other)
  have below : ∀ k x, lo ≤ k → k ≤ i - 1 → elementAt elements k = some x → less pivot x = false := by
    intro k x from_ upTo found
    exact (split.below k x from_ (by omega) found).elim (asymm x pivot) id
  have above : ∀ k x, j + 1 ≤ k → k ≤ hi → elementAt elements k = some x → less x pivot = false := by
    intro k x from_ upTo found
    exact (split.above k x (by omega) upTo found).elim (asymm pivot x) id
  -- A half is on one side of the pivot, and the other half is outside of it.
  have both : ∀ {before after : List α},
      Rearranged lo j before after ∨ Rearranged i hi before after →
      (∀ k x, lo ≤ k → k ≤ i - 1 → elementAt before k = some x → less pivot x = false) →
      (∀ k x, j + 1 ≤ k → k ≤ hi → elementAt before k = some x → less x pivot = false) →
      (∀ k x, lo ≤ k → k ≤ i - 1 → elementAt after k = some x → less pivot x = false) ∧
      (∀ k x, j + 1 ≤ k → k ≤ hi → elementAt after k = some x → less x pivot = false) := by
    rintro before after (moved | moved) below above
    · refine ⟨moved.forall_range (Int.le_refl lo) (by omega) below, fun k x from_ upTo found => ?_⟩
      rw [moved.elementAt_outside (by omega)] at found
      exact above k x from_ upTo found
    · refine ⟨fun k x from_ upTo found => ?_, moved.forall_range (by omega) (Int.le_refl hi) above⟩
      rw [moved.elementAt_outside (by omega)] at found
      exact below k x from_ upTo found
  have sides : (∀ k x, lo ≤ k → k ≤ i - 1 → elementAt sorted k = some x → less pivot x = false) ∧
      (∀ k x, j + 1 ≤ k → k ≤ hi → elementAt sorted k = some x → less x pivot = false) := by
    obtain ⟨between, ⟨one, two⟩ | ⟨one, two⟩⟩ := halves
    · have middle := both (.inl one) below above
      exact both (.inr two) middle.1 middle.2
    · have middle := both (.inr one) below above
      exact both (.inl two) middle.1 middle.2
  exact left.append right (fun k x from_ upTo => sides.1 k x from_ (by omega))
    (fun k x from_ upTo => sides.2 k x (by omega) upTo)

/-- A range is rearranged, with calls that are nested no deeper than the number of its elements can be
halved. It is in order if the index after it is an int. -/
theorem quickSort_gives (irrefl : ∀ x, less x x = false) (first : 0 ≤ lo) (some_ : lo ≤ hi ∨ lo = 0)
    (least : -2 ^ 31 ≤ hi) (fits : hi < 2 ^ 31) (last : hi < elements.length) :
    ∃ after depth, Gives (fun fuel => quickSort less fuel lo hi elements) (after, depth) ∧
      Rearranged lo hi elements after ∧ depth ≤ Nat.log 2 (hi - lo + 1).toNat ∧
      (IsStrictWeakOrder α (fun x y => less x y = true) → hi < 2 ^ 31 - 1 → SortedOn less lo hi after) := by
  induction size : (hi - lo + 1).toNat using Nat.strong_induction_on generalizing lo hi elements with
  | _ size ih =>
  have distance : int32 (hi - lo) = hi - lo := int32_of_fits (by omega) (by omega)
  by_cases short : hi - lo ≤ 16
  · -- The loop of the insertion sort takes no turn where the index after the range is no int.
    have insertions : ∃ after, Gives (fun fuel => insertionSort less fuel lo hi elements) after ∧
        Rearranged lo hi elements after ∧ (IsStrictWeakOrder α (fun x y => less x y = true) → hi < 2 ^ 31 - 1 →
          SortedOn less lo hi after) := by
      by_cases turns : lo < hi ∧ hi < 2 ^ 31 - 1
      · obtain ⟨after, gives, moved, sorts⟩ := @insertions_give α less elements lo hi (lo + 1) first
          (by omega) (by omega) last fits
        refine ⟨after, Gives.congr gives fun fuel => ?_, moved, fun weak _ => sorts weak ?_⟩
        · rw [insertionSort, int32_of_fits (by omega) (by omega), int32_of_fits (by omega) (by omega)]
        · exact sortedOn_of_le (by omega)
      · have none_ : integersBetween (int32 (lo + 1)) (int32 (hi + 1)) = [] := by
          apply integersBetween_of_le
          by_cases top : hi = 2 ^ 31 - 1
          · rw [top, show int32 (2 ^ 31 - 1 + 1) = -2 ^ 31 by decide]
            exact (int32_range _).1
          · rw [int32_of_fits (show -2 ^ 31 ≤ hi + 1 by omega) (by omega),
              int32_of_fits (show -2 ^ 31 ≤ lo + 1 by omega) (by omega)]
            omega
        refine ⟨elements, Gives.of_eq fun fuel => ?_, .refl lo hi elements, fun weak top => sortedOn_of_le (by omega)⟩
        rw [insertionSort, none_]
        rfl
    obtain ⟨after, gives, moved, sorts⟩ := insertions
    refine ⟨after, 0, Gives.step (Gives.map (fun after => (after, 0)) gives) fun fuel => ?_, moved, Nat.zero_le _, sorts⟩
    rw [quickSort, distance, if_neg (by omega)]
    exact Option.map_eq_bind.symm
  obtain ⟨mid, isMid, low, high⟩ : ∃ mid, mid = int32 (lo + (int32 (hi - lo)).tdiv 2) ∧ lo < mid ∧ mid < hi := by
    refine ⟨_, rfl, ?_, ?_⟩ <;> rw [distance, Int.tdiv_eq_ediv_of_nonneg (by omega), int32_of_fits] <;> omega
  obtain ⟨ordered, pivot, medians, atMid, movedMedian⟩ := @median_gives α less elements lo hi mid first low.le high.le last
  obtain ⟨i, j, parted, givesParted, movedParted, split, past⟩ := partition_gives first
    (by rw [movedMedian.length_eq]; exact last) fits (split_median (irrefl pivot) atMid low high)
  have moved := movedMedian.trans movedParted
  obtain ⟨⟨lowI, highI⟩, lowJ, highJ⟩ := split.ends past
  have leftDistance : int32 (j - lo) = j - lo := int32_of_fits (by omega) (by omega)
  have rightDistance : int32 (hi - i) = hi - i := int32_of_fits (by omega) (by omega)
  have whole : ∀ {result}, Gives (fun fuel => if j - lo < hi - i then
        (quickSort less fuel lo j parted).bind fun nested => (quickSort less fuel i hi nested.1).bind fun rest =>
          some (rest.1, max (nested.2 + 1) rest.2)
      else (quickSort less fuel i hi parted).bind fun nested => (quickSort less fuel lo j nested.1).bind fun rest =>
          some (rest.1, max (nested.2 + 1) rest.2)) result →
      Gives (fun fuel => quickSort less fuel lo hi elements) result := by
    intro result gives
    refine Gives.step (Gives.bind (fun fuel split => if int32 (split.2.1 - lo) < int32 (hi - split.1) then
        (quickSort less fuel lo split.2.1 split.2.2).bind fun nested =>
          (quickSort less fuel split.1 hi nested.1).bind fun rest => some (rest.1, max (nested.2 + 1) rest.2)
      else (quickSort less fuel split.1 hi split.2.2).bind fun nested =>
          (quickSort less fuel lo split.2.1 nested.1).bind fun rest => some (rest.1, max (nested.2 + 1) rest.2))
      givesParted (Gives.congr gives fun fuel => by rw [leftDistance, rightDistance])) fun fuel => ?_
    rw [quickSort, if_pos (by omega), ← isMid, swapIfLess_bind medians]
    simp only [bind, atMid, Option.bind_some]
  by_cases smaller : j - lo < hi - i
  · obtain ⟨left, nested, givesLeft, movedLeft, nestedLe, sortsLeft⟩ := @ih _ (by omega) parted lo j first (by omega)
      (by omega) (by omega) (by rw [moved.length_eq]; omega) rfl
    obtain ⟨right, depth, givesRight, movedRight, depthLe, sortsRight⟩ := @ih _ (by omega) left i hi (by omega)
      (by omega) (by omega) (by omega) (by rw [movedLeft.length_eq, moved.length_eq]; omega) rfl
    refine ⟨right, max (nested + 1) depth, whole ?_,
      (moved.trans (movedLeft.mono (Int.le_refl lo) (by omega))).trans (movedRight.mono (by omega) (Int.le_refl hi)),
      max_le ((Nat.add_le_add_right nestedLe 1).trans (log_succ_le (by omega) (by omega)))
        (depthLe.trans (Nat.log_mono_right (by omega))), fun weak top => ?_⟩
    · simp only [if_pos smaller]
      exact Gives.bind (fun fuel nested => (quickSort less fuel i hi nested.1).bind fun rest =>
        some (rest.1, max (nested.2 + 1) rest.2)) givesLeft
        (Gives.bind (fun _ rest => some (rest.1, max (nested + 1) rest.2)) givesRight (Gives.of_eq fun _ => rfl))
    · have leftSorted : SortedOn less lo j right :=
        (sortsLeft weak (by omega)).congr fun k _ _ => movedRight.elementAt_outside (by omega)
      exact split.sorted past ⟨left, .inl ⟨movedLeft, movedRight⟩⟩ leftSorted (sortsRight weak top)
  · obtain ⟨right, nested, givesRight, movedRight, nestedLe, sortsRight⟩ := @ih _ (by omega) parted i hi (by omega)
      (by omega) (by omega) (by omega) (by rw [moved.length_eq]; omega) rfl
    obtain ⟨left, depth, givesLeft, movedLeft, depthLe, sortsLeft⟩ := @ih _ (by omega) right lo j first
      (by omega) (by omega) (by omega) (by rw [movedRight.length_eq, moved.length_eq]; omega) rfl
    refine ⟨left, max (nested + 1) depth, whole ?_,
      (moved.trans (movedRight.mono (by omega) (Int.le_refl hi))).trans (movedLeft.mono (Int.le_refl lo) (by omega)),
      max_le ((Nat.add_le_add_right nestedLe 1).trans (log_succ_le (by omega) (by omega)))
        (depthLe.trans (Nat.log_mono_right (by omega))), fun weak top => ?_⟩
    · simp only [if_neg smaller]
      exact Gives.bind (fun fuel nested => (quickSort less fuel lo j nested.1).bind fun rest =>
        some (rest.1, max (nested.2 + 1) rest.2)) givesRight
        (Gives.bind (fun _ rest => some (rest.1, max (nested + 1) rest.2)) givesLeft (Gives.of_eq fun _ => rfl))
    · have rightSorted : SortedOn less i hi left :=
        (sortsRight weak top).congr fun k _ _ => movedLeft.elementAt_outside (by omega)
      exact split.sorted past ⟨right, .inr ⟨movedRight, movedLeft⟩⟩ (sortsLeft weak (by omega)) rightSorted

end QuickSort

section Slices

variable {α : Type} {less : α → α → Bool} {elements : List α} {i stop : ℤ}

theorem isSortedAt_integersBetween (sorted : SortedOn less 0 (stop - 1) elements) (low : 1 ≤ i) (fits : stop < 2 ^ 31)
    (inside : stop ≤ elements.length) : isSortedAt less elements (integersBetween i stop) = some true := by
  induction turns : (stop - i).toNat generalizing i with
  | zero =>
    rw [integersBetween_of_le (by omega)]
    rfl
  | succ turns ih =>
    obtain ⟨x, atI⟩ := exists_elementAt (show 0 ≤ i by omega) (show i < elements.length by omega)
    obtain ⟨before, atBefore⟩ := exists_elementAt (show 0 ≤ i - 1 by omega) (show i - 1 < elements.length by omega)
    have ordered := sorted (i - 1) i before x (by omega) (by omega) (by omega) atBefore atI
    rw [integersBetween_cons (by omega)]
    simp only [isSortedAt, int32_of_fits (show -2 ^ 31 ≤ i - 1 by omega) (by omega), atI, atBefore, bind, Option.bind_some,
      ordered, Bool.false_eq_true, if_false]
    exact ih (by omega) (by omega)

/-- As many elements as the int of their number are in order. -/
theorem isSorted_of_sortedOn (sorted : int32 (elements.length - 1) < 2 ^ 31 - 1 →
    SortedOn less 0 (int32 (elements.length - 1)) elements) : isSorted less elements = some true := by
  by_cases few : int32 elements.length ≤ 1
  · rw [isSorted, integersBetween_of_le few]
    rfl
  · have range := int32_range elements.length
    have last : int32 (elements.length - 1) = int32 elements.length - 1 := by
      rw [show (1 : ℤ) = int32 1 by decide, ← int32_sub_int32, int32_int32, show int32 1 = 1 by decide,
        int32_of_fits (by omega) (by omega)]
    rw [last] at sorted
    exact isSortedAt_integersBetween (sorted (by omega)) (Int.le_refl 1) (by omega) (int32_le (by omega))

theorem pairwise_of_sortedOn (sorted : SortedOn less 0 (elements.length - 1) elements) :
    elements.Pairwise fun x y => less y x = false := by
  rw [List.pairwise_iff_getElem]
  intro a b insideA insideB before
  refine sorted a b _ _ (by omega) (by omega) (by omega) ?_ ?_
  · rw [elementAt_natCast, List.getElem?_eq_getElem insideA]
  · rw [elementAt_natCast, List.getElem?_eq_getElem insideB]

/-- Sorting ends without leaving the slice and keeps its elements, with calls that are nested at most as deep
as their number can be halved. In a strict weak order the slice is sorted then: as far as `isSorted` looks,
and all of it where the number of its elements is an int. -/
theorem sort_right (irrefl : ∀ x, less x x = false) (elements : List α) :
    ∃ after depth, Gives (fun fuel => sort less fuel elements) (after, depth) ∧ elements.Perm after ∧
      depth ≤ Nat.log 2 elements.length ∧
      (IsStrictWeakOrder α (fun x y => less x y = true) → isSorted less after = some true ∧
        (elements.length < 2 ^ 31 → after.Pairwise fun x y => less y x = false)) := by
  have range := int32_range (elements.length - 1)
  have le := int32_le (show (-2 : ℤ) ^ 31 ≤ elements.length - 1 by omega)
  obtain ⟨after, depth, gives, moved, depthLe, sorts⟩ := @quickSort_gives α less elements 0 _ irrefl (Int.le_refl 0)
    (.inr rfl) range.1 range.2 (by omega)
  have length := moved.length_eq
  refine ⟨after, depth, gives, moved.perm, depthLe.trans (Nat.log_mono_right (by omega)), fun weak => ⟨?_, fun small => ?_⟩⟩
  · apply isSorted_of_sortedOn
    rw [length]
    exact sorts weak
  · have fits : int32 (elements.length - 1) = elements.length - 1 := int32_of_fits (by omega) (by omega)
    rw [fits, ← length] at sorts
    exact pairwise_of_sortedOn (sorts weak (by omega))

theorem sort_right_bits : ∃ after depth,
    Gives (fun fuel => sort (fun x y : Bool => !x && y) fuel [true, false, true]) (after, depth) ∧
      [true, false, true].Perm after ∧ depth ≤ Nat.log 2 3 ∧
      (IsStrictWeakOrder Bool (fun x y => (!x && y) = true) →
        isSorted (fun x y : Bool => !x && y) after = some true ∧
        (3 < 2 ^ 31 → after.Pairwise fun x y => (!y && x) = false)) :=
  sort_right (by decide) [true, false, true]

end Slices

end Saad
