import Saad.General.Xorshift
import Saad.Std.SlicesSorted

/-! # Random numbers

`Random` of random.sd, and what is drawn with its bits. The functions on numbers and slices take the bits of any
generator: a state `σ` and the function that gives the next bits of it. None is an assertion that fails.
-/

namespace Saad

open General

structure Random where
  state : BitVec 64
deriving DecidableEq

namespace Random

/-- 64 random bits. -/
def bits (r : Random) : BitVec 64 × Random :=
  let x := r.state
  let x := x ^^^ (x >>> 12)
  let x := x ^^^ (x <<< 25)
  let x := x ^^^ (x >>> 27)
  (x * 2685821657736338717, { r with state := x })

/-- The generator after a number of bits. -/
def drop (turns : ℕ) (r : Random) : Random := (fun r => (bits r).2)^[turns] r

end Random

def newRandom (seed : BitVec 64) : Random :=
  let r : Random := ⟨seed ^^^ 88172645463325252⟩
  let r : Random := if r.state = 0 then ⟨88172645463325252⟩ else r
  r.drop 8

section Drawing

variable {σ α : Type} (bits : σ → BitVec 64 × σ)

def between (r : σ) (min max : ℤ) : Option (ℤ × σ) :=
  if min ≤ max then
    let range := BitVec.ofInt 64 (int64 (int64 (max - min) + 1))
    let (drawn, r) := bits r
    some (int32 (int64 (min + (drawn % range).toInt)), r)
  else none

/-- The loop that puts one of the elements from `i` on at each index `i`. -/
def sampleFrom : List ℤ → List α → σ → Option (List α × σ)
  | [], pool, r => some (pool, r)
  | i :: rest, pool, r => do
    let (j, r) ← between bits r i (int32 (pool.length - 1))
    let pool ← swap pool i j
    sampleFrom rest pool r

def sample (r : σ) (population : List α) (count : ℤ) : Option (List α × σ) :=
  if 0 ≤ count ∧ count ≤ population.length then do
    let (pool, r) ← sampleFrom bits (integersBetween 0 count) population r
    some (pool.take count.toNat, r)
  else none

/-- The loop over an index that goes down to 0. -/
def shuffleFrom : ℕ → List α → σ → Option (List α × σ)
  | 0, elements, r => some (elements, r)
  | i + 1, elements, r => do
    let (j, r) ← between bits r 0 (int32 (i + 1))
    let tmp ← elementAt elements (i + 1)
    let other ← elementAt elements j
    let elements ← setElement elements (i + 1) other
    let elements ← setElement elements j tmp
    shuffleFrom i elements r

def shuffle (r : σ) (elements : List α) : Option (List α × σ) := shuffleFrom bits (elements.length - 1) elements r

end Drawing

end Saad

/-! # What is drawn

A generator never reaches the state 0, in which it would stay, and whatever its bits are, a number is drawn from its
range and elements are only moved. The index of an element is cast to an int, so slices of more than 2 GiB elements
can't be shuffled.
-/

namespace Saad

open General

section States

variable {r : Random}

theorem bits_injective : Function.Injective fun r : Random => r.bits.2 := by
  intro x y same
  have states := congrArg Random.state same
  have first := xor_ushiftRight_injective (w := 64) (k := 27) (by decide) states
  have second := xor_shiftLeft_injective (w := 64) (k := 25) (by decide) first
  have third := xor_ushiftRight_injective (w := 64) (k := 12) (by decide) second
  cases x
  cases y
  exact congrArg Random.mk third

theorem bits_zero : (Random.bits ⟨0⟩).2 = ⟨0⟩ := by decide

theorem bits_ne_zero (seeded : r.state ≠ 0) : r.bits.2.state ≠ 0 := by
  intro zero
  apply seeded
  exact congrArg Random.state (@bits_injective r ⟨0⟩ (congrArg Random.mk zero))

theorem drop_ne_zero (seeded : r.state ≠ 0) (turns : ℕ) : (r.drop turns).state ≠ 0 := by
  induction turns with
  | zero => exact seeded
  | succ turns ih =>
    rw [Random.drop, Function.iterate_succ_apply']
    exact bits_ne_zero ih

theorem newRandom_ne_zero (seed : BitVec 64) : (newRandom seed).state ≠ 0 := by
  apply drop_ne_zero
  split
  · decide
  · next seeded => exact seeded

/-- Every state but 0 comes from one state but 0. -/
theorem bits_bijOn : Set.BijOn (fun state => (Random.bits ⟨state⟩).2.state) {0}ᶜ {0}ᶜ := by
  have injective : Function.Injective fun state => (Random.bits ⟨state⟩).2.state := by
    intro x y same
    exact congrArg Random.state (@bits_injective ⟨x⟩ ⟨y⟩ (congrArg Random.mk same))
  have finite : Finite (BitVec 64) := Finite.of_injective BitVec.toFin fun x y => BitVec.eq_of_toFin_eq
  refine ⟨fun state seeded => bits_ne_zero (r := ⟨state⟩) seeded, injective.injOn, fun state seeded => ?_⟩
  obtain ⟨before, rfl⟩ := Finite.surjective_of_injective injective state
  refine ⟨before, ?_, rfl⟩
  rintro rfl
  exact seeded (congrArg Random.state bits_zero)

end States

section Drawing

variable {σ α : Type} {bits : σ → BitVec 64 × σ} {r : σ} {min max : ℤ} {elements : List α}

/-- A number of the range is drawn. -/
theorem between_gives (bits : σ → BitVec 64 × σ) (r : σ) (low : -2 ^ 31 ≤ min) (le : min ≤ max) (high : max < 2 ^ 31) :
    ∃ drawn next, between bits r min max = some (drawn, next) ∧ min ≤ drawn ∧ drawn ≤ max := by
  have size : int64 (int64 (max - min) + 1) = max - min + 1 := by
    rw [int64_of_fits (n := max - min) (by omega) (by omega), int64_of_fits (by omega) (by omega)]
  have range : (BitVec.ofInt 64 (max - min + 1)).toNat = (max - min + 1).toNat := by
    rw [BitVec.toNat_ofInt]
    omega
  have below : ((bits r).1 % BitVec.ofInt 64 (max - min + 1)).toNat < (max - min + 1).toNat := by
    rw [BitVec.toNat_umod, range]
    exact Nat.mod_lt _ (by omega)
  have value : ((bits r).1 % BitVec.ofInt 64 (max - min + 1)).toInt =
      ((bits r).1 % BitVec.ofInt 64 (max - min + 1)).toNat := BitVec.toInt_eq_toNat_of_lt (by omega)
  have draws : between bits r min max =
      some (int32 (int64 (min + ((bits r).1 % BitVec.ofInt 64 (max - min + 1)).toInt)), (bits r).2) := by
    rw [between, if_pos le, size]
  rw [value, int64_of_fits (by omega) (by omega), int32_of_fits (by omega) (by omega)] at draws
  exact ⟨_, _, draws, by omega, by omega⟩

theorem between_eq_none (bits : σ → BitVec 64 × σ) (r : σ) (lt : max < min) : between bits r min max = none :=
  if_neg (by omega)

end Drawing

section Shuffling

variable {σ α : Type} {bits : σ → BitVec 64 × σ} {r : σ} {elements : List α} {i : ℕ}

theorem shuffleFrom_succ : shuffleFrom bits (i + 1) elements r =
    between bits r 0 (int32 ((i : ℤ) + 1)) >>= fun draw =>
      swap elements (i + 1) draw.1 >>= fun elements => shuffleFrom bits i elements draw.2 := by
  simp only [swap, bind_assoc]
  rfl

/-- An index that is an int lets the loop run to its end, and the elements are only moved. -/
theorem shuffleFrom_gives (inside : i < elements.length ∨ i = 0) (fits : i < 2 ^ 31) :
    ∃ after next, shuffleFrom bits i elements r = some (after, next) ∧ after.Perm elements := by
  induction i generalizing elements r with
  | zero => exact ⟨elements, r, rfl, .refl _⟩
  | succ i ih =>
    have index : int32 ((i : ℤ) + 1) = i + 1 := int32_of_fits (by omega) (by omega)
    obtain ⟨j, next, draws, low, high⟩ := @between_gives _ 0 (i + 1) bits r (by omega) (by omega) (by omega)
    obtain ⟨x, atI⟩ := @exists_elementAt _ elements (i + 1) (by omega) (by omega)
    obtain ⟨y, atJ⟩ := @exists_elementAt _ elements j (by omega) (by omega)
    have swapped := @Rearranged.swap _ _ 0 (i + 1) _ _ _ _ atI atJ (by omega) (by omega) low high
    have length := swapped.length_eq
    obtain ⟨after, last, others, perm⟩ := @ih next ((elements.set (i + 1 : ℤ).toNat y).set j.toNat x)
      (.inl (by omega)) (by omega)
    refine ⟨after, last, ?_, perm.trans swapped.perm.symm⟩
    have swaps := swap_eq atI atJ
    rw [shuffleFrom_succ, index, draws, Option.bind_eq_bind, Option.bind_some, swaps]
    exact others

/-- An index that is no int is negative at the latest when it is 2^31. -/
theorem shuffleFrom_eq_none (large : 2 ^ 31 ≤ i) : shuffleFrom bits i elements r = none := by
  induction i generalizing elements r with
  | zero => omega
  | succ i ih =>
    rw [shuffleFrom_succ]
    by_cases larger : 2 ^ 31 ≤ i
    · cases draws : between bits r 0 (int32 ((i : ℤ) + 1)) with
      | none => rfl
      | some draw =>
        rw [Option.bind_eq_bind, Option.bind_some]
        cases swap elements (i + 1) draw.1 with
        | none => rfl
        | some middle => exact ih larger
    · have negative : int32 ((i : ℤ) + 1) = -2 ^ 31 := by
        rw [show (i : ℤ) + 1 = 2 ^ 31 by omega]
        rfl
      rw [negative, between_eq_none bits r (by decide)]
      rfl

end Shuffling

section Sampling

variable {σ α : Type} {bits : σ → BitVec 64 × σ} {r : σ} {pool : List α} {i count : ℤ}

theorem length_of_swap {j : ℤ} {swapped : List α} (swaps : swap pool i j = some swapped) :
    swapped.length = pool.length := by
  have parts := swaps
  obtain ⟨x, atI, parts⟩ := Option.bind_eq_some_iff.mp parts
  obtain ⟨y, atJ, -⟩ := Option.bind_eq_some_iff.mp parts
  rw [swap_eq atI atJ] at swaps
  cases swaps
  rw [List.length_set, List.length_set]

theorem sampleFrom_cons {rest : List ℤ} : sampleFrom bits (i :: rest) pool r =
    between bits r i (int32 (pool.length - 1)) >>= fun draw =>
      swap pool i draw.1 >>= fun pool => sampleFrom bits rest pool draw.2 := rfl

/-- The elements are only moved, as long as there is an int for the last index that is drawn from. -/
theorem sampleFrom_gives (low : 0 ≤ i) (inside : count ≤ pool.length)
    (fits : count - 1 ≤ int32 (pool.length - 1)) :
    ∃ picked next, sampleFrom bits (integersBetween i count) pool r = some (picked, next) ∧
      Rearranged 0 (pool.length - 1) pool picked := by
  induction turns : (count - i).toNat generalizing i pool r with
  | zero => exact ⟨pool, r, by rw [integersBetween_of_le (by omega)]; rfl, .refl _ _ _⟩
  | succ turns ih =>
    have last := int32_le (n := pool.length - 1) (by omega)
    obtain ⟨j, next, draws, low', high'⟩ := @between_gives _ i (int32 (pool.length - 1)) bits r (by omega)
      (by omega) (int32_range _).2
    obtain ⟨x, atI⟩ := @exists_elementAt _ pool i low (by omega)
    obtain ⟨y, atJ⟩ := @exists_elementAt _ pool j (by omega) (by omega)
    have swapped := @Rearranged.swap _ _ 0 (pool.length - 1) _ _ _ _ atI atJ low (by omega) (by omega) (by omega)
    have length := swapped.length_eq
    obtain ⟨picked, after, others, moved⟩ := @ih next ((pool.set i.toNat y).set j.toNat x) (i + 1)
      (by omega) (by rwa [length]) (by rwa [length]) (by omega)
    rw [length] at moved
    refine ⟨picked, after, ?_, swapped.trans moved⟩
    rw [integersBetween_cons (by omega), sampleFrom_cons, draws, Option.bind_eq_bind, Option.bind_some,
      swap_eq atI atJ]
    exact others

/-- Without one there is no number to draw from at the latest for the last index. -/
theorem sampleFrom_eq_none (le : i < count) (large : int32 (pool.length - 1) < count - 1) :
    sampleFrom bits (integersBetween i count) pool r = none := by
  induction turns : (count - i).toNat generalizing i pool r with
  | zero => omega
  | succ turns ih =>
    rw [integersBetween_cons le, sampleFrom_cons]
    by_cases empty : int32 (pool.length - 1) < i
    · rw [between_eq_none bits r empty]
      rfl
    · cases draws : between bits r i (int32 (pool.length - 1)) with
      | none => rfl
      | some draw =>
        rw [Option.bind_eq_bind, Option.bind_some]
        cases swaps : swap pool i draw.1 with
        | none => rfl
        | some middle =>
          have length := length_of_swap swaps
          exact ih (i := i + 1) (by omega) (by rwa [length]) (by omega)

end Sampling

section Claims

variable {σ α : Type} {bits : σ → BitVec 64 × σ} {r : σ} {elements population : List α} {count : ℤ}

/-- The elements are left in some order. -/
def Shuffles (bits : σ → BitVec 64 × σ) (r : σ) (elements : List α) : Prop :=
  ∃ after next, shuffle bits r elements = some (after, next) ∧ after.Perm elements

/-- The elements at different positions are given. -/
def Samples (bits : σ → BitVec 64 × σ) (r : σ) (population : List α) (count : ℤ) : Prop :=
  ∃ picked next, sample bits r population count = some (picked, next) ∧
    ∃ positions : List ℤ, (positions.length : ℤ) = count ∧ positions.Nodup ∧
      positions.map (elementAt population) = picked.map some

theorem shuffles_iff : Shuffles bits r elements ↔ elements.length ≤ 2 ^ 31 := by
  constructor
  · rintro ⟨after, next, shuffles, -⟩
    by_contra large
    rw [shuffle, shuffleFrom_eq_none (by omega)] at shuffles
    cases shuffles
  · intro small
    exact shuffleFrom_gives (by omega) (by omega)

theorem samples_iff : Samples bits r population count ↔
    0 ≤ count ∧ count ≤ population.length ∧ (count = 0 ∨ count - 1 ≤ int32 (population.length - 1)) := by
  constructor
  · rintro ⟨picked, next, samples, -⟩
    unfold sample at samples
    split at samples
    · next inside =>
      refine ⟨inside.1, inside.2, ?_⟩
      by_contra large
      rw [sampleFrom_eq_none (by omega) (by omega)] at samples
      cases samples
    · cases samples
  · rintro ⟨low, inside, fits⟩
    obtain ⟨pool, next, draws, moved⟩ : ∃ pool next, sampleFrom bits (integersBetween 0 count) population r =
        some (pool, next) ∧ Rearranged 0 (population.length - 1) population pool := by
      obtain rfl | fits := fits
      · exact ⟨population, r, rfl, .refl _ _ _⟩
      · exact sampleFrom_gives le_rfl inside fits
    obtain ⟨positions, length, nodup, same⟩ := @Rearranged.positions _ _ _ _ _ moved count.toNat (by
      rw [moved.length_eq]
      omega)
    refine ⟨pool.take count.toNat, next, ?_, positions, by omega, nodup, same⟩
    rw [sample, if_pos ⟨low, inside⟩, draws]
    rfl

/-- A generator never reaches 0, and no two states are followed by the same one. Whatever the bits are, a number is
drawn from its range. Elements are shuffled exactly when there are at most 2^31 of them, and drawn from a population
exactly when the last index of it, as an int, isn't in front of one that is drawn. -/
theorem random_right (seed : BitVec 64) (turns : ℕ) (bits : σ → BitVec 64 × σ) (r : σ) (min max : ℤ)
    (elements population : List α) (count : ℤ) :
    ((newRandom seed).drop turns).state ≠ 0 ∧
    Set.BijOn (fun state => (Random.bits ⟨state⟩).2.state) {0}ᶜ {0}ᶜ ∧
    (-2 ^ 31 ≤ min → min ≤ max → max < 2 ^ 31 →
      ∃ drawn next, between bits r min max = some (drawn, next) ∧ min ≤ drawn ∧ drawn ≤ max) ∧
    (Samples bits r population count ↔
      0 ≤ count ∧ count ≤ population.length ∧ (count = 0 ∨ count - 1 ≤ int32 (population.length - 1))) ∧
    (Shuffles bits r elements ↔ elements.length ≤ 2 ^ 31) :=
  ⟨drop_ne_zero (newRandom_ne_zero seed) turns, bits_bijOn, between_gives bits r, samples_iff, shuffles_iff⟩

theorem random_right_dice :
    ∃ drawn next, between Random.bits (newRandom 42) 1 6 = some (drawn, next) ∧ 1 ≤ drawn ∧ drawn ≤ 6 :=
  (random_right 42 0 Random.bits (newRandom 42) 1 6 [()] [()] 1).2.2.1 (by decide) (by decide) (by decide)

/-- A slice of more than 2^31 elements isn't shuffled. -/
theorem not_shuffles : ¬∀ elements : List Unit, Shuffles Random.bits (newRandom 42) elements := by
  intro all
  have small := shuffles_iff.mp (all (List.replicate (2 ^ 31 + 1) ()))
  rw [List.length_replicate] at small
  omega

end Claims

end Saad
