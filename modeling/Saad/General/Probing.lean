import Mathlib.Data.Fintype.Card
import Mathlib.Data.Nat.ModEq

/-! # Loops that end at an exit, and linear probing

`loopUntil` is a loop whose body either leaves it with a result or goes on. Linear probing is such a
loop over the slots of a circular table. A table of indices is in order when every index stands in
one slot, which is reached from the home of the index over slots that are not empty.
-/

namespace Saad.General

section Loops

variable {σ ρ : Type*} (exit : σ → Option ρ) (next : σ → σ)

/-- Take turns until `exit` has a result. `none` when `fuel` turns give none. -/
def loopUntil : ℕ → σ → Option ρ
  | 0, _ => none
  | fuel + 1, state =>
    match exit state with
    | some result => some result
    | none => loopUntil fuel (next state)

variable {exit next}

theorem loopUntil_eq_some_of_turn {fuel turn : ℕ} {state : σ} {result : ρ} (enough : turn < fuel)
    (before : ∀ earlier < turn, exit (next^[earlier] state) = none)
    (at_turn : exit (next^[turn] state) = some result) :
    loopUntil exit next fuel state = some result := by
  induction fuel generalizing turn state with
  | zero => omega
  | succ fuel ih =>
    cases turn with
    | zero =>
      have now : exit state = some result := at_turn
      simp only [loopUntil, now]
    | succ turn =>
      have now : exit state = none := before 0 (by omega)
      simp only [loopUntil, now]
      refine @ih turn _ (by omega) ?_ ?_
      · intro earlier lt
        exact before (earlier + 1) (by omega)
      · exact at_turn

theorem loopUntil_eq_none_iff {fuel : ℕ} {state : σ} :
    loopUntil exit next fuel state = none ↔ ∀ turn < fuel, exit (next^[turn] state) = none := by
  induction fuel generalizing state with
  | zero => simp [loopUntil]
  | succ fuel ih =>
    rw [loopUntil]
    constructor
    · intro runs turn lt
      cases now : exit state with
      | some result =>
        rw [now] at runs
        cases runs
      | none =>
        rw [now] at runs
        cases turn with
        | zero => exact now
        | succ turn => exact ih.mp runs turn (by omega)
    · intro runs
      have now : exit state = none := runs 0 (by omega)
      rw [now]
      apply ih.mpr
      intro turn lt
      exact runs (turn + 1) (by omega)

/-- The turn at which the loop ends is the first at which it can. -/
theorem exists_turn_of_loopUntil_eq_some {fuel : ℕ} {state : σ} {result : ρ}
    (runs : loopUntil exit next fuel state = some result) :
    ∃ turn < fuel, exit (next^[turn] state) = some result ∧
      ∀ earlier < turn, exit (next^[earlier] state) = none := by
  induction fuel generalizing state with
  | zero => cases runs
  | succ fuel ih =>
    rw [loopUntil] at runs
    cases now : exit state with
    | some leaves =>
      rw [now] at runs
      exact ⟨0, by omega, now.trans runs, fun earlier lt => absurd lt (Nat.not_lt_zero _)⟩
    | none =>
      rw [now] at runs
      obtain ⟨turn, lt, ends, before⟩ := ih runs
      refine ⟨turn + 1, by omega, ends, ?_⟩
      intro earlier earlier_lt
      cases earlier with
      | zero => exact now
      | succ earlier => exact before earlier (by omega)

/-- A loop that comes back to a state it was in without leaving never leaves. -/
theorem loopUntil_eq_none_of_repeat {first again fuel : ℕ} {state : σ} (later : first < again)
    (enough : again ≤ fuel) (repeats : next^[again] state = next^[first] state)
    (runs : loopUntil exit next fuel state = none) (more : ℕ) :
    loopUntil exit next more state = none := by
  rw [loopUntil_eq_none_iff] at runs ⊢
  intro turn _
  induction turn using Nat.strong_induction_on with
  | _ turn ih =>
    by_cases short : turn < again
    · exact runs turn (by omega)
    · have back : next^[turn] state = next^[turn - again + first] state := by
        conv_lhs => rw [show turn = turn - again + again by omega]
        rw [Function.iterate_add_apply, repeats, ← Function.iterate_add_apply]
      rw [back]
      exact ih _ (by omega) (by omega)

end Loops

section Probing

/-- The slot after this one in a table with that many slots. -/
def nextSlot (slots slot : ℕ) : ℕ := (slot + 1) % slots

theorem nextSlot_iterate {slots home : ℕ} (inside : home < slots) (turn : ℕ) :
    (nextSlot slots)^[turn] home = (home + turn) % slots := by
  induction turn with
  | zero => exact (Nat.mod_eq_of_lt inside).symm
  | succ turn ih =>
    rw [Function.iterate_succ_apply', ih, nextSlot, Nat.mod_add_mod]
    rfl

/-- Probing from `home` comes to `slot`, over slots that are full. -/
def Reaches (slots : ℕ) (full : ℕ → Prop) (home slot : ℕ) : Prop :=
  ∃ turn < slots, (home + turn) % slots = slot ∧
    ∀ earlier < turn, full ((home + earlier) % slots)

variable {slots home slot : ℕ} {full : ℕ → Prop}

theorem Reaches.mono {fuller : ℕ → Prop} (le : ∀ other, full other → fuller other)
    (reaches : Reaches slots full home slot) : Reaches slots fuller home slot := by
  obtain ⟨turn, lt, rfl, before⟩ := reaches
  exact ⟨turn, lt, rfl, fun earlier earlier_lt => le _ (before earlier earlier_lt)⟩

theorem probe_ne_of_lt {turn earlier : ℕ} (lt : turn < slots) (before : earlier < turn) :
    (home + earlier) % slots ≠ (home + turn) % slots := by
  intro equal
  have same : earlier ≡ turn [MOD slots] := Nat.ModEq.add_left_cancel' home equal
  have := Nat.ModEq.eq_of_lt_of_lt same (by omega) lt
  omega

/-- A search that goes on at all other full slots ends at a slot it reaches. -/
theorem Reaches.loopUntil_eq {ρ : Type*} {exit : ℕ → Option ρ} {result : ρ}
    (reaches : Reaches slots full home slot) (inside : home < slots)
    (goes_on : ∀ other, other ≠ slot → full other → exit other = none)
    (leaves : exit slot = some result) :
    loopUntil exit (nextSlot slots) slots home = some result := by
  obtain ⟨turn, lt, rfl, before⟩ := reaches
  apply loopUntil_eq_some_of_turn lt
  · intro earlier earlier_lt
    rw [nextSlot_iterate inside]
    exact goes_on _ (probe_ne_of_lt lt earlier_lt) (before earlier earlier_lt)
  · rw [nextSlot_iterate inside]
    exact leaves

theorem Reaches.loopUntil_isSome {ρ : Type*} {exit : ℕ → Option ρ}
    (reaches : Reaches slots full home slot) (inside : home < slots)
    (leaves : (exit slot).isSome) : (loopUntil exit (nextSlot slots) slots home).isSome := by
  obtain ⟨turn, lt, rfl, -⟩ := reaches
  rw [Option.isSome_iff_ne_none]
  intro runs
  have stays := loopUntil_eq_none_iff.mp runs turn lt
  rw [nextSlot_iterate inside] at stays
  rw [stays] at leaves
  cases leaves

/-- Probing comes to a slot that is not full, where there is one. -/
theorem exists_reaches_not_full [DecidablePred full] (inside : slot < slots) (free : ¬ full slot)
    (home : ℕ) : ∃ first < slots, ¬ full first ∧ Reaches slots full home first := by
  have exists_turn : ∃ turn, ¬ full ((home + turn) % slots) := by
    refine ⟨slot + slots - home % slots, ?_⟩
    have home_lt : home % slots < slots := Nat.mod_lt _ (by omega)
    have back : (home + (slot + slots - home % slots)) % slots = slot := by
      rw [← Nat.mod_add_mod,
        show home % slots + (slot + slots - home % slots) = slot + slots by omega,
        Nat.add_mod_right, Nat.mod_eq_of_lt inside]
    rwa [back]
  let turn := Nat.find exists_turn
  have before : ∀ earlier < turn, full ((home + earlier) % slots) := fun earlier lt =>
    not_not.mp (Nat.find_min exists_turn lt)
  refine ⟨(home + turn) % slots, Nat.mod_lt _ (by omega), Nat.find_spec exists_turn, turn, ?_, rfl,
    before⟩
  -- After as many turns as there are slots the probes repeat.
  by_contra far
  have full_again := before (turn - slots) (by omega)
  have same : (home + (turn - slots)) % slots = (home + turn) % slots := by
    rw [show home + turn = home + (turn - slots) + slots by omega, Nat.add_mod_right]
  rw [same] at full_again
  exact Nat.find_spec exists_turn full_again

end Probing

section Tables

/-- A slot that is not empty. Slots hold 0 when they are empty, and otherwise an index and 1. -/
def Full (table : List ℕ) (slot : ℕ) : Prop := table.getD slot 0 ≠ 0

instance (table : List ℕ) : DecidablePred (Full table) := fun slot =>
  inferInstanceAs (Decidable (table.getD slot 0 ≠ 0))

/-- The table holds the first `placed` indices, each in one slot that probing from its home finds. -/
structure Indexes (table : List ℕ) (home : ℕ → ℕ) (placed : ℕ) : Prop where
  bounded : ∀ slot, table.getD slot 0 ≤ placed
  once : ∀ slot other, Full table slot → table.getD slot 0 = table.getD other 0 → slot = other
  found : ∀ index < placed, ∃ slot < table.length, table.getD slot 0 = index + 1 ∧
    Reaches table.length (Full table) (home index) slot

variable {table : List ℕ} {home : ℕ → ℕ} {placed : ℕ}

theorem Indexes.congr {other : ℕ → ℕ} (same : ∀ index < placed, home index = other index)
    (indexes : Indexes table home placed) : Indexes table other placed where
  bounded := indexes.bounded
  once := indexes.once
  found index lt := same index lt ▸ indexes.found index lt

theorem not_full_replicate (slots slot : ℕ) : ¬ Full (List.replicate slots 0) slot := by
  simp only [Full, List.getD_eq_getElem?_getD, List.getElem?_replicate, ne_eq, not_not]
  split <;> rfl

theorem Indexes.replicate (slots : ℕ) (home : ℕ → ℕ) :
    Indexes (List.replicate slots 0) home 0 where
  bounded slot := (not_not.mp (not_full_replicate slots slot)).le
  once slot _ full := absurd full (not_full_replicate slots slot)
  found := by simp

/-- Fewer indices than slots leave a slot empty. -/
theorem Indexes.exists_not_full (indexes : Indexes table home placed)
    (room : placed < table.length) : ∃ slot < table.length, ¬ Full table slot := by
  by_contra all_full
  push Not at all_full
  let index : Fin table.length → Fin placed := fun slot =>
    ⟨table.getD slot 0 - 1, by
      have positive : table.getD slot 0 ≠ 0 := all_full slot slot.isLt
      have := indexes.bounded slot
      omega⟩
  have injective : Function.Injective index := by
    intro slot other equal
    have slot_full : table.getD slot 0 ≠ 0 := all_full slot slot.isLt
    have other_full : table.getD other 0 ≠ 0 := all_full other other.isLt
    have equal_pred : table.getD slot 0 - 1 = table.getD other 0 - 1 := congrArg Fin.val equal
    exact Fin.ext (indexes.once slot other slot_full (by omega))
  have := Fintype.card_le_of_injective index injective
  simp only [Fintype.card_fin] at this
  omega

theorem getD_set (table : List ℕ) {slot : ℕ} (inside : slot < table.length) (value other : ℕ) :
    (table.set slot value).getD other 0 = if other = slot then value else table.getD other 0 := by
  simp only [List.getD_eq_getElem?_getD, List.getElem?_set]
  by_cases same : slot = other
  · subst same
    simp [inside]
  · simp [same, Ne.symm same]

/-- Putting the next index in an empty slot that probing from its home reaches. -/
theorem Indexes.set (indexes : Indexes table home placed) {slot : ℕ} (inside : slot < table.length)
    (free : ¬ Full table slot)
    (reaches : Reaches table.length (Full table) (home placed) slot) :
    Indexes (table.set slot (placed + 1)) home (placed + 1) := by
  have fuller : ∀ other, Full table other → Full (table.set slot (placed + 1)) other := by
    intro other full
    rw [Full, getD_set table inside]
    split
    · omega
    · exact full
  constructor
  case bounded =>
    intro other
    rw [getD_set table inside]
    split
    · rfl
    · exact (indexes.bounded other).trans (by omega)
  case once =>
    intro first second full equal
    rw [Full] at full
    rw [getD_set table inside] at full
    rw [getD_set table inside, getD_set table inside] at equal
    have first_le := indexes.bounded first
    have second_le := indexes.bounded second
    split at equal
    · next first_eq =>
      split at equal
      · next second_eq => rw [first_eq, second_eq]
      · omega
    · next first_ne =>
      rw [if_neg first_ne] at full
      split at equal
      · omega
      · exact indexes.once first second full equal
  case found =>
    intro index lt
    rw [List.length_set]
    by_cases newest : index = placed
    · subst newest
      refine ⟨slot, inside, ?_, reaches.mono fuller⟩
      rw [getD_set table inside, if_pos rfl]
    · obtain ⟨old, old_lt, holds, old_reaches⟩ := indexes.found index (by omega)
      have old_full : Full table old := by
        rw [Full, holds]
        omega
      refine ⟨old, old_lt, ?_, old_reaches.mono fuller⟩
      have old_ne : old ≠ slot := by
        rintro rfl
        exact free old_full
      rw [getD_set table inside, if_neg old_ne, holds]

end Tables

end Saad.General
