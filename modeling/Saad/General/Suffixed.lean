import Mathlib.Data.List.Nodup
import Mathlib.Data.List.Range

/-! # Names that get a suffix

One pass over the names that are taken, in which a name gets a suffix whenever it meets itself. It ends with a name that
is free exactly when the taken ones with no suffix, with one, with two, ... stand in this order up to the free one.
-/

namespace Saad.General

variable {α : Type*} [DecidableEq α] {taken : List (List α)} {suffix name free : List α} {k : ℕ}

/-- The pass over the names that are taken. -/
def settle (suffix : List α) (taken : List (List α)) (name : List α) : List α :=
  taken.foldl (fun name other => if other = name then name ++ suffix else name) name

/-- The name with a suffix so many times. -/
def suffixed (suffix name : List α) (k : ℕ) : List α := name ++ (List.replicate k suffix).flatten

/-- The name with suffixes is free, and the ones with fewer of them are taken in their order. -/
def SettlesAt (suffix : List α) (taken : List (List α)) (name free : List α) : Prop :=
  ∃ k, free = suffixed suffix name k ∧ ((List.range k).map (suffixed suffix name)).Sublist taken ∧ free ∉ taken

theorem suffixed_zero : suffixed suffix name 0 = name := by simp [suffixed]

theorem suffixed_succ : suffixed suffix name (k + 1) = suffixed suffix (name ++ suffix) k := by
  rw [suffixed, suffixed, List.replicate_succ, List.flatten_cons, List.append_assoc]

theorem map_suffixed_succ : (List.range (k + 1)).map (suffixed suffix name) =
    name :: (List.range k).map (suffixed suffix (name ++ suffix)) := by
  rw [List.range_succ_eq_map, List.map_cons, suffixed_zero, List.map_map]
  congr 1
  apply List.map_congr_left
  intro i _
  exact suffixed_succ

/-- The pass only adds suffixes for names that it meets in their order. -/
theorem exists_settle (suffix : List α) (taken : List (List α)) (name : List α) :
    ∃ k, settle suffix taken name = suffixed suffix name k ∧
      ((List.range k).map (suffixed suffix name)).Sublist taken := by
  induction taken generalizing name with
  | nil => exact ⟨0, suffixed_zero.symm, List.nil_sublist _⟩
  | cons other taken ih =>
    rw [settle, List.foldl_cons]
    split
    · next same =>
      obtain ⟨k, settles, order⟩ := ih (name ++ suffix)
      refine ⟨k + 1, settles.trans suffixed_succ.symm, ?_⟩
      rw [map_suffixed_succ, same]
      exact order.cons_cons name
    · obtain ⟨k, settles, order⟩ := ih name
      exact ⟨k, settles, order.cons other⟩

/-- The pass adds at least a suffix for each of the names that stand in their order. -/
theorem settle_greedy (order : ((List.range k).map (suffixed suffix name)).Sublist taken) :
    ∃ n ≥ k, settle suffix taken name = suffixed suffix name n ∧
      ((List.range n).map (suffixed suffix name)).Sublist taken := by
  induction taken generalizing name k with
  | nil =>
    have none := List.eq_nil_of_sublist_nil order
    rw [List.map_eq_nil_iff, List.range_eq_nil] at none
    exact ⟨0, none.le, suffixed_zero.symm, List.nil_sublist _⟩
  | cons other taken ih =>
    cases k with
    | zero =>
      obtain ⟨n, settles, before⟩ := exists_settle suffix (other :: taken) name
      exact ⟨n, Nat.zero_le n, settles, before⟩
    | succ k =>
      rw [map_suffixed_succ] at order
      rw [settle, List.foldl_cons]
      by_cases same : other = name
      · have behind : ((List.range k).map (suffixed suffix (name ++ suffix))).Sublist taken := by
          rw [same] at order
          exact List.cons_sublist_cons.mp order
        obtain ⟨n, more, settles, before⟩ := ih behind
        rw [if_pos same]
        refine ⟨n + 1, by omega, settles.trans suffixed_succ.symm, ?_⟩
        rw [map_suffixed_succ, same]
        exact before.cons_cons name
      · have behind : (name :: (List.range k).map (suffixed suffix (name ++ suffix))).Sublist taken := by
          cases order with
          | cons _ order => exact order
          | cons_cons _ order => exact absurd rfl same
        rw [← map_suffixed_succ] at behind
        obtain ⟨n, more, settles, before⟩ := ih behind
        rw [if_neg same]
        exact ⟨n, more, settles, before.cons other⟩

/-- What settles is what the pass ends with. -/
theorem SettlesAt.settle_eq (settles : SettlesAt suffix taken name free) : settle suffix taken name = free := by
  obtain ⟨k, rfl, order, absent⟩ := settles
  obtain ⟨n, more, ends, before⟩ := settle_greedy order
  obtain same | less := more.eq_or_lt
  · rw [ends, same]
  · exfalso
    apply absent
    apply before.subset
    exact List.mem_map.mpr ⟨k, List.mem_range.mpr less, rfl⟩

theorem settlesAt_settle (absent : settle suffix taken name ∉ taken) :
    SettlesAt suffix taken name (settle suffix taken name) := by
  obtain ⟨k, ends, before⟩ := exists_settle suffix taken name
  exact ⟨k, ends, before, absent⟩

/-- Elements that are taken get a mark behind them. -/
def marked (taken : List (List α)) (mark element : List α) : List α :=
  if element ∈ taken then element ++ mark else element

/-- The marks keep all apart, unless what they give is there already. -/
theorem nodup_marked_iff {elements : List (List α)} {mark : List α} (nonempty : mark ≠ []) :
    (taken ++ elements.map (marked taken mark)).Nodup ↔
      taken.Nodup ∧ elements.Nodup ∧
        ∀ element ∈ elements, element ∈ taken → element ++ mark ∉ taken ∧ element ++ mark ∉ elements := by
  have longer (element : List α) : element ≠ element ++ mark := by
    intro same
    exact nonempty (List.self_eq_append_right.mp same)
  rw [List.nodup_append']
  constructor
  · rintro ⟨first, second, apart⟩
    refine ⟨first, second.of_map, fun element member isTaken => ?_⟩
    have mark_is : marked taken mark element = element ++ mark := if_pos isTaken
    have absent : element ++ mark ∉ taken := by
      intro present
      exact apart present (mark_is ▸ List.mem_map_of_mem member)
    refine ⟨absent, fun present => longer element ?_⟩
    apply List.inj_on_of_nodup_map second member present
    rw [mark_is, marked, if_neg absent]
  · rintro ⟨first, second, free⟩
    refine ⟨first, second.map_on ?_, ?_⟩
    · intro a member b member' same
      rw [marked, marked] at same
      split at same <;> split at same
      · exact List.append_cancel_right same
      · next isTaken _ =>
        exact absurd (same ▸ member') (free a member isTaken).2
      · next _ isTaken =>
        exact absurd (same ▸ member) (free b member' isTaken).2
      · exact same
    · intro element isTaken present
      obtain ⟨other, member, rfl⟩ := List.mem_map.mp present
      rw [marked] at isTaken
      split at isTaken
      · next there => exact (free other member there).1 isTaken
      · next absent => exact absent isTaken

end Saad.General
