import Mathlib.Data.List.Infix
import Mathlib.Data.Nat.Find

/-! # Where a pattern occurs first

The first place in a list at which a pattern stands, as it decides where a text is cut. What comes
behind the list moves no occurrence in it, and only one that reaches over its end is new.
-/

namespace Saad.General

variable {α : Type*} {pattern list more before : List α} {n m : ℕ}

/-- The pattern stands at `n`, and nowhere in front of it. -/
structure FirstAt (pattern list : List α) (n : ℕ) : Prop where
  stands : pattern <+: list.drop n
  first : ∀ m < n, ¬pattern <+: list.drop m

theorem FirstAt.unique (here : FirstAt pattern list n) (there : FirstAt pattern list m) : n = m := by
  obtain lt | rfl | lt := Nat.lt_trichotomy n m
  · exact absurd here.stands (there.first n lt)
  · rfl
  · exact absurd there.stands (here.first m lt)

theorem infix_iff_exists_drop : pattern <:+: list ↔ ∃ n, pattern <+: list.drop n := by
  constructor
  · rintro ⟨before, after, rfl⟩
    refine ⟨before.length, after, ?_⟩
    rw [List.append_assoc, List.drop_left]
  · rintro ⟨n, stands⟩
    exact stands.isInfix.trans (List.drop_suffix n list).isInfix

theorem FirstAt.isInfix (here : FirstAt pattern list n) : pattern <:+: list :=
  infix_iff_exists_drop.mpr ⟨n, here.stands⟩

/-- A pattern that stands somewhere has a first place. -/
theorem exists_firstAt (occurs : pattern <:+: list) : ∃ n, FirstAt pattern list n := by
  classical
  have stands := infix_iff_exists_drop.mp occurs
  exact ⟨Nat.find stands, Nat.find_spec stands, fun _ lt => Nat.find_min stands lt⟩

theorem FirstAt.length_le (here : FirstAt pattern list n) (nonempty : pattern ≠ []) :
    n + pattern.length ≤ list.length := by
  have fits := here.stands.length_le
  have positive := List.length_pos_of_ne_nil nonempty
  rw [List.length_drop] at fits
  omega

/-- The list is what stands in front of the pattern, the pattern, and what is behind it. -/
theorem FirstAt.eq_append (here : FirstAt pattern list n) :
    list = list.take n ++ pattern ++ list.drop (n + pattern.length) := by
  obtain ⟨after, behind⟩ := here.stands
  have rest : list.drop (n + pattern.length) = after := by
    rw [← List.drop_drop, ← behind, List.drop_left]
  rw [rest, List.append_assoc, behind, List.take_append_drop]

theorem firstAt_zero (stands : pattern <+: list) : FirstAt pattern list 0 :=
  ⟨stands, fun _ lt => absurd lt (Nat.not_lt_zero _)⟩

/-- Where the pattern doesn't stand at the front, the first element is not in the way. -/
theorem firstAt_succ_iff {head : α} (absent : ¬pattern <+: head :: list) :
    FirstAt pattern (head :: list) (n + 1) ↔ FirstAt pattern list n := by
  constructor
  · intro here
    exact ⟨here.stands, fun m lt => here.first (m + 1) (Nat.succ_lt_succ lt)⟩
  · intro here
    refine ⟨here.stands, ?_⟩
    intro m lt
    cases m with
    | zero => exact absent
    | succ m => exact here.first m (Nat.lt_of_succ_lt_succ lt)

theorem prefix_drop_append_iff (fits : n + pattern.length ≤ list.length) :
    pattern <+: (list ++ more).drop n ↔ pattern <+: list.drop n := by
  rw [List.drop_append_of_le_length (by omega)]
  constructor
  · intro stands
    exact List.prefix_of_prefix_length_le stands (List.prefix_append _ _)
      (by rw [List.length_drop]; omega)
  · intro stands
    exact stands.trans (List.prefix_append _ _)

theorem FirstAt.append (here : FirstAt pattern list n) (nonempty : pattern ≠ []) (more : List α) :
    FirstAt pattern (list ++ more) n := by
  have fits := here.length_le nonempty
  refine ⟨(prefix_drop_append_iff fits).mpr here.stands, ?_⟩
  intro m lt stands
  exact here.first m lt ((prefix_drop_append_iff (by omega)).mp stands)

theorem FirstAt.of_append (here : FirstAt pattern (list ++ more) n)
    (fits : n + pattern.length ≤ list.length) : FirstAt pattern list n := by
  refine ⟨(prefix_drop_append_iff fits).mp here.stands, ?_⟩
  intro m lt stands
  exact here.first m lt ((prefix_drop_append_iff (by omega)).mpr stands)

/-- An occurrence that is new reaches over the end of the list. -/
theorem FirstAt.length_lt (here : FirstAt pattern (list ++ more) n) (absent : ¬pattern <:+: list) :
    list.length < n + pattern.length := by
  by_contra fits
  exact absent (here.of_append (by omega)).isInfix

/-- A pattern that doesn't stand over the end of the text in front of it stands there first. -/
theorem firstAt_append (nonempty : pattern ≠ [])
    (absent : ¬pattern <:+: before ++ pattern.dropLast) (more : List α) :
    FirstAt pattern (before ++ pattern ++ more) before.length := by
  constructor
  · rw [List.append_assoc, List.drop_left]
    exact List.prefix_append _ _
  · intro m lt stands
    have positive := List.length_pos_of_ne_nil nonempty
    have split : before ++ pattern ++ more =
        (before ++ pattern.dropLast) ++ (pattern.getLast nonempty :: more) := by
      rw [List.append_assoc, List.append_assoc, List.append_cons pattern.dropLast,
        List.dropLast_append_getLast]
    rw [split, prefix_drop_append_iff (by rw [List.length_append, List.length_dropLast]; omega)]
      at stands
    exact absent (infix_iff_exists_drop.mpr ⟨m, stands⟩)

/-- A pattern doesn't stand over an element that it doesn't have. -/
theorem infix_append_cons_iff {between : α} (absent : between ∉ pattern) :
    pattern <:+: before ++ between :: list ↔ pattern <:+: before ∨ pattern <:+: list := by
  constructor
  · rintro ⟨ahead, after, same⟩
    rw [List.append_assoc, List.append_eq_append_iff] at same
    obtain ⟨more, rfl, same⟩ | ⟨more, rfl, same⟩ := same
    · rw [List.append_eq_append_iff] at same
      obtain ⟨tail, rfl, -⟩ | ⟨tail, rfl, same⟩ := same
      · exact .inl ⟨ahead, tail, List.append_assoc _ _ _⟩
      · cases tail with
        | nil => exact .inl ⟨ahead, [], by simp⟩
        | cons element tail =>
          obtain ⟨rfl, -⟩ := List.cons_eq_cons.mp same
          exact absurd (by simp) absent
    · cases more with
      | nil =>
        cases pattern with
        | nil => exact .inl (List.nil_infix)
        | cons element pattern =>
          obtain ⟨rfl, -⟩ := List.cons_eq_cons.mp same
          exact absurd List.mem_cons_self absent
      | cons element more =>
        obtain ⟨-, rfl⟩ := List.cons_eq_cons.mp same
        exact .inr ⟨more, after, List.append_assoc _ _ _⟩
  · rintro (⟨ahead, after, rfl⟩ | ⟨ahead, after, rfl⟩)
    · exact ⟨ahead, after ++ between :: list, by simp⟩
    · exact ⟨before ++ between :: ahead, after, by simp⟩

section Counting

variable [DecidableEq α]

/-- How often the pattern occurs from the left, where an occurrence begins behind the one before. The
first elements that are skipped belong to one. -/
def leftCount (pattern : List α) : ℕ → List α → ℕ
  | _, [] => 0
  | skip + 1, _ :: list => leftCount pattern skip list
  | 0, head :: list =>
    if pattern <+: head :: list then leftCount pattern (pattern.length - 1) list + 1
    else leftCount pattern 0 list

theorem leftCount_skip (skip : ℕ) (list : List α) :
    leftCount pattern skip list = leftCount pattern 0 (list.drop skip) := by
  induction skip generalizing list with
  | zero => rfl
  | succ skip ih =>
    cases list with
    | nil => rfl
    | cons head list => exact ih list

/-- Behind the first occurrence, the others are counted. -/
theorem FirstAt.leftCount_eq (here : FirstAt pattern list n) (nonempty : pattern ≠ []) :
    leftCount pattern 0 list = leftCount pattern 0 (list.drop (n + pattern.length)) + 1 := by
  have positive := List.length_pos_of_ne_nil nonempty
  induction list generalizing n with
  | nil =>
    have fits := here.length_le nonempty
    simp only [List.length_nil] at fits
    omega
  | cons head list ih =>
    cases n with
    | zero =>
      obtain ⟨size, is⟩ : ∃ size, pattern.length = size + 1 := ⟨pattern.length - 1, by omega⟩
      have stands : pattern <+: head :: list := here.stands
      rw [leftCount, if_pos stands, leftCount_skip, is, Nat.zero_add, Nat.add_sub_cancel, List.drop_succ_cons]
    | succ n =>
      have absent : ¬pattern <+: head :: list := here.first 0 (Nat.succ_pos n)
      rw [leftCount, if_neg absent, ih ((firstAt_succ_iff absent).mp here), Nat.succ_add, List.drop_succ_cons]

theorem leftCount_eq_zero (absent : ¬pattern <:+: list) : leftCount pattern 0 list = 0 := by
  induction list with
  | nil => rfl
  | cons head list ih =>
    rw [leftCount, if_neg fun stands => absent stands.isInfix]
    exact ih fun occurs => absent (occurs.trans (List.suffix_cons head list).isInfix)

end Counting

/-- In front of its first occurrence, the pattern doesn't occur. -/
theorem FirstAt.not_infix_take (here : FirstAt pattern list n) (nonempty : pattern ≠ []) :
    ¬pattern <:+: list.take n := by
  intro occurs
  obtain ⟨m, there⟩ := exists_firstAt occurs
  have fits := there.length_le nonempty
  have positive := List.length_pos_of_ne_nil nonempty
  rw [List.length_take] at fits
  apply here.first m (by omega)
  apply there.stands.trans
  rw [List.drop_take]
  exact List.take_prefix _ _

section Separators

variable {first second : α}

theorem singleton_infix_iff : [first] <:+: list ↔ first ∈ list := by
  constructor
  · intro occurs
    exact occurs.subset (List.mem_singleton_self first)
  · intro member
    obtain ⟨before, after, rfl⟩ := List.append_of_mem member
    exact ⟨before, after, by simp⟩

theorem firstAt_singleton (absent : first ∉ before) (more : List α) :
    FirstAt [first] (before ++ first :: more) before.length := by
  have here := @firstAt_append _ [first] before (by simp)
    (by simpa [singleton_infix_iff] using absent) more
  simpa using here

/-- A separator of two different elements doesn't stand over the end of a text. -/
theorem pair_infix_append_first (different : first ≠ second)
    (occurs : [first, second] <:+: before ++ [first]) : [first, second] <:+: before := by
  obtain ⟨ahead, after, same⟩ := occurs
  obtain rfl | ⟨rest, last, rfl⟩ := List.eq_nil_or_concat after
  · have lasts := congrArg List.getLast? same
    simp only [List.append_nil, List.getLast?_append, List.getLast?_cons_cons,
      List.getLast?_singleton, Option.some_or, Option.some.injEq] at lasts
    exact absurd lasts.symm different
  · rw [List.concat_eq_append, ← List.append_assoc] at same
    have inits := congrArg List.dropLast same
    rw [List.dropLast_concat, List.dropLast_concat] at inits
    exact ⟨ahead, rest, inits⟩

theorem firstAt_pair (different : first ≠ second) (absent : ¬[first, second] <:+: before)
    (more : List α) : FirstAt [first, second] (before ++ first :: second :: more) before.length := by
  have here := @firstAt_append _ [first, second] before (by simp)
    (fun occurs => absent (pair_infix_append_first different occurs)) more
  simpa using here

end Separators

end Saad.General
