import Mathlib.Data.List.Nodup

/-! # Values as trees of places

A place is the list of the steps that lead to it from the root. A value is what is at every place, and what is below a
place is a part of it. A job is local if it only changes what is below its place, so that jobs below different steps
don't disturb each other.
-/

namespace Saad.General

variable {S C E : Type*}

/-- What is at every place. -/
abbrev Contents (S C : Type*) := List S → C

/-- What is below the place is the same as in the value. -/
def Contents.Holds (contents : Contents S C) (place : List S) (value : Contents S C) : Prop :=
  ∀ q, contents (place ++ q) = value q

/-- What changes a value, or fails. -/
abbrev Job (S C E : Type*) := Contents S C → Except E (Contents S C)

/-- Jobs one behind the other, each with the step that leads to its place. -/
def runEach (jobs : List (S × Job S C E)) (contents : Contents S C) : Except E (Contents S C) :=
  jobs.foldlM (fun contents job => job.2 contents) contents

theorem exists_ok_of_bind {A : Type*} {first : Except E A} {rest : A → Except E A} {b : A}
    (runs : first >>= rest = .ok b) : ∃ a, first = .ok a ∧ rest a = .ok b := by
  cases first with
  | error err => cases runs
  | ok a => exact ⟨a, rfl, runs⟩

theorem runEach_cons {job : S × Job S C E}
    {jobs : List (S × Job S C E)} {contents next : Contents S C}
    (runs : runEach (job :: jobs) contents = .ok next) :
    ∃ between, job.2 contents = .ok between ∧ runEach jobs between = .ok next := by
  rw [runEach, List.foldlM_cons] at runs
  exact exists_ok_of_bind runs

/-- The jobs of a loop over a list are below different steps if no step is taken twice. -/
theorem nodup_mapIdx_fst {α : Type*} {step : ℕ → S} (injective : Function.Injective step)
    (job : ℕ → α → Job S C E) (xs : List α) :
    ((xs.mapIdx fun i x => (step i, job i x)).map Prod.fst).Nodup := by
  have steps : (xs.mapIdx fun i x => (step i, job i x)).map Prod.fst = (List.range xs.length).map step :=
    List.ext_getElem (by simp) (by simp)
  rw [steps]
  exact List.nodup_range.map injective

variable [DecidableEq S]

/-- The steps behind the first place that lead to the second one, if it is below the first. -/
def stepsBelow : List S → List S → Option (List S)
  | [], p => some p
  | _ :: _, [] => none
  | s :: place, t :: p => if s = t then stepsBelow place p else none

section Below

variable {place p q : List S} {s t : S}

theorem stepsBelow_eq_some_iff : stepsBelow place p = some q ↔ p = place ++ q := by
  induction place generalizing p with
  | nil => rw [stepsBelow, List.nil_append, Option.some_inj]
  | cons s place ih =>
    cases p with
    | nil => simp [stepsBelow]
    | cons t p =>
      rw [stepsBelow, List.cons_append, List.cons.injEq]
      by_cases same : s = t
      · rw [if_pos same, ih]
        exact (and_iff_right same.symm).symm
      · rw [if_neg same]
        exact ⟨fun none => (by cases none), fun both => absurd both.1.symm same⟩

@[simp] theorem stepsBelow_append (place q : List S) : stepsBelow place (place ++ q) = some q :=
  stepsBelow_eq_some_iff.mpr rfl

theorem stepsBelow_eq_none_iff : stepsBelow place p = none ↔ ∀ q, p ≠ place ++ q := by
  rw [Option.eq_none_iff_forall_ne_some]
  exact forall_congr' fun q => not_congr stepsBelow_eq_some_iff

/-- What is below a step is not below another one. -/
theorem stepsBelow_of_ne (differ : s ≠ t) (place q : List S) :
    stepsBelow (place ++ [s]) (place ++ t :: q) = none := by
  rw [stepsBelow_eq_none_iff]
  intro more same
  rw [List.append_assoc, List.append_cancel_left_eq, List.singleton_append, List.cons.injEq] at same
  exact differ same.1.symm

/-- A place that is not below another one is not further below it. -/
theorem stepsBelow_of_apart (apart : stepsBelow place p = none) (more : List S) :
    stepsBelow (place ++ more) p = none := by
  rw [stepsBelow_eq_none_iff] at apart ⊢
  intro q same
  rw [List.append_assoc] at same
  exact apart _ same

end Below

namespace Contents

variable {contents next last : Contents S C} {place p q : List S} {s : S}

/-- A value with nothing below it, at a place. -/
def write [Zero C] (place : List S) (c : C) (contents : Contents S C) : Contents S C := fun p =>
  match stepsBelow place p with
  | none => contents p
  | some [] => c
  | some (_ :: _) => 0

/-- Nothing is different but what is below the place. -/
def OnlyBelow (place : List S) (contents next : Contents S C) : Prop :=
  ∀ p, stepsBelow place p = none → next p = contents p

theorem OnlyBelow.refl (place : List S) (contents : Contents S C) : OnlyBelow place contents contents := fun _ _ => rfl

theorem OnlyBelow.trans (first : OnlyBelow place contents next) (second : OnlyBelow place next last) :
    OnlyBelow place contents last :=
  fun p apart => (second p apart).trans (first p apart)

theorem OnlyBelow.of_append {more : List S} (below : OnlyBelow (place ++ more) contents next) :
    OnlyBelow place contents next :=
  fun p apart => below p (stepsBelow_of_apart apart more)

variable [Zero C]

theorem onlyBelow_write (place : List S) (c : C) (contents : Contents S C) :
    OnlyBelow place contents (write place c contents) := by
  intro p apart
  rw [write, apart]

/-- Everything below the steps of a new value is zero. -/
theorem holds_write (place : List S) (c : C) (contents : Contents S C) (s : S) :
    Holds (write place c contents) (place ++ [s]) fun _ => 0 := by
  intro q
  rw [List.append_assoc, write, stepsBelow_append]
  rfl

end Contents

open Contents

/-- A job that only changes what is below its place. -/
def IsLocal (place : List S) (job : Contents S C → Except E (Contents S C)) : Prop :=
  ∀ contents next, job contents = .ok next → OnlyBelow place contents next

section Running

variable {jobs : List (S × Job S C E)} {place p : List S} {contents next : Contents S C}

/-- A place that is below none of the steps is left alone. -/
theorem runEach_apart (each : ∀ job ∈ jobs, IsLocal (place ++ [job.1]) job.2) (runs : runEach jobs contents = .ok next)
    (apart : ∀ job ∈ jobs, stepsBelow (place ++ [job.1]) p = none) : next p = contents p := by
  induction jobs generalizing contents with
  | nil =>
    cases runs
    rfl
  | cons job jobs ih =>
    obtain ⟨between, first, rest⟩ := runEach_cons runs
    have later := ih (fun job member => each job (List.mem_cons_of_mem _ member)) rest
      fun job member => apart job (List.mem_cons_of_mem _ member)
    rw [later]
    exact each job List.mem_cons_self _ _ first p (apart job List.mem_cons_self)

theorem runEach_onlyBelow (each : ∀ job ∈ jobs, IsLocal (place ++ [job.1]) job.2)
    (runs : runEach jobs contents = .ok next) : OnlyBelow place contents next :=
  fun _ apart => runEach_apart each runs fun _ _ => stepsBelow_of_apart apart _

/-- What is below a step without a job is left alone. -/
theorem runEach_untouched (each : ∀ job ∈ jobs, IsLocal (place ++ [job.1]) job.2)
    (runs : runEach jobs contents = .ok next) {s : S} (absent : s ∉ jobs.map Prod.fst) (q : List S) :
    next (place ++ s :: q) = contents (place ++ s :: q) := by
  apply runEach_apart each runs
  intro job member
  apply stepsBelow_of_ne
  rintro rfl
  exact absent (List.mem_map_of_mem member)

/-- A job finds what was below its step, and leaves there what is there in the end. -/
theorem runEach_job (each : ∀ job ∈ jobs, IsLocal (place ++ [job.1]) job.2) (distinct : (jobs.map Prod.fst).Nodup)
    (runs : runEach jobs contents = .ok next) {job : S × Job S C E} (member : job ∈ jobs) :
    ∃ before after, job.2 before = .ok after ∧
      (∀ q, before (place ++ job.1 :: q) = contents (place ++ job.1 :: q)) ∧
      ∀ q, next (place ++ job.1 :: q) = after (place ++ job.1 :: q) := by
  induction jobs generalizing contents with
  | nil => cases member
  | cons first jobs ih =>
    obtain ⟨between, ran, rest⟩ := runEach_cons runs
    rw [List.map_cons, List.nodup_cons] at distinct
    have others : ∀ job ∈ jobs, IsLocal (place ++ [job.1]) job.2 :=
      fun job member => each job (List.mem_cons_of_mem _ member)
    obtain rfl | later := List.mem_cons.mp member
    · exact ⟨contents, between, ran, fun q => rfl, runEach_untouched others rest distinct.1⟩
    · obtain ⟨before, after, runs, found, left⟩ := ih others distinct.2 rest later
      refine ⟨before, after, runs, fun q => ?_, left⟩
      rw [found]
      apply each first List.mem_cons_self _ _ ran
      apply stepsBelow_of_ne
      intro same
      exact distinct.1 (same ▸ List.mem_map_of_mem later)

end Running

end Saad.General
