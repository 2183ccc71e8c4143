import Saad.Html.RenderRule
import Mathlib.Data.List.TakeWhile

/-! # When a render ends

The renderer counts the includes and macros that are in each other, and stops at the hundred and first. It
does not count the templates that extend each other and the blocks. So a render ends exactly when these do
not follow each other without an end, and no function of the program goes on for ever; `range` does where
its numbers leave the 64 bits.
-/

namespace Saad.Html

section Runs

variable {α : Type} {counted : α → Bool} {bound : ℕ}

/-- A list with at most `most` counted elements, between which there are never more than `bound` others. -/
theorem length_le_of_runs {most : ℕ} {list : List α} (few : list.countP counted ≤ most)
    (runs : ∀ run, run <:+: list → (∀ x ∈ run, counted x = false) → run.length ≤ bound) :
    list.length ≤ most + (most + 1) * bound := by
  induction most generalizing list with
  | zero =>
    have none : ∀ x ∈ list, counted x = false := fun x member =>
      Bool.eq_false_iff.mpr fun is => List.countP_eq_zero.mp (Nat.le_zero.mp few) x member is
    have short := runs list List.infix_rfl none
    omega
  | succ most ih =>
    have split := List.takeWhile_append_dropWhile (p := fun x => !counted x) (l := list)
    have first := runs (list.takeWhile fun x => !counted x) (List.takeWhile_prefix _).isInfix
      fun x member => by simpa using List.mem_takeWhile_imp member
    generalize list.takeWhile (fun x => !counted x) = before at split first
    cases dropped : list.dropWhile fun x => !counted x with
    | nil =>
      rw [dropped, List.append_nil] at split
      have one : bound ≤ (most + 1 + 1) * bound := Nat.le_mul_of_pos_left bound (Nat.succ_pos _)
      rw [← split]
      omega
    | cons x rest =>
      have is : counted x = true := by
        have head := List.head?_dropWhile_not (fun x => !counted x) list
        rw [dropped] at head
        simpa using head
      rw [dropped] at split
      subst split
      rw [List.countP_append, List.countP_cons_of_pos is] at few
      have suffix_ : rest <:+: before ++ x :: rest := ⟨before ++ [x], [], by simp⟩
      have others := ih (by omega) fun run part => runs run (part.trans suffix_)
      rw [List.length_append, List.length_cons, Nat.succ_mul]
      omega

end Runs

section Depth

variable {F α β : Type} {n : ℕ} {before middle after : ℤ} {V : α → Prop} {W : β → Prop}

def Construct.weight : Construct → ℤ
  | .included | .called => 1
  | .extended | .block => 0

/-- The includes and macros among the constructs. -/
def entered : List Construct → ℤ
  | [] => 0
  | construct :: nest => construct.weight + entered nest

/-- The depth is the number of the entered constructs, up to an offset, and the levels that are left are
used up when the action is endless. -/
def Descends (n : ℕ) (before after : ℤ) (V : α → Prop) (action : Action F α) : Prop :=
  ∀ r, r.depth = entered r.nest + before → r.depth ≤ 100 →
    match action r with
    | .done value s => V value ∧ s.nest = r.nest ∧ s.depth = entered s.nest + after ∧ s.depth ≤ 100
    | .endless nest => nest.length = r.nest.length + n ∧ entered nest ≤ 100
    | .thrown _ | .hangs => True

theorem descends_pure {value : α} (ok : V value) :
    Descends n before before V (.pure value : Action F α) :=
  fun _ depth low => ⟨ok, rfl, depth, low⟩

theorem Descends.bind {action : Action F α} {next : α → Action F β}
    (first : Descends n before middle V action)
    (second : ∀ value, V value → Descends n middle after W (next value)) :
    Descends n before after W (action.bind next) := by
  intro r depth low
  have start := first r depth low
  unfold Action.bind
  cases result : action r with
  | done value s =>
    rw [result] at start
    obtain ⟨ok, nest, depth, low⟩ := start
    have finish := second value ok s depth low
    rw [nest] at finish
    exact finish
  | thrown error => trivial
  | hangs => trivial
  | endless nest =>
    rw [result] at start
    exact start

theorem descends_modify {f : Renderer F → Renderer F} (nest : ∀ r, (f r).nest = r.nest)
    (depth : ∀ r, (f r).depth = r.depth) :
    Descends n before before unrestricted (.modify f) := fun r is low => by
  change True ∧ (f r).nest = r.nest ∧ (f r).depth = entered (f r).nest + before ∧ (f r).depth ≤ 100
  rw [nest, depth]
  exact ⟨trivial, rfl, is, low⟩

theorem descends_returned (value : Returned F) :
    Descends n before before unrestricted (.returned value) := by
  intro r depth low
  unfold Action.returned
  match value with
  | some (.ok v) => exact ⟨trivial, rfl, depth, low⟩
  | some (.error _) => trivial
  | none => trivial

theorem descends_enter (line : ℤ) : Descends n 0 1 unrestricted (enter (F := F) line) := by
  intro r depth low
  unfold enter
  split_ifs with deep
  · trivial
  · dsimp only
    exact ⟨trivial, rfl, by omega, by omega⟩

theorem descends_load (env : Environment F) (name : Text) :
    Descends n before before unrestricted (load env name) := by
  unfold load
  split
  · exact descends_pure trivial
  · exact fun _ _ _ => trivial

theorem Descends.inside (construct : Construct) {enter : Renderer F → Renderer F} {action : Action F α}
    {leave : Renderer F → Renderer F → Renderer F} (inner : Descends n 0 0 V action)
    (enters : ∀ r, (enter r).depth = r.depth)
    (leaves : ∀ r s, (leave r s).depth = s.depth - construct.weight) :
    Descends (n + 1) construct.weight 0 V (Action.inside construct enter action leave) := by
  intro r depth low
  have inside := inner { enter r with nest := construct :: r.nest }
    (by simp only [enters, entered, depth]; omega) (by simpa only [enters] using low)
  unfold Action.inside
  cases result : action { enter r with nest := construct :: r.nest } with
  | done value s =>
    rw [result] at inside
    obtain ⟨ok, nest, depth, low⟩ := inside
    have weight : 0 ≤ construct.weight := by cases construct <;> decide
    simp only [nest, entered] at depth
    refine ⟨ok, rfl, ?_, ?_⟩
    · simp only [leaves]
      omega
    · simp only [leaves]
      omega
  | thrown error => trivial
  | hangs => trivial
  | endless nest =>
    rw [result] at inside
    obtain ⟨length, few⟩ := inside
    exact ⟨by simp only [length, List.length_cons]; omega, few⟩

/-- As a relation: the other render is not looked at. -/
def descends (F : Type) (n : ℕ) : Relation F := fun V action _ => Descends n 0 0 V action

end Depth

section Rules

variable {F : Type} (lib : Library F) (env : Environment F)

/-- No condition at all. -/
abbrev anything : Allowed := ⟨unrestricted, unrestricted⟩
abbrev anyValue : Value F → Prop := unrestricted

theorem anyValue_rule : ValueRule lib env anything anyValue := by
  constructor
  case called => exact fun called => ⟨fun _ => called.uses_of_all (fun _ => trivial) fun _ => trivial, fun _ => trivial⟩
  case load => exact fun _ template _ => template.uses_of_all (fun _ => trivial) fun _ => trivial
  all_goals intros; trivial

theorem anyRenderer (r : Renderer F) : RendererOk anything anyValue r :=
  ⟨fun _ _ => trivial, fun template _ => template.uses_of_all (fun _ => trivial) fun _ => trivial⟩

theorem descends_kept (n : ℕ) : Kept env anything anyValue (descends F n) where
  pure := descends_pure
  bind := Descends.bind
  get := fun r depth low => ⟨anyRenderer r, rfl, depth, low⟩
  throw := fun _ _ _ => trivial
  addVariable _ := descends_modify (fun _ => rfl) fun _ => rfl
  keepVariables := descends_modify (fun _ => rfl) fun _ => rfl
  addText _ := descends_modify (fun _ => rfl) fun _ => rfl
  addHtml _ := descends_modify (fun _ => rfl) fun _ => rfl
  filter _ _ _ _ := descends_returned _
  function _ _ := descends_returned _
  chain _ := descends_modify (fun _ => rfl) fun _ => rfl

theorem descends_rule (n : ℕ) :
    Rule lib env anything anyValue (descends F n) (descends F (n + 1)) where
  values := anyValue_rule lib env
  kept := descends_kept env (n + 1)
  runMacro := fun {levels levels' line called given} related uses ok => by
    have kept := descends_kept env n
    have params := related.bindParams kept trivial _ (given_zip uses ok)
    have body : Descends n 0 0 anyValue (macroBody levels called given) :=
      params.bind fun _ _ => (related.nodes called.body uses.body).bind fun _ _ =>
        kept.get.bind fun _ _ => descends_pure trivial
    exact (descends_enter line).bind fun _ _ =>
      Descends.inside .called body (fun _ => rfl) fun _ _ => rfl
  includeTemplate := fun {levels levels' line name} related =>
    (descends_enter line).bind fun _ _ => (descends_load env name).bind fun template _ =>
      Descends.inside .included
        (related.template template (template.uses_of_all (fun _ => trivial) fun _ => trivial)) (fun _ => rfl) fun _ _ => rfl
  extendTemplate := fun {levels levels' name} related =>
    (descends_load env name).bind fun template _ =>
      Descends.inside .extended
        (related.template template (template.uses_of_all (fun _ => trivial) fun _ => trivial)) (fun _ => rfl)
        fun _ s => (Int.sub_zero _).symm
  renderBlock := fun {levels levels' name body} related _ r =>
    Descends.inside .block (related.nodes (blockBody r.chain name body) (Nodes.uses_of_all (fun _ => trivial) (fun _ => trivial) _))
      (fun _ => rfl) (fun _ s => (Int.sub_zero s.depth).symm) r

theorem levelsOf_descends : ∀ fuel,
    Related anything anyValue (descends F fuel) (levelsOf lib env fuel) (levelsOf lib env fuel)
  | 0 => by
    have endless {α : Type} (V : α → Prop) : Descends 0 0 0 V (.endless : Action F α) := by
      intro r depth low
      exact ⟨rfl, by omega⟩
    exact ⟨fun _ _ => endless _, fun _ _ => endless _, fun _ _ => endless _⟩
  | fuel + 1 => (descends_rule lib env fuel).relatedLevels (levelsOf_descends fuel)

/-- With more levels the result is the same, unless there were too few. -/
def Continues (F : Type) : Relation F := fun V action more =>
  ∀ r, (∃ nest, action r = .endless nest) ∨
    action r = more r ∧ ∀ value s, action r = .done value s → V value

theorem Continues.bind {α β : Type} {V : α → Prop} {W : β → Prop} {a b : Action F α}
    {f g : α → Action F β} (first : Continues F V a b) (second : ∀ v, V v → Continues F W (f v) (g v)) :
    Continues F W (a.bind f) (b.bind g) := by
  intro r
  unfold Action.bind
  rcases first r with ⟨nest, endless⟩ | ⟨same, ok⟩
  · exact .inl ⟨nest, by rw [endless]⟩
  rw [← same]
  cases result : a r with
  | done value s => exact second value (ok value s result) s
  | thrown error => exact .inr ⟨rfl, fun _ _ done => by cases done⟩
  | hangs => exact .inr ⟨rfl, fun _ _ done => by cases done⟩
  | endless nest => exact .inl ⟨nest, rfl⟩

theorem Continues.refl {α : Type} {V : α → Prop} {action : Action F α}
    (ok : ∀ r value s, action r = .done value s → V value) : Continues F V action action :=
  fun r => .inr ⟨rfl, ok r⟩

theorem Continues.inside {α : Type} {V : α → Prop} {construct : Construct} {enter : Renderer F → Renderer F}
    {a b : Action F α} {leave : Renderer F → Renderer F → Renderer F} (inner : Continues F V a b) :
    Continues F V (.inside construct enter a leave) (.inside construct enter b leave) := by
  intro r
  unfold Action.inside
  rcases inner { enter r with nest := construct :: r.nest } with ⟨nest, endless⟩ | ⟨same, ok⟩
  · exact .inl ⟨nest, by rw [endless]⟩
  refine .inr ⟨by rw [same], fun value s done => ?_⟩
  cases result : a { enter r with nest := construct :: r.nest } with
  | done v t =>
    rw [result] at done
    cases done
    exact ok _ t result
  | thrown error => rw [result] at done; cases done
  | hangs => rw [result] at done; cases done
  | endless nest => rw [result] at done; cases done

theorem continues_kept : Kept env anything anyValue (Continues F) where
  pure ok := .refl fun _ _ _ done => by cases done; exact ok
  bind := .bind
  get := .refl fun r _ _ done => by cases done; exact anyRenderer r
  throw := .refl fun _ _ _ done => by cases done
  addVariable _ := .refl fun _ _ _ _ => trivial
  keepVariables := .refl fun _ _ _ _ => trivial
  addText _ := .refl fun _ _ _ _ => trivial
  addHtml _ := .refl fun _ _ _ _ => trivial
  filter _ _ _ _ := .refl fun _ _ _ _ => trivial
  function _ _ := .refl fun _ _ _ _ => trivial
  chain _ := .refl fun _ _ _ _ => trivial

theorem continues_rule : Rule lib env anything anyValue (Continues F) (Continues F) where
  values := anyValue_rule lib env
  kept := continues_kept env
  runMacro := fun {levels levels' line called given} related uses ok => by
    have kept := continues_kept env
    have params := related.bindParams kept trivial _ (given_zip uses ok)
    have body : Continues F anyValue (macroBody levels called given) (macroBody levels' called given) :=
      params.bind fun _ _ => (related.nodes called.body uses.body).bind fun _ _ =>
        kept.get.bind fun _ _ => kept.pure trivial
    exact Continues.bind (V := unrestricted) (.refl fun _ _ _ _ => trivial) fun _ _ => body.inside
  includeTemplate := fun {levels levels' line name} related =>
    Continues.bind (V := unrestricted) (.refl fun _ _ _ _ => trivial) fun _ _ =>
      Continues.bind (V := unrestricted) (.refl fun _ _ _ _ => trivial) fun template _ =>
        (related.template template (template.uses_of_all (fun _ => trivial) fun _ => trivial)).inside
  extendTemplate := fun {levels levels' name} related =>
    Continues.bind (V := unrestricted) (.refl fun _ _ _ _ => trivial) fun template _ =>
      (related.template template (template.uses_of_all (fun _ => trivial) fun _ => trivial)).inside
  renderBlock := fun {levels levels' name body} related _ r => by
    have body := related.nodes (blockBody r.chain name body) (Nodes.uses_of_all (fun _ => trivial) (fun _ => trivial) _)
    exact (body.inside : Continues F _ (.inside .block id _ fun _ s => s) (.inside .block id _ fun _ s => s)) r

theorem levelsOf_continues : ∀ fuel,
    Related anything anyValue (Continues F) (levelsOf lib env fuel) (levelsOf lib env (fuel + 1))
  | 0 =>
    ⟨fun _ _ r => .inl ⟨r.nest, rfl⟩, fun _ _ r => .inl ⟨r.nest, rfl⟩, fun _ _ r => .inl ⟨r.nest, rfl⟩⟩
  | fuel + 1 => (continues_rule lib env).relatedLevels (levelsOf_continues fuel)

end Rules

section Renders

variable {F : Type} {lib : Library F} {env : Environment F} {name : Text} {fuel : ℕ}

theorem render_endless {nest : List Construct} (endless : render lib env fuel name = .endless nest) :
    nest.length = fuel ∧ entered nest ≤ 100 := by
  have descends : Descends fuel 0 0 unrestricted (renderFile env (levelsOf lib env fuel) name) :=
    (descends_load env name).bind fun template _ =>
      (levelsOf_descends lib env fuel).template template (template.uses_of_all (fun _ => trivial) fun _ => trivial)
  have found := descends .start rfl (Int.zero_le_ofNat 100)
  rw [render] at endless
  rw [endless] at found
  exact ⟨found.1.trans (Nat.zero_add fuel), found.2⟩

theorem render_succ (ends : ∀ nest, render lib env fuel name ≠ .endless nest) :
    render lib env (fuel + 1) name = render lib env fuel name := by
  have continues : Continues F unrestricted (renderFile env (levelsOf lib env fuel) name)
      (renderFile env (levelsOf lib env (fuel + 1)) name) :=
    Continues.bind (V := unrestricted) (.refl fun _ _ _ _ => trivial) fun template _ =>
      (levelsOf_continues lib env fuel).template template (template.uses_of_all (fun _ => trivial) fun _ => trivial)
  rcases continues .start with ⟨nest, endless⟩ | ⟨same, -⟩
  · exact absurd endless (ends nest)
  · exact same.symm

theorem render_of_le {more : ℕ} (ends : ∀ nest, render lib env fuel name ≠ .endless nest)
    (le : fuel ≤ more) : render lib env more name = render lib env fuel name := by
  induction more, le using Nat.le_induction with
  | base => rfl
  | succ more _ ih => rw [render_succ (ih ▸ ends), ih]

variable (lib env name)

/-- The render has a result, a text or an error, however deep one looks. -/
def Ends : Prop :=
  ∃ fuel result, (∀ nest, result ≠ .endless nest) ∧ result ≠ .hangs ∧
    ∀ more, fuel ≤ more → render lib env more name = result

def Construct.counted : Construct → Bool
  | .included | .called => true
  | .extended | .block => false

/-- Templates that extend each other and blocks that are in each other, without an include or a macro between
them, are never more than some number. -/
def Bounded : Prop :=
  ∃ bound, ∀ fuel nest, render lib env fuel name = .endless nest →
    ∀ run, run <:+: nest → (∀ construct ∈ run, construct.counted = false) → run.length ≤ bound

theorem countP_counted (nest : List Construct) : (nest.countP Construct.counted : ℤ) = entered nest := by
  induction nest with
  | nil => rfl
  | cons construct nest ih =>
    rw [List.countP_cons, entered, ← ih]
    cases construct <;> simp [Construct.counted, Construct.weight, Int.add_comm]

variable {lib env name}

theorem Ends.bounded (ends : Ends lib env name) :
    Bounded lib env name ∧ ∀ fuel, render lib env fuel name ≠ .hangs := by
  obtain ⟨fuel, result, notEndless, returns, same⟩ := ends
  have last := same fuel le_rfl
  refine ⟨⟨fuel, fun less nest endless run infix_ _ => ?_⟩, fun less hangs => ?_⟩
  · have length := (render_endless endless).1
    rcases le_or_gt fuel less with le | gt
    · exact absurd ((same less le).symm.trans endless) (notEndless nest)
    · exact infix_.length_le.trans (length ▸ gt.le)
  · rcases le_or_gt fuel less with le | gt
    · exact returns ((same less le).symm.trans hangs)
    · have later := render_of_le (fun nest => by rw [hangs]; exact fun other => by cases other) gt.le
      exact returns (last.symm.trans (later.trans hangs))

theorem Bounded.ends (bounded : Bounded lib env name)
    (returns : ∀ fuel, render lib env fuel name ≠ .hangs) : Ends lib env name := by
  obtain ⟨bound, runs⟩ := bounded
  let fuel := 100 + 101 * bound + 1
  have notEndless : ∀ nest, render lib env fuel name ≠ .endless nest := by
    intro nest endless
    obtain ⟨length, few⟩ := render_endless endless
    have counted : nest.countP Construct.counted ≤ 100 := by
      have := countP_counted nest
      omega
    have short := length_le_of_runs counted (runs fuel nest endless)
    omega
  exact ⟨fuel, _, notEndless, returns fuel, fun more le => render_of_le notEndless le⟩

theorem ends_iff : Ends lib env name ↔
    Bounded lib env name ∧ ∀ fuel, render lib env fuel name ≠ .hangs :=
  ⟨Ends.bounded, fun ⟨bounded, returns⟩ => bounded.ends returns⟩

end Renders

section Range

variable {F : Type} {stop step i : ℤ} {fuel n : ℕ}

def Fits (n : ℤ) : Prop := -2 ^ 63 ≤ n ∧ n < 2 ^ 63

/-- How many numbers there are from `start` before `stop`. -/
def IsCount (start stop step : ℤ) (n : ℕ) : Prop :=
  (∀ k : ℕ, k < n → Before stop step (start + k * step)) ∧ ¬ Before stop step (start + n * step)

def rangeNumbers (start step : ℤ) (n : ℕ) : List ℤ := (List.range n).map fun k : ℕ => start + k * step

/-- The loop goes round as often as its numbers, which may have wrapped, are before `stop`. -/
theorem rangeItems_eq_none_iff (fits : Fits i) :
    rangeItems stop step fuel i = none ↔ ∀ k : ℕ, k < fuel → Before stop step (int64 (i + k * step)) := by
  induction fuel generalizing i with
  | zero => exact ⟨fun _ k lt => absurd lt (Nat.not_lt_zero k), fun _ => rfl⟩
  | succ fuel ih =>
    have here : int64 (i + (0 : ℕ) * step) = i := by
      rw [Nat.cast_zero, Int.zero_mul, Int.add_zero, int64_of_fits fits.1 fits.2]
    have later (k : ℕ) : int64 (int64 (i + step) + k * step) = int64 (i + (k + 1 : ℕ) * step) := by
      rw [int64_int64_add]
      congr 1
      push_cast
      ring
    rw [rangeItems]
    split_ifs with before
    · rw [Option.map_eq_none_iff, ih (int64_range _)]
      constructor
      · rintro all (_ | k) lt
        · rw [here]
          exact before
        · rw [← later]
          exact all k (Nat.lt_of_succ_lt_succ lt)
      · intro all k lt
        rw [later]
        exact all (k + 1) (Nat.succ_lt_succ lt)
    · refine ⟨fun none => (by cases none), fun all => absurd (all 0 (Nat.succ_pos _)) ?_⟩
      rwa [here]

/-- The counter reaches every i64 whose distance is a multiple of what divides the step and `2 ^ 64`. -/
theorem exists_round {last : ℤ} (fits : Fits last) (apart : (Int.gcd step (2 ^ 64) : ℤ) ∣ last - i) :
    ∃ k : ℕ, k < 2 ^ 64 ∧ int64 (i + k * step) = last := by
  obtain ⟨c, difference⟩ := apart
  rw [Int.gcd_eq_gcd_ab] at difference
  generalize step.gcdA (2 ^ 64) = a, step.gcdB (2 ^ 64) = b at difference
  obtain ⟨k, quotient, lt, cut⟩ : ∃ (k : ℕ) (quotient : ℤ), k < 2 ^ 64 ∧ k + 2 ^ 64 * quotient = a * c :=
    ⟨(a * c % 2 ^ 64).toNat, a * c / 2 ^ 64, by omega, by omega⟩
  have same : i + k * step = last + (2 ^ 64 : ℕ) * -(b * c + quotient * step) := by
    push_cast
    grind
  refine ⟨k, lt, ?_⟩
  rw [same, int64, Int.add_mul_bmod_self_left]
  exact int64_of_fits fits.1 fits.2

/-- The loop of `range` never ends exactly when every i64 that its counter can wrap to is before `stop`. -/
theorem rangeItems_endless_iff (fits : Fits i) (enough : rangeRounds < fuel) : rangeItems stop step fuel i = none ↔
    ∀ last, Fits last → (Int.gcd step (2 ^ 64) : ℤ) ∣ last - i → Before stop step last := by
  rw [rangeItems_eq_none_iff fits]
  constructor
  · intro endless last fitsLast apart
    obtain ⟨k, lt, rfl⟩ := exists_round fitsLast apart
    exact endless k (lt.trans enough)
  · intro all k _
    refine all _ (int64_range _) ?_
    have wraps : (2 ^ 64 : ℤ) ∣ int64 (i + k * step) - (i + k * step) := Int.dvd_bmod_sub_self
    rw [← sub_add_sub_cancel _ (i + k * step), add_sub_cancel_left]
    exact Int.dvd_add ((Int.gcd_dvd_right ..).trans wraps) (Dvd.dvd.mul_left (Int.gcd_dvd_left ..) _)

/-- From 0 by 2, the counter never gets to the largest i64. -/
theorem rangeItems_endless_iff_even : rangeItems (2 ^ 63 - 1) 2 (rangeRounds + 1) 0 = none := by
  refine (rangeItems_endless_iff ⟨by decide, by decide⟩ (Nat.lt_succ_self _)).mpr fun last fits even => ?_
  have even : (2 : ℤ) ∣ last - 0 := even
  have below := fits.2
  exact .inl ⟨by decide, by omega⟩

theorem rangeItems_succ_of_before {items : List ℤ} (before : Before stop step i)
    (found : rangeItems stop step (fuel + 1) i = some items) :
    ∃ rest, items = i :: rest ∧ rangeItems stop step fuel (int64 (i + step)) = some rest := by
  rw [rangeItems, if_pos before] at found
  obtain ⟨rest, later, rfl⟩ := Option.map_eq_some_iff.mp found
  exact ⟨rest, rfl, later⟩

theorem rangeNumbers_succ (start step : ℤ) (n : ℕ) :
    rangeNumbers start step (n + 1) = start :: rangeNumbers (start + step) step n := by
  rw [rangeNumbers, rangeNumbers, List.range_succ_eq_map, List.map_cons, List.map_map, Nat.cast_zero,
    Int.zero_mul, Int.add_zero]
  congr 1
  refine List.map_congr_left fun k _ => ?_
  rw [Function.comp_apply, Nat.cast_succ]
  ring

/-- A number before `stop` that the loop comes to without wrapping fits. -/
theorem fits_of_before {start : ℤ} {k : ℕ} (fits : Fits start) (fitsStop : Fits stop)
    (before : Before stop step (start + k * step)) : Fits (start + k * step) := by
  obtain ⟨low, high⟩ := fits
  obtain ⟨stopLow, stopHigh⟩ := fitsStop
  rcases before with ⟨up, lt⟩ | ⟨down, gt⟩
  · have := Int.mul_nonneg (Int.natCast_nonneg k) up.le
    exact ⟨by omega, by omega⟩
  · have := Int.mul_nonpos_of_nonneg_of_nonpos (Int.natCast_nonneg k) down.le
    exact ⟨by omega, by omega⟩

/-- As long as its numbers fit, the loop gives them, and goes on behind them. -/
theorem rangeItems_prefix {items : List ℤ} (fits : Fits i) (fitsStop : Fits stop)
    (before : ∀ k : ℕ, k < n → Before stop step (i + k * step))
    (found : rangeItems stop step fuel i = some items) :
    ∃ rest, items = rangeNumbers i step n ++ rest ∧
      rangeItems stop step (fuel - n) (int64 (i + n * step)) = some rest := by
  induction n generalizing i fuel items with
  | zero =>
    refine ⟨items, rfl, ?_⟩
    rw [Nat.cast_zero, Int.zero_mul, Int.add_zero, int64_of_fits fits.1 fits.2]
    exact found
  | succ n ih =>
    have here : Before stop step i := by simpa using before 0 (Nat.succ_pos n)
    cases fuel with
    | zero => cases found
    | succ fuel =>
      obtain ⟨rest, rfl, later⟩ := rangeItems_succ_of_before here found
      have shift (k : ℕ) : i + step + k * step = i + (k + 1 : ℕ) * step := by
        push_cast
        ring
      cases n with
      | zero =>
        refine ⟨rest, by simp [rangeNumbers], ?_⟩
        simpa using later
      | succ n =>
        have next : Fits (i + step) := by
          have := fits_of_before (k := 1) fits fitsStop (before 1 (by omega))
          simpa using this
        rw [int64_of_fits next.1 next.2] at later
        obtain ⟨others, rfl, behind⟩ := ih next (fun k lt => shift k ▸ before (k + 1) (by omega)) later
        refine ⟨others, by rw [rangeNumbers_succ i, List.cons_append], ?_⟩
        rw [← shift, Nat.succ_sub_succ]
        exact behind

theorem rangeItems_of_count {start : ℤ} (count : IsCount start stop step n) (fits : Fits start)
    (fitsStop : Fits stop) (last : Fits (start + n * step)) (enough : n < fuel) :
    rangeItems stop step fuel start = some (rangeNumbers start step n) := by
  have stops : ¬ Before stop step (int64 (start + n * step)) := by
    rw [int64_of_fits last.1 last.2]
    exact count.2
  cases found : rangeItems stop step fuel start with
  | none => exact absurd ((rangeItems_eq_none_iff fits).mp found n enough) stops
  | some items =>
    obtain ⟨rest, rfl, behind⟩ := rangeItems_prefix fits fitsStop count.1 found
    obtain ⟨more, left⟩ := Nat.exists_eq_add_of_lt enough
    rw [left, show n + more + 1 - n = more + 1 by omega, rangeItems, if_neg stops] at behind
    cases behind
    rw [List.append_nil]

theorem int64_add_of_wraps {k : ℤ} (low : -2 ^ 63 ≤ i - k * 2 ^ 64) (high : i - k * 2 ^ 64 < 2 ^ 63) :
    int64 i = i - k * 2 ^ 64 := by
  have wraps : int64 i = int64 (i - k * 2 ^ 64) := by
    have same : i = i - k * 2 ^ 64 + k * (2 ^ 64 : ℕ) := by
      push_cast
      ring
    rw [int64, int64]
    conv_lhs => rw [same]
    exact Int.add_mul_bmod_self_right _ _ _
  rw [wraps, int64_of_fits low high]

/-- The loop goes on when the number behind the last one wraps. -/
theorem before_of_not_fits {start : ℤ} (count : IsCount start stop step n) (fits : Fits start)
    (fitsStop : Fits stop) (fitsStep : Fits step) (wraps : ¬ Fits (start + n * step)) :
    Before stop step (int64 (start + n * step)) := by
  cases n with
  | zero => exact absurd (by simpa using fits) wraps
  | succ n =>
    have before := count.1 n (Nat.lt_succ_self n)
    obtain ⟨low, high⟩ := fits_of_before fits fitsStop before
    have next : start + (n + 1 : ℕ) * step = start + n * step + step := by
      push_cast
      ring
    rw [next] at wraps ⊢
    generalize start + n * step = last at before low high wraps
    unfold Fits at wraps fitsStep fitsStop
    rcases before with ⟨up, lt⟩ | ⟨down, gt⟩
    · refine .inl ⟨up, ?_⟩
      rw [@int64_add_of_wraps _ 1 (by omega) (by omega)]
      omega
    · refine .inr ⟨down, ?_⟩
      rw [@int64_add_of_wraps _ (-1) (by omega) (by omega)]
      omega

theorem count_le {start : ℤ} (count : IsCount start stop step n) (fits : Fits start)
    (fitsStop : Fits stop) : n ≤ rangeRounds := by
  cases n with
  | zero => exact Nat.zero_le _
  | succ n =>
    unfold rangeRounds
    unfold Fits at fits fitsStop
    rcases count.1 n (Nat.lt_succ_self n) with ⟨up, lt⟩ | ⟨down, gt⟩
    · have := Int.mul_le_mul_of_nonneg_left (show 1 ≤ step by omega) (Int.natCast_nonneg n)
      omega
    · have := Int.mul_le_mul_of_nonneg_left (show step ≤ -1 by omega) (Int.natCast_nonneg n)
      omega

theorem exists_count (start stop : ℤ) (some : step ≠ 0) : ∃ n, IsCount start stop step n := by
  have passed : ∃ n : ℕ, ¬ Before stop step (start + n * step) := by
    refine ⟨(stop - start).natAbs, ?_⟩
    unfold Before
    rcases Int.lt_or_lt_of_ne some with down | up
    · have := Int.mul_le_mul_of_nonneg_left (show step ≤ -1 by omega)
        (Int.natCast_nonneg (stop - start).natAbs)
      omega
    · have := Int.mul_le_mul_of_nonneg_left (show 1 ≤ step by omega)
        (Int.natCast_nonneg (stop - start).natAbs)
      omega
  exact ⟨Nat.find passed, fun k lt => not_not.mp (Nat.find_min passed lt), Nat.find_spec passed⟩

/-- `range` gives the numbers from `start` before `stop` exactly when the one behind the last is a number of
64 bits. -/
theorem functionRange_iff (lib : Library F) {start : ℤ} (fits : Fits start) (fitsStop : Fits stop)
    (fitsStep : Fits step) (some : step ≠ 0) (count : IsCount start stop step n) :
    functionRange lib [.integer start, .integer stop, .integer step] =
      Option.some (.ok (.list ((rangeNumbers start step n).map .integer))) ↔
    Fits (start + n * step) := by
  have few := count_le count fits fitsStop
  have eq : functionRange lib [.integer start, .integer stop, .integer step] =
      (rangeItems stop step (rangeRounds + 1) start).map fun items =>
        .ok (.list (items.map .integer)) := if_neg some
  rw [eq]
  constructor
  · intro gives
    obtain ⟨items, found, same⟩ := Option.map_eq_some_iff.mp gives
    obtain ⟨rest, rfl, behind⟩ := rangeItems_prefix fits fitsStop count.1 found
    have none : rest = [] := by
      injection same with same
      injection same with same
      have lengths := congrArg List.length same
      simp only [List.length_map, List.length_append] at lengths
      exact List.length_eq_zero_iff.mp (by omega)
    subst none
    by_contra wraps
    rw [show rangeRounds + 1 - n = rangeRounds - n + 1 by omega] at behind
    obtain ⟨_, goesOn, _⟩ :=
      rangeItems_succ_of_before (before_of_not_fits count fits fitsStop fitsStep wraps) behind
    cases goesOn
  · intro last
    rw [rangeItems_of_count count fits fitsStop last (Nat.lt_succ_of_le few)]
    rfl

end Range

section Results

variable {F : Type} (lib : Library F)

/-- `{% extends "a" %}` in the file `a`. -/
def extendsItself : Template ℤ := ⟨asciiBytes "a", .nil, some (.literal (.text (asciiBytes "a"))), [], []⟩

theorem renderTemplate_extendsItself (fuel : ℕ) (r : Renderer ℤ) :
    (levelsOf wholeNumbers (folderOf extendsItself) fuel).renderTemplate extendsItself r =
      .endless (List.replicate fuel .extended ++ r.nest) := by
  induction fuel generalizing r with
  | zero => rfl
  | succ fuel ih =>
    let inner : Renderer ℤ := { r with chain := r.chain ++ [extendsItself] }
    have step : (levelsOf wholeNumbers (folderOf extendsItself) (fuel + 1)).renderTemplate extendsItself r =
        Action.inside .extended id
          ((levelsOf wholeNumbers (folderOf extendsItself) fuel).renderTemplate extendsItself)
          (fun _ after => after) inner := rfl
    rw [step, Action.inside, ih, List.replicate_succ', List.append_assoc]
    rfl

end Results

end Saad.Html
