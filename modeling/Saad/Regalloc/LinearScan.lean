import Saad.Regalloc.Intervals

/-! # The linear scan

The intervals are visited in order of their start. Each one first frees the registers of the active
intervals that ended strictly before it, then takes a free register that it may use, else the
register of the active interval that ends last, else a spill slot. `Scanned` is what every visit
preserves; its `apart` says that intervals with a common position never share a register.
-/

namespace Saad

inductive Location
  | none
  | reg (number : ℕ)
  | spill (slot : ℕ)
deriving DecidableEq, Repr, Inhabited

/-- The register field of a location, which is only read for vregs that hold a register. -/
def Location.regField : Location → ℕ
  | .reg number => number
  | _ => 0

/-- The state of the scan. `active` are the vregs that currently hold a register. -/
structure ScanState where
  regFree : ℕ → Bool := fun _ => true
  active : List Vreg := []
  locations : Vreg → Location := fun _ => .none
  spillSlotCount : ℕ := 0

section Model

variable (ivs : Vreg → LiveInterval) (target : TargetDesc)

/-- Frees the registers of the active vregs whose interval ended strictly before `start`. The last
active vreg takes the place of a removed one; `fuel` is the number of vregs left to look at. -/
def expire (locations : Vreg → Location) (start : ℤ) :
    ℕ → List Vreg → (ℕ → Bool) → List Vreg × (ℕ → Bool)
  | 0, active, regFree => (active, regFree)
  | _ + 1, [], regFree => ([], regFree)
  | fuel + 1, other :: rest, regFree =>
    if (ivs other).stop < start then
      let moved := match rest.getLast? with
        | none => []
        | some last => last :: rest.dropLast
      expire locations start fuel moved (setAt regFree (locations other).regField true)
    else
      let (rest, regFree) := expire locations start fuel rest regFree
      (other :: rest, regFree)

/-- An interval over a call may only have a callee-saved register. -/
def mayUse (interval : LiveInterval) (reg : ℕ) : Bool :=
  !interval.crossesCall || target.isCalleeSaved reg

/-- The first free register of the pool that the interval may use. -/
def chooseRegister (regFree : ℕ → Bool) (interval : LiveInterval) : Option ℕ :=
  (target.allocatable interval.regClass).find? fun reg => regFree reg && mayUse target interval reg

/-- Looks at one active vreg, at index `a`, for the one that ends last. -/
def considerVictim (locations : Vreg → Location) (interval : LiveInterval)
    (best : Option (ℕ × Vreg)) (candidate : Vreg × ℕ) : Option (ℕ × Vreg) :=
  let (other, a) := candidate
  if (ivs other).regClass ≠ interval.regClass then best
  else if mayUse target interval (locations other).regField = false then best
  else match best with
    | none => some (a, other)
    | some (_, champion) => if (ivs champion).stop < (ivs other).stop then some (a, other) else best

/-- The active vreg of the same class that ends last and whose register the interval may use. -/
def chooseVictim (state : ScanState) (interval : LiveInterval) : Option (ℕ × Vreg) :=
  state.active.zipIdx.foldl (considerVictim ivs target state.locations interval) none

def expireActive (state : ScanState) (start : ℤ) : ScanState :=
  let (active, regFree) :=
    expire ivs state.locations start state.active.length state.active state.regFree
  { state with active := active, regFree := regFree }

def spillVreg (state : ScanState) (v : Vreg) : ScanState :=
  { state with
    locations := setAt state.locations v (.spill state.spillSlotCount)
    spillSlotCount := state.spillSlotCount + 1 }

/-- Gives a location to one vreg, after the expired intervals are gone. -/
def placeVreg (state : ScanState) (v : Vreg) : ScanState :=
  match chooseRegister target state.regFree (ivs v) with
  | some chosen =>
    { state with
      regFree := setAt state.regFree chosen false
      locations := setAt state.locations v (.reg chosen)
      active := state.active ++ [v] }
  | none =>
    match chooseVictim ivs target state (ivs v) with
    | some (a, victim) =>
      if (ivs v).stop < (ivs victim).stop then
        let taken := { state with
          locations := setAt state.locations v (.reg (state.locations victim).regField)
          active := state.active.set a v }
        spillVreg taken victim
      else spillVreg state v
    | none => spillVreg state v

/-- One visit of the scan. -/
def scanVreg (state : ScanState) (v : Vreg) : ScanState :=
  placeVreg ivs target (expireActive ivs state (ivs v).start) v

/-- The order of the scan: by start, then by number. -/
def ScanBefore (v w : ℕ) : Prop :=
  (ivs v).start < (ivs w).start ∨ ((ivs v).start = (ivs w).start ∧ v ≤ w)

instance : DecidableRel (ScanBefore ivs) := fun _ _ => inferInstanceAs (Decidable (_ ∨ _))

/-- The vregs that have an interval, in the order of the scan. -/
def scanOrder (vregCount : ℕ) : List Vreg :=
  ((List.range vregCount).filter fun v => decide ((ivs v).start ≤ (ivs v).stop)).insertionSort
    (ScanBefore ivs)

def linearScan (vregCount : ℕ) : ScanState :=
  (scanOrder ivs vregCount).foldl (scanVreg ivs target) {}

end Model

/-! ## What a visit does -/

section Step

variable {ivs : Vreg → LiveInterval} {target : TargetDesc}

variable (ivs) in
/-- Expiring keeps exactly the active vregs that end late enough, and frees the registers of the
others. -/
theorem expire_spec (locations : Vreg → Location) (start : ℤ) (fuel : ℕ) (active : List Vreg)
    (regFree : ℕ → Bool) (enough : active.length ≤ fuel) :
    let after := expire ivs locations start fuel active regFree
    after.1.Perm (active.filter fun v => decide (start ≤ (ivs v).stop)) ∧
    ∀ reg, after.2 reg = true ↔ regFree reg = true ∨
      ∃ v ∈ active, (ivs v).stop < start ∧ (locations v).regField = reg := by
  induction fuel generalizing active regFree with
  | zero =>
    obtain rfl := List.eq_nil_of_length_eq_zero (Nat.le_zero.mp enough)
    simp [expire]
  | succ fuel ih =>
    cases active with
    | nil => simp [expire]
    | cons other rest =>
      simp only [List.length_cons, Nat.add_le_add_iff_right] at enough
      simp only [expire]
      split
      · next ended =>
        have moved : (match rest.getLast? with
            | none => []
            | some last => last :: rest.dropLast).Perm rest := by
          cases found : rest.getLast? with
          | none => simp [List.getLast?_eq_none_iff.mp found]
          | some last =>
            obtain ⟨front, rfl⟩ := List.getLast?_eq_some_iff.mp found
            simpa using (List.perm_append_singleton last front).symm
        obtain ⟨perm, frees⟩ := ih _ (setAt regFree (locations other).regField true)
          (moved.length_eq.trans_le enough)
        refine ⟨?_, fun reg => ?_⟩
        · rw [List.filter_cons_of_neg (by simpa using ended)]
          exact perm.trans (moved.filter _)
        · rw [frees]
          simp only [moved.mem_iff, List.exists_mem_cons_iff, ended, true_and]
          by_cases same : reg = (locations other).regField
          · simp [same]
          · simp [setAt_of_ne _ _ same, Ne.symm same]
      · next lasts =>
        obtain ⟨perm, frees⟩ := ih rest regFree enough
        refine ⟨?_, fun reg => ?_⟩
        · rw [List.filter_cons_of_pos (by simpa using lasts)]
          exact perm.cons other
        · rw [frees]
          simp [lasts]

theorem mem_expireActive {state : ScanState} {start : ℤ} {v : Vreg} :
    v ∈ (expireActive ivs state start).active ↔ v ∈ state.active ∧ start ≤ (ivs v).stop := by
  have perm := (expire_spec ivs state.locations start _ state.active state.regFree
    le_rfl).1
  simpa [expireActive] using perm.mem_iff

theorem regFree_expireActive {state : ScanState} {start : ℤ} {reg : ℕ} :
    (expireActive ivs state start).regFree reg = true ↔ state.regFree reg = true ∨
      ∃ v ∈ state.active, (ivs v).stop < start ∧ (state.locations v).regField = reg :=
  (expire_spec ivs state.locations start _ state.active state.regFree le_rfl).2 reg

theorem nodup_expireActive {state : ScanState} {start : ℤ} (nodup : state.active.Nodup) :
    (expireActive ivs state start).active.Nodup := by
  have perm := (expire_spec ivs state.locations start _ state.active state.regFree
    le_rfl).1
  exact perm.nodup_iff.mpr (nodup.filter _)

/-- What the search for a victim finds is an active vreg whose register the interval may take. -/
theorem chooseVictim_spec {state : ScanState} {interval : LiveInterval} {a : ℕ} {victim : Vreg}
    (found : chooseVictim ivs target state interval = some (a, victim)) :
    state.active[a]? = some victim ∧ (ivs victim).regClass = interval.regClass ∧
      mayUse target interval (state.locations victim).regField = true := by
  let Good (best : Option (ℕ × Vreg)) : Prop := ∀ a victim, best = some (a, victim) →
    state.active[a]? = some victim ∧ (ivs victim).regClass = interval.regClass ∧
      mayUse target interval (state.locations victim).regField = true
  have kept : ∀ (list : List (Vreg × ℕ)) (best : Option (ℕ × Vreg)),
      (∀ candidate ∈ list, state.active[candidate.2]? = some candidate.1) → Good best →
      Good (list.foldl (considerVictim ivs target state.locations interval) best) := by
    intro list
    induction list with
    | nil => exact fun _ _ good => good
    | cons candidate rest ih =>
      intro best inside good
      refine ih _ (fun c mem => inside c (List.mem_cons_of_mem _ mem)) ?_
      have here := inside candidate List.mem_cons_self
      obtain ⟨other, index⟩ := candidate
      simp only [considerVictim]
      split_ifs with otherClass notAllowed
      · exact good
      · exact good
      · have allowed := Bool.eq_true_of_not_eq_false notAllowed
        have chosen : Good (some (index, other)) := by
          rintro _ _ ⟨⟩
          exact ⟨here, not_not.mp otherClass, allowed⟩
        split
        · exact chosen
        · split_ifs
          · exact chosen
          · exact good
  refine kept state.active.zipIdx none (fun candidate mem => ?_) (by rintro _ _ ⟨⟩) a victim found
  obtain ⟨bound, same⟩ := List.mem_zipIdx' mem
  exact List.getElem?_eq_some_iff.mpr ⟨bound, same.symm⟩

/-- The three things that a visit can do. -/
inductive Placed (ivs : Vreg → LiveInterval) (target : TargetDesc) (v : Vreg)
    (state : ScanState) : ScanState → Prop
  | free (chosen : ℕ) (pooled : chosen ∈ target.allocatable (ivs v).regClass)
      (isFree : state.regFree chosen = true) (allowed : mayUse target (ivs v) chosen = true) :
      Placed ivs target v state { state with
        regFree := setAt state.regFree chosen false
        locations := setAt state.locations v (.reg chosen)
        active := state.active ++ [v] }
  | evict (a : ℕ) (victim : Vreg) (isActive : state.active[a]? = some victim)
      (sameClass : (ivs victim).regClass = (ivs v).regClass)
      (allowed : mayUse target (ivs v) (state.locations victim).regField = true)
      (full : chooseRegister target state.regFree (ivs v) = none) :
      Placed ivs target v state (spillVreg { state with
        locations := setAt state.locations v (.reg (state.locations victim).regField)
        active := state.active.set a v } victim)
  | spill (full : chooseRegister target state.regFree (ivs v) = none) :
      Placed ivs target v state (spillVreg state v)

variable (ivs target) in
theorem placed_placeVreg (state : ScanState) (v : Vreg) :
    Placed ivs target v state (placeVreg ivs target state v) := by
  unfold placeVreg
  split
  · next chosen found =>
    unfold chooseRegister at found
    have suits := List.find?_some found
    simp only [Bool.and_eq_true] at suits
    obtain ⟨isFree, allowed⟩ := suits
    exact .free chosen (List.mem_of_find?_eq_some found) isFree allowed
  · next full =>
    split
    · next a victim found =>
      obtain ⟨isActive, sameClass, allowed⟩ := chooseVictim_spec found
      split_ifs
      · exact .evict a victim isActive sameClass allowed full
      · exact .spill full
    · exact .spill full

end Step

/-! ## What every visit preserves -/

section Invariant

variable {ivs : Vreg → LiveInterval} {target : TargetDesc}

/-- The location is one that the interval may have. -/
def LocationOk (target : TargetDesc) (interval : LiveInterval) (spillSlotCount : ℕ) :
    Location → Prop
  | .none => False
  | .reg reg => reg ∈ target.allocatable interval.regClass ∧ mayUse target interval reg = true
  | .spill slot => slot < spillSlotCount

/-- The state of the scan after the vregs in `done`, with `bound` the start of the last of them. -/
structure Scanned (ivs : Vreg → LiveInterval) (target : TargetDesc) (done : List Vreg) (bound : ℤ)
    (state : ScanState) : Prop where
  located : ∀ v ∈ done, LocationOk target (ivs v) state.spillSlotCount (state.locations v)
  unlocated : ∀ v ∉ done, state.locations v = .none
  active_nodup : state.active.Nodup
  active_done : ∀ v ∈ state.active, v ∈ done
  active_reg : ∀ v ∈ state.active, ∃ reg, state.locations v = .reg reg ∧ state.regFree reg = false
  active_apart : ∀ v ∈ state.active, ∀ w ∈ state.active, state.locations v = state.locations w → v = w
  taken : ∀ reg, state.regFree reg = false → ∃ v ∈ state.active, state.locations v = .reg reg
  ended : ∀ v ∈ done, ∀ reg, state.locations v = .reg reg → v ∉ state.active → (ivs v).stop < bound
  slots : ∀ v ∈ done, ∀ w ∈ done, ∀ slot, state.locations v = .spill slot →
    state.locations w = .spill slot → v = w
  apart : ∀ v ∈ done, ∀ w ∈ done, v ≠ w → ∀ reg, state.locations v = .reg reg →
    state.locations w = .reg reg → (ivs v).Disjoint (ivs w)

theorem Scanned.initial (bound : ℤ) : Scanned ivs target [] bound {} where
  located := by simp
  unlocated := by simp
  active_nodup := List.nodup_nil
  active_done := by simp
  active_reg := by simp
  active_apart := by simp
  taken := by simp
  ended := by simp
  slots := by simp
  apart := by simp

theorem LocationOk.mono {interval : LiveInterval} {count count' : ℕ} {location : Location}
    (ok : LocationOk target interval count location) (le : count ≤ count') :
    LocationOk target interval count' location := by
  cases location with
  | none => exact ok
  | reg reg => exact ok
  | spill slot => exact lt_of_lt_of_le ok le

variable {done : List Vreg} {bound start : ℤ} {state : ScanState} {v : Vreg}

/-- Expiring up to a later start keeps the invariant, with that start as the bound. -/
theorem Scanned.expireActive (scanned : Scanned ivs target done bound state) (le : bound ≤ start) :
    Scanned ivs target done start (expireActive ivs state start) := by
  refine { scanned with
    active_nodup := nodup_expireActive scanned.active_nodup
    active_done := fun v mem => scanned.active_done v (mem_expireActive.mp mem).1
    active_reg := fun v mem => ?_
    active_apart := fun v memV w memW => scanned.active_apart v (mem_expireActive.mp memV).1 w
      (mem_expireActive.mp memW).1
    taken := fun reg isTaken => ?_
    ended := fun v mem reg located inactive => ?_ }
  · obtain ⟨isActive, lasts⟩ := mem_expireActive.mp mem
    obtain ⟨reg, located, isTaken⟩ := scanned.active_reg v isActive
    refine ⟨reg, located, ?_⟩
    rw [Bool.eq_false_iff, Ne, regFree_expireActive]
    rintro (isFree | ⟨w, wActive, expired, same⟩)
    · exact absurd (isFree.symm.trans isTaken) (by decide)
    · obtain ⟨other, wLocated, -⟩ := scanned.active_reg w wActive
      simp only [wLocated, Location.regField] at same
      obtain rfl := scanned.active_apart v isActive w wActive (by rw [located, wLocated, same])
      omega
  · rw [Bool.eq_false_iff, Ne, regFree_expireActive, not_or] at isTaken
    obtain ⟨v, isActive, located⟩ := scanned.taken reg (Bool.eq_false_iff.mpr isTaken.1)
    refine ⟨v, mem_expireActive.mpr ⟨isActive, ?_⟩, located⟩
    by_contra expired
    exact isTaken.2 ⟨v, isActive, by omega, by simp [located, Location.regField]⟩
  · by_cases isActive : v ∈ state.active
    · by_contra lasts
      exact inactive (mem_expireActive.mpr ⟨isActive, by omega⟩)
    · exact (scanned.ended v mem reg located isActive).trans_le le

/-- A register that no active vreg holds was last used before the scan got here. -/
theorem Scanned.ended_of_free (scanned : Scanned ivs target done bound state) {reg : ℕ}
    (isFree : state.regFree reg = true) (mem : v ∈ done) (located : state.locations v = .reg reg) :
    (ivs v).stop < bound := by
  refine scanned.ended v mem reg located fun isActive => ?_
  obtain ⟨other, same, isTaken⟩ := scanned.active_reg v isActive
  rw [located] at same
  cases same
  exact absurd (isFree.symm.trans isTaken) (by decide)

theorem mem_set_of_nodup {active : List Vreg} {a : ℕ} {victim w : Vreg} (nodup : active.Nodup)
    (isActive : active[a]? = some victim) :
    w ∈ active.set a v ↔ w = v ∨ (w ∈ active ∧ w ≠ victim) := by
  obtain ⟨bound, rfl⟩ := List.getElem?_eq_some_iff.mp isActive
  simp only [List.mem_iff_getElem, List.length_set, List.getElem_set]
  constructor
  · rintro ⟨i, inside, rfl⟩
    split
    · exact .inl rfl
    · next other => exact .inr ⟨⟨i, inside, rfl⟩, fun same => other (nodup.getElem_inj_iff.mp same).symm⟩
  · rintro (rfl | ⟨⟨i, inside, rfl⟩, other⟩)
    · exact ⟨a, bound, if_pos rfl⟩
    · exact ⟨i, inside, if_neg fun same => other (by simp [same])⟩

/-- A vreg without a register goes to a new spill slot. -/
theorem Scanned.spillVreg (scanned : Scanned ivs target done (ivs v).start state) (fresh : v ∉ done) :
    Scanned ivs target (v :: done) (ivs v).start (spillVreg state v) := by
  have kept {w : Vreg} (mem : w ∈ done) : (Saad.spillVreg state v).locations w = state.locations w :=
    setAt_of_ne _ _ fun same => fresh (same ▸ mem)
  have here : (Saad.spillVreg state v).locations v = .spill state.spillSlotCount := setAt_self ..
  have active {w : Vreg} (mem : w ∈ state.active) := kept (scanned.active_done w mem)
  have old {w : Vreg} (mem : w ∈ done) : state.locations w ≠ .spill state.spillSlotCount := by
    intro located
    have := scanned.located w mem
    rw [located] at this
    exact lt_irrefl _ this
  constructor
  case located =>
    rintro w (_ | ⟨_, mem⟩)
    · rw [here]
      exact Nat.lt_succ_self _
    · rw [kept mem]
      exact (scanned.located w mem).mono (Nat.le_succ _)
  case unlocated =>
    intro w notMem
    rw [List.mem_cons, not_or] at notMem
    exact (setAt_of_ne _ _ notMem.1).trans (scanned.unlocated w notMem.2)
  case active_nodup => exact scanned.active_nodup
  case active_done => exact fun w mem => List.mem_cons_of_mem _ (scanned.active_done w mem)
  case active_reg =>
    intro w mem
    rw [active mem]
    exact scanned.active_reg w mem
  case active_apart =>
    intro w memW x memX same
    rw [active memW, active memX] at same
    exact scanned.active_apart w memW x memX same
  case taken =>
    intro reg isTaken
    obtain ⟨w, mem, located⟩ := scanned.taken reg isTaken
    exact ⟨w, mem, (active mem).trans located⟩
  case ended =>
    rintro w (_ | ⟨_, mem⟩) reg located inactive
    · exact absurd (here.symm.trans located) (by simp)
    · rw [kept mem] at located
      exact scanned.ended w mem reg located inactive
  case slots =>
    rintro w (_ | ⟨_, memW⟩) x (_ | ⟨_, memX⟩) slot locW locX
    · rfl
    · rw [kept memX] at locX
      rw [here] at locW
      exact absurd (locX.trans locW.symm) (old memX)
    · rw [kept memW] at locW
      rw [here] at locX
      exact absurd (locW.trans locX.symm) (old memW)
    · rw [kept memW] at locW
      rw [kept memX] at locX
      exact scanned.slots w memW x memX slot locW locX
  case apart =>
    rintro w (_ | ⟨_, memW⟩) x (_ | ⟨_, memX⟩) ne reg locW locX
    · exact absurd rfl ne
    · exact absurd (here.symm.trans locW) (by simp)
    · exact absurd (here.symm.trans locX) (by simp)
    · rw [kept memW] at locW
      rw [kept memX] at locX
      exact scanned.apart w memW x memX ne reg locW locX

/-- A vreg that takes a free register meets no interval that had the register before. -/
theorem Scanned.takeFree (scanned : Scanned ivs target done (ivs v).start state) (fresh : v ∉ done)
    {chosen : ℕ} (pooled : chosen ∈ target.allocatable (ivs v).regClass)
    (isFree : state.regFree chosen = true) (allowed : mayUse target (ivs v) chosen = true) :
    Scanned ivs target (v :: done) (ivs v).start { state with
      regFree := setAt state.regFree chosen false
      locations := setAt state.locations v (.reg chosen)
      active := state.active ++ [v] } := by
  have kept {w : Vreg} (mem : w ∈ done) :
      setAt state.locations v (.reg chosen) w = state.locations w :=
    setAt_of_ne _ _ fun same => fresh (same ▸ mem)
  have active {w : Vreg} (mem : w ∈ state.active) := kept (scanned.active_done w mem)
  have unused {w : Vreg} (mem : w ∈ state.active) : state.locations w ≠ .reg chosen := by
    intro located
    obtain ⟨reg, same, isTaken⟩ := scanned.active_reg w mem
    cases located.symm.trans same
    exact absurd (isFree.symm.trans isTaken) (by decide)
  constructor
  case located =>
    rintro w (_ | ⟨_, mem⟩)
    · simpa only [setAt_self] using ⟨pooled, allowed⟩
    · simpa only [kept mem] using scanned.located w mem
  case unlocated =>
    intro w notMem
    rw [List.mem_cons, not_or] at notMem
    exact (setAt_of_ne _ _ notMem.1).trans (scanned.unlocated w notMem.2)
  case active_nodup =>
    rw [List.nodup_append]
    refine ⟨scanned.active_nodup, List.nodup_singleton v, ?_⟩
    rintro w mem x (_ | ⟨_, ⟨⟩⟩) rfl
    exact fresh (scanned.active_done w mem)
  case active_done =>
    intro w mem
    rcases List.mem_append.mp mem with mem | mem
    · exact List.mem_cons_of_mem _ (scanned.active_done w mem)
    · simp_all
  case active_reg =>
    intro w mem
    rcases List.mem_append.mp mem with mem | mem
    · obtain ⟨reg, located, isTaken⟩ := scanned.active_reg w mem
      refine ⟨reg, (active mem).trans located, ?_⟩
      have other : reg ≠ chosen := fun same => unused mem (same ▸ located)
      exact (setAt_of_ne _ _ other).trans isTaken
    · obtain rfl := List.mem_singleton.mp mem
      exact ⟨chosen, setAt_self .., setAt_self ..⟩
  case active_apart =>
    intro w memW x memX same
    rcases List.mem_append.mp memW with inW | inW <;> rcases List.mem_append.mp memX with inX | inX
    · simp only [active inW, active inX] at same
      exact scanned.active_apart w inW x inX same
    · obtain rfl := List.mem_singleton.mp inX
      simp only [active inW, setAt_self] at same
      exact absurd same (unused inW)
    · obtain rfl := List.mem_singleton.mp inW
      simp only [active inX, setAt_self] at same
      exact absurd same.symm (unused inX)
    · rw [List.mem_singleton.mp inW, List.mem_singleton.mp inX]
  case taken =>
    intro reg isTaken
    by_cases same : reg = chosen
    · exact ⟨v, by simp, by simp [same]⟩
    · simp only [setAt_of_ne _ _ same] at isTaken
      obtain ⟨w, mem, located⟩ := scanned.taken reg isTaken
      exact ⟨w, List.mem_append_left _ mem, (active mem).trans located⟩
  case ended =>
    rintro w (_ | ⟨_, mem⟩) reg located inactive
    · simp at inactive
    · simp only [kept mem] at located
      exact scanned.ended w mem reg located fun isActive => inactive (List.mem_append_left _ isActive)
  case slots =>
    rintro w (_ | ⟨_, memW⟩) x (_ | ⟨_, memX⟩) slot locW locX
    · rfl
    · simp at locW
    · simp at locX
    · simp only [kept memW, kept memX] at locW locX
      exact scanned.slots w memW x memX slot locW locX
  case apart =>
    rintro w (_ | ⟨_, memW⟩) x (_ | ⟨_, memX⟩) ne reg locW locX
    · exact absurd rfl ne
    · simp only [kept memX, setAt_self, Location.reg.injEq] at locW locX
      exact .inr (scanned.ended_of_free isFree memX (locX.trans (congrArg _ locW.symm)))
    · simp only [kept memW, setAt_self, Location.reg.injEq] at locW locX
      exact .inl (scanned.ended_of_free isFree memW (locW.trans (congrArg _ locX.symm)))
    · simp only [kept memW, kept memX] at locW locX
      exact scanned.apart w memW x memX ne reg locW locX

/-- The register of an evicted vreg passes on. Nobody else had it since the scan got past them, and
the victim is in memory for its whole life. -/
theorem Scanned.evict (scanned : Scanned ivs target done (ivs v).start state) (fresh : v ∉ done)
    {a : ℕ} {victim : Vreg} (isActive : state.active[a]? = some victim)
    (sameClass : (ivs victim).regClass = (ivs v).regClass)
    (allowed : mayUse target (ivs v) (state.locations victim).regField = true) :
    Scanned ivs target (v :: done) (ivs v).start (Saad.spillVreg { state with
      locations := setAt state.locations v (.reg (state.locations victim).regField)
      active := state.active.set a v } victim) := by
  have victimActive : victim ∈ state.active := List.mem_of_getElem? isActive
  have victimDone := scanned.active_done victim victimActive
  have ne : v ≠ victim := fun same => fresh (same ▸ victimDone)
  obtain ⟨reg, held, isTaken⟩ := scanned.active_reg victim victimActive
  obtain ⟨pooled, -⟩ : reg ∈ target.allocatable (ivs victim).regClass ∧ _ := by
    simpa [LocationOk, held] using scanned.located victim victimDone
  rw [held] at allowed ⊢
  simp only [Location.regField] at allowed ⊢
  set after := Saad.spillVreg { state with
    locations := setAt state.locations v (.reg reg)
    active := state.active.set a v } victim with definition
  have atVictim : after.locations victim = .spill state.spillSlotCount := setAt_self ..
  have atV : after.locations v = .reg reg := (setAt_of_ne _ _ ne).trans (setAt_self ..)
  have kept {w : Vreg} (notV : w ≠ v) (notVictim : w ≠ victim) :
      after.locations w = state.locations w :=
    (setAt_of_ne _ _ notVictim).trans (setAt_of_ne _ _ notV)
  have keptDone {w : Vreg} (mem : w ∈ done) (notVictim : w ≠ victim) :
      after.locations w = state.locations w := kept (fun same => fresh (same ▸ mem)) notVictim
  have active {w : Vreg} : w ∈ after.active ↔ w = v ∨ (w ∈ state.active ∧ w ≠ victim) :=
    mem_set_of_nodup scanned.active_nodup isActive
  -- Only the victim holds the register among the active ones, so the others are already past
  have past {w : Vreg} (mem : w ∈ done) (other : w ≠ victim) (located : state.locations w = .reg reg) :
      (ivs w).stop < (ivs v).start :=
    scanned.ended w mem reg located fun isActive =>
      other (scanned.active_apart w isActive victim victimActive (located.trans held.symm))
  have old {w : Vreg} (mem : w ∈ done) : state.locations w ≠ .spill state.spillSlotCount := by
    intro located
    have := scanned.located w mem
    rw [located] at this
    exact lt_irrefl _ this
  constructor
  case located =>
    rintro w (_ | ⟨_, mem⟩)
    · rw [atV]
      exact ⟨sameClass ▸ pooled, allowed⟩
    · by_cases same : w = victim
      · rw [same, atVictim]
        exact Nat.lt_succ_self _
      · rw [keptDone mem same]
        exact (scanned.located w mem).mono (Nat.le_succ _)
  case unlocated =>
    intro w notMem
    rw [List.mem_cons, not_or] at notMem
    rw [kept notMem.1 fun same => notMem.2 (same ▸ victimDone)]
    exact scanned.unlocated w notMem.2
  case active_nodup =>
    exact scanned.active_nodup.set fun mem => fresh (scanned.active_done v mem)
  case active_done =>
    intro w mem
    rcases active.mp mem with rfl | ⟨mem, -⟩
    · exact List.mem_cons_self
    · exact List.mem_cons_of_mem _ (scanned.active_done w mem)
  case active_reg =>
    intro w mem
    rcases active.mp mem with rfl | ⟨mem, other⟩
    · exact ⟨reg, atV, isTaken⟩
    · rw [keptDone (scanned.active_done w mem) other]
      exact scanned.active_reg w mem
  case active_apart =>
    have notShared {w : Vreg} (mem : w ∈ state.active) (other : w ≠ victim) :
        after.locations w ≠ .reg reg := by
      rw [keptDone (scanned.active_done w mem) other]
      exact fun located =>
        other (scanned.active_apart w mem victim victimActive (located.trans held.symm))
    intro w memW x memX same
    rcases active.mp memW with rfl | ⟨inW, otherW⟩ <;> rcases active.mp memX with rfl | ⟨inX, otherX⟩
    · rfl
    · exact absurd (same.symm.trans atV) (notShared inX otherX)
    · exact absurd (same.trans atV) (notShared inW otherW)
    · rw [keptDone (scanned.active_done w inW) otherW,
        keptDone (scanned.active_done x inX) otherX] at same
      exact scanned.active_apart w inW x inX same
  case taken =>
    intro other isTaken
    obtain ⟨w, mem, located⟩ := scanned.taken other isTaken
    by_cases same : w = victim
    · subst same
      exact ⟨v, active.mpr (.inl rfl), atV.trans (held.symm.trans located)⟩
    · exact ⟨w, active.mpr (.inr ⟨mem, same⟩),
        (keptDone (scanned.active_done w mem) same).trans located⟩
  case ended =>
    rintro w (_ | ⟨_, mem⟩) other located inactive
    · exact absurd (active.mpr (.inl rfl)) inactive
    · by_cases same : w = victim
      · subst same
        exact absurd (atVictim.symm.trans located) (by simp)
      · rw [keptDone mem same] at located
        exact scanned.ended w mem other located fun isActive =>
          inactive (active.mpr (.inr ⟨isActive, same⟩))
  case slots =>
    have fromDone {w : Vreg} {slot : ℕ} (mem : w ∈ v :: done)
        (located : after.locations w = .spill slot) : w ∈ done := by
      rcases List.mem_cons.mp mem with rfl | mem
      · exact absurd (atV.symm.trans located) (by simp)
      · exact mem
    intro w memW x memX slot locW locX
    have inW := fromDone memW locW
    have inX := fromDone memX locX
    by_cases sameW : w = victim <;> by_cases sameX : x = victim
    · exact sameW.trans sameX.symm
    · subst sameW
      rw [keptDone inX sameX, ← locW.symm.trans atVictim |>.symm] at locX
      exact absurd locX (old inX)
    · subst sameX
      rw [keptDone inW sameW, ← locX.symm.trans atVictim |>.symm] at locW
      exact absurd locW (old inW)
    · rw [keptDone inW sameW] at locW
      rw [keptDone inX sameX] at locX
      exact scanned.slots w inW x inX slot locW locX
  case apart =>
    have notVictim {w : Vreg} {other : ℕ} (located : after.locations w = .reg other) :
        w ≠ victim := by
      rintro rfl
      exact absurd (atVictim.symm.trans located) (by simp)
    have toReg {other : ℕ} (located : after.locations v = .reg other) : other = reg := by
      simpa using located.symm.trans atV
    rintro w (_ | ⟨_, inW⟩) x (_ | ⟨_, inX⟩) apart other locW locX
    · exact absurd rfl apart
    · have otherX := notVictim locX
      rw [keptDone inX otherX, toReg locW] at locX
      exact .inr (past inX otherX locX)
    · have otherW := notVictim locW
      rw [keptDone inW otherW, toReg locX] at locW
      exact .inl (past inW otherW locW)
    · have otherW := notVictim locW
      have otherX := notVictim locX
      rw [keptDone inW otherW] at locW
      rw [keptDone inX otherX] at locX
      exact scanned.apart w inW x inX apart other locW locX

theorem Scanned.placed (scanned : Scanned ivs target done (ivs v).start state) (fresh : v ∉ done)
    {after : ScanState} (placed : Placed ivs target v state after) :
    Scanned ivs target (v :: done) (ivs v).start after := by
  cases placed with
  | free chosen pooled isFree allowed => exact scanned.takeFree fresh pooled isFree allowed
  | evict a victim isActive sameClass allowed => exact scanned.evict fresh isActive sameClass allowed
  | spill => exact scanned.spillVreg fresh

/-- One visit keeps the invariant. -/
theorem Scanned.scanVreg (scanned : Scanned ivs target done bound state) (fresh : v ∉ done)
    (le : bound ≤ (ivs v).start) :
    Scanned ivs target (v :: done) (ivs v).start (scanVreg ivs target state v) :=
  (scanned.expireActive le).placed fresh (placed_placeVreg _ _ _ v)

variable (target) in
/-- The whole scan keeps the invariant. -/
theorem Scanned.foldl (order : List Vreg) (scanned : Scanned ivs target done bound state)
    (nodup : (order.reverse ++ done).Nodup)
    (sorted : order.Pairwise fun v w => (ivs v).start ≤ (ivs w).start)
    (le : ∀ v ∈ order, bound ≤ (ivs v).start) :
    ∃ last, Scanned ivs target (order.reverse ++ done) last
      (order.foldl (Saad.scanVreg ivs target) state) := by
  induction order generalizing done bound state with
  | nil => exact ⟨bound, scanned⟩
  | cons v rest ih =>
    rw [List.reverse_cons, List.append_assoc, List.singleton_append] at nodup ⊢
    obtain ⟨least, sortedRest⟩ := List.pairwise_cons.mp sorted
    have fresh : v ∉ done := (List.nodup_cons.mp nodup.of_append_right).1
    exact ih (scanned.scanVreg fresh (le v List.mem_cons_self)) nodup sortedRest least

end Invariant

section Order

variable (ivs : Vreg → LiveInterval) (target : TargetDesc) (vregCount : ℕ)

theorem mem_scanOrder {v : Vreg} :
    v ∈ scanOrder ivs vregCount ↔ v < vregCount ∧ (ivs v).start ≤ (ivs v).stop := by
  simp [scanOrder, List.mem_insertionSort]

theorem nodup_scanOrder : (scanOrder ivs vregCount).Nodup :=
  (List.perm_insertionSort _ _).nodup_iff.mpr (List.nodup_range.filter _)

theorem sorted_scanOrder :
    (scanOrder ivs vregCount).Pairwise fun v w => (ivs v).start ≤ (ivs w).start := by
  have : Std.Total (ScanBefore ivs) := ⟨fun v w => by
    simp only [ScanBefore]
    omega⟩
  have : IsTrans Vreg (ScanBefore ivs) := ⟨fun v w x first second => by
    simp only [ScanBefore] at first second ⊢
    omega⟩
  refine (List.pairwise_insertionSort (ScanBefore ivs) _).imp fun before => ?_
  unfold ScanBefore at before
  omega

/-- The scan ends in a state that keeps the invariant for every vreg that has an interval. -/
theorem scanned_linearScan : ∃ last, Scanned ivs target (scanOrder ivs vregCount).reverse last
    (linearScan ivs target vregCount) := by
  cases order : scanOrder ivs vregCount with
  | nil => exact ⟨0, by simpa [linearScan, order] using Scanned.initial 0⟩
  | cons v rest =>
    have sorted := sorted_scanOrder ivs vregCount
    have nodup := nodup_scanOrder ivs vregCount
    rw [order] at sorted nodup
    have := Scanned.foldl target (v :: rest) (.initial (ivs v).start)
      (by rw [List.append_nil]; exact List.nodup_reverse.mpr nodup) sorted (by
        rintro w (_ | ⟨_, mem⟩)
        · exact le_rfl
        · exact (List.pairwise_cons.mp sorted).1 w mem)
    simpa only [linearScan, order, List.append_nil] using this

end Order

end Saad
