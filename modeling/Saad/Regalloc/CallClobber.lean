import Saad.Regalloc.Allocation

/-! # Values that are needed after a call

A call clobbers the caller-saved registers. Intervals that span a call get none of these, and a vreg
that is live over a call usually has such an interval. The exception is a call that is the first
instruction of its block: the interval of a vreg that is live into the block can start at the
position of the call itself, when everything else about the vreg is laid out later.
`callsKeep_iff` says exactly when no register allocation puts a live value at risk.
-/

namespace Saad

open General IrFunction

section Spans

variable (func : IrFunction)

/-- There is a call, memcpy or memset at the point. -/
def CallAt (p : Point) : Prop := ∃ block, func.blocks[p.1]? = some block ∧
  ∃ inst, block.insts[p.2]? = some inst ∧ irInstIsCallLike inst = true

/-- The vreg is live just before the instruction and still just after it. -/
def LiveOver (p : Point) (v : Vreg) : Prop :=
  func.flow.LiveAt v p ∧ func.flow.LiveAt v (p.1, p.2 + 1)

/-- No value that is needed after a call is in a register that the callee may clobber. -/
def CallsKeep (target : TargetDesc) : Prop := ∀ p, CallAt func p → ∀ v, LiveOver func p v →
  (∃ slot, (regallocFunction func target).locations v = .spill slot) ∨
  ∃ reg, (regallocFunction func target).locations v = .reg reg ∧ target.isCalleeSaved reg = true

/-- The order of the layout. -/
def LaidBefore (p q : Point) : Prop := p.1 < q.1 ∨ (p.1 = q.1 ∧ p.2 < q.2)

/-- The point is about the vreg: defines it, reads it, or is an end of a block over which the vreg
is live. -/
def OccursAt (v : Vreg) (p : Point) : Prop := ∃ block, func.blocks[p.1]? = some block ∧
  (func.flow.Def p v ∨ func.flow.Use p v ∨ (p.2 = 0 ∧ func.flow.LiveAt v p) ∨
    (p.2 = block.insts.length ∧ func.LiveOut v p.1))

/-- Something about the vreg is laid out before the call, and something behind it. -/
def Spans (v : Vreg) (call : Point) : Prop :=
  (v ∈ func.params ∨ ∃ p, OccursAt func v p ∧ LaidBefore p call) ∧
  ∃ q, OccursAt func v q ∧ LaidBefore call q

/-- The points of the function: its instructions and terminators. -/
def IsPoint (p : Point) : Prop := ∃ block, func.blocks[p.1]? = some block ∧ p.2 ≤ block.insts.length

/-- The positions are `int`s. -/
def PositionsFit : Prop := ∀ b < func.blocks.length, (blockEnd func b : ℤ) ≤ INT32_MAX

instance : Decidable (PositionsFit func) := inferInstanceAs (Decidable (∀ b < _, _))

variable {func} {v : Vreg}

variable (func) in
theorem blockStart_mono {b c : ℕ} (order : b ≤ c) : blockStart func b ≤ blockStart func c := by
  induction c, order using Nat.le_induction with
  | base => exact le_rfl
  | succ c _ ih =>
    refine ih.trans ?_
    cases atC : func.blocks[c]? with
    | none =>
      have above : func.blocks.length ≤ c := List.getElem?_eq_none_iff.mp atC
      simp only [blockStart]
      rw [List.take_of_length_le above, List.take_of_length_le (by omega)]
    | some block =>
      rw [blockStart_succ atC]
      omega

theorem position_lt {p q : Point} (point : IsPoint func p) (before : LaidBefore p q) :
    position func p < position func q := by
  obtain ⟨block, atP, inside⟩ := point
  simp only [position]
  rcases before with order | ⟨same, order⟩
  · have := blockStart_succ atP
    have := blockStart_mono func (Nat.succ_le_of_lt order)
    simp only [Nat.succ_eq_add_one] at this
    omega
  · rw [same]
    omega

theorem laidBefore_of_position_lt {p q : Point} (point : IsPoint func q)
    (order : position func p < position func q) : LaidBefore p q := by
  rcases lt_trichotomy p.1 q.1 with first | same | last
  · exact .inl first
  · refine .inr ⟨same, ?_⟩
    simp only [position, same] at order
    omega
  · have := position_lt point (.inl last : LaidBefore q p)
    omega

theorem CallAt.isPoint {p : Point} (call : CallAt func p) : IsPoint func p := by
  obtain ⟨block, atB, inst, atI, -⟩ := call
  exact ⟨block, atB, (List.getElem?_eq_some_iff.mp atI).1.le⟩

theorem OccursAt.isPoint {p : Point} (occurs : OccursAt func v p) : IsPoint func p := by
  obtain ⟨block, atB, cases⟩ := occurs
  refine ⟨block, atB, ?_⟩
  rcases cases with ⟨other, found, inst, atI, -⟩ | ⟨other, found, uses⟩ | ⟨first, -⟩ | ⟨last, -⟩
  · cases found.symm.trans atB
    exact (List.getElem?_eq_some_iff.mp atI).1.le
  · cases found.symm.trans atB
    rcases uses with ⟨inst, atI, -⟩ | ⟨last, -⟩
    · exact (List.getElem?_eq_some_iff.mp atI).1.le
    · exact last.le
  · omega
  · exact last.le

/-- The intervals are extended by the parameters and by what occurs. -/
theorem mem_touches_iff (verified : Verified func) (bound : v < func.vregCount) {pos : ℕ} :
    (v, pos) ∈ touches func ↔
      (v ∈ func.params ∧ pos = 0) ∨ ∃ p, OccursAt func v p ∧ position func p = pos := by
  constructor
  · intro mem
    rcases List.mem_append.mp mem with param | mem
    · left
      obtain ⟨w, isParam, same⟩ := List.mem_map.mp param
      cases same
      exact ⟨isParam, rfl⟩
    · right
      obtain ⟨_, inBlock, mem⟩ := List.mem_flatten.mp mem
      obtain ⟨b, boundB, rfl⟩ := List.mem_mapIdx.mp inBlock
      have atB : func.blocks[b]? = some func.blocks[b] := List.getElem?_eq_getElem boundB
      simp only [blockTouches, List.mem_append] at mem
      rcases mem with (edge | inst) | term
      · obtain ⟨w, -, mem⟩ := List.mem_flatMap.mp edge
        rcases List.mem_append.mp mem with mem | mem
        · split_ifs at mem with get
          · cases List.mem_singleton.mp mem
            exact ⟨(b, 0), ⟨_, atB, .inr (.inr (.inl ⟨rfl,
              (get_liveIn_iff verified.indexed verified.placed bound b).mp get⟩))⟩,
              by simp [position]⟩
          · exact absurd mem List.not_mem_nil
        · split_ifs at mem with get
          · cases List.mem_singleton.mp mem
            exact ⟨(b, _), ⟨_, atB, .inr (.inr (.inr ⟨rfl,
              (get_liveOut_iff verified.indexed verified.placed bound b).mp get⟩))⟩,
              (blockEnd_eq atB).symm⟩
          · exact absurd mem List.not_mem_nil
      · obtain ⟨_, inInsts, mem⟩ := List.mem_flatten.mp inst
        obtain ⟨i, boundI, rfl⟩ := List.mem_mapIdx.mp inInsts
        have atI : func.blocks[b].insts[i]? = some func.blocks[b].insts[i] :=
          List.getElem?_eq_getElem boundI
        simp only [instTouches, List.mem_append, List.mem_map, Prod.mk.injEq] at mem
        rcases mem with ⟨w, used, rfl, rfl⟩ | ⟨w, defines, rfl, rfl⟩
        · exact ⟨(b, i), ⟨_, atB, .inr (.inl ⟨_, atB, .inl ⟨_, atI, used⟩⟩)⟩, rfl⟩
        · exact ⟨(b, i), ⟨_, atB, .inl ⟨_, atB, _, atI, by simpa using defines⟩⟩, rfl⟩
      · obtain ⟨w, used, same⟩ := List.mem_map.mp term
        cases same
        exact ⟨(b, _), ⟨_, atB, .inr (.inl ⟨_, atB, .inr ⟨rfl, used⟩⟩)⟩, (blockEnd_eq atB).symm⟩
  · rintro (⟨param, rfl⟩ | ⟨⟨b, i⟩, ⟨block, atB, cases⟩, rfl⟩)
    · exact param_touches param
    · rcases cases with ⟨other, found, inst, atI, defines⟩ | ⟨other, found, uses⟩ | ⟨first, live⟩ |
        ⟨last, out⟩
      · exact inst_touches found atI (.inr defines)
      · rcases uses with ⟨inst, atI, mem⟩ | ⟨last, mem⟩
        · exact inst_touches found atI (.inl mem)
        · simp only at last
          exact last ▸ term_touches found mem
      · simp only at first
        subst first
        exact liveIn_touches atB bound
          ((get_liveIn_iff verified.indexed verified.placed bound b).mpr live)
      · simp only at last
        exact last ▸ liveOut_touches atB bound
          ((get_liveOut_iff verified.indexed verified.placed bound b).mpr out)

theorem callAt_iff {pos : ℕ} :
    pos ∈ callPositions func ↔ ∃ p, CallAt func p ∧ position func p = pos := by
  rw [mem_callPositions]
  constructor
  · rintro ⟨b, i, block, inst, atB, atI, isCall, same⟩
    exact ⟨(b, i), ⟨block, atB, inst, atI, isCall⟩, same⟩
  · rintro ⟨⟨b, i⟩, ⟨block, atB, inst, atI, isCall⟩, same⟩
    exact ⟨b, i, block, inst, atB, atI, isCall, same⟩

theorem PositionsFit.position_le (fit : PositionsFit func) {p : Point} (point : IsPoint func p) :
    (position func p : ℤ) ≤ INT32_MAX := by
  obtain ⟨block, atB, inside⟩ := point
  have := fit p.1 (List.getElem?_eq_some_iff.mp atB).1
  rw [blockEnd_eq atB] at this
  simp only [position] at this ⊢
  omega

variable (func) in
theorem position_pos (p : Point) : 0 < position func p := by
  unfold position blockStart
  omega

/-- An interval that something spans is marked. -/
theorem crossesCall_of_spans (verified : Verified func) (bound : v < func.vregCount) {call : Point}
    (isCall : CallAt func call) (spans : Spans func v call) :
    (intervals func v).crossesCall = true := by
  obtain ⟨before, q, occursQ, after⟩ := spans
  rw [intervals_crossesCall]
  refine ⟨position func call, callAt_iff.mpr ⟨call, isCall, rfl⟩, ?_, ?_⟩
  · rcases before with param | ⟨p, occursP, before⟩
    · have := (covers_of_touch (param_touches param)).1
      have := position_pos func call
      omega
    · have := (covers_of_touch ((mem_touches_iff verified bound).mpr (.inr ⟨p, occursP, rfl⟩))).1
      have := position_lt occursP.isPoint before
      omega
  · have := (covers_of_touch ((mem_touches_iff verified bound).mpr (.inr ⟨q, occursQ, rfl⟩))).2
    have := position_lt isCall.isPoint after
    omega

/-- An interval is only marked when something spans a call. -/
theorem spans_of_crossesCall (verified : Verified func) (fit : PositionsFit func)
    (bound : v < func.vregCount) (crosses : (intervals func v).crossesCall = true) :
    ∃ call, CallAt func call ∧ Spans func v call := by
  obtain ⟨callPos, mem, starts, stops⟩ := intervals_crossesCall.mp crosses
  obtain ⟨call, isCall, rfl⟩ := callAt_iff.mp mem
  refine ⟨call, isCall, ?_, ?_⟩
  · rcases intervals_start func v with unset | ⟨pos, touched, same⟩
    · have := fit.position_le isCall.isPoint
      omega
    · rcases (mem_touches_iff verified bound).mp touched with ⟨param, -⟩ | ⟨p, occurs, rfl⟩
      · exact .inl param
      · exact .inr ⟨p, occurs, laidBefore_of_position_lt isCall.isPoint (by omega)⟩
  · rcases intervals_stop func v with unset | ⟨pos, touched, same⟩
    · omega
    · rcases (mem_touches_iff verified bound).mp touched with ⟨-, rfl⟩ | ⟨q, occurs, rfl⟩
      · omega
      · exact ⟨q, occurs, laidBefore_of_position_lt occurs.isPoint (by omega)⟩

/-- A marked interval gets no caller-saved register. -/
theorem keeps_of_crossesCall {target : TargetDesc} (bound : v < func.vregCount)
    (touched : ∃ pos, (v, pos) ∈ touches func) (crosses : (intervals func v).crossesCall = true) :
    (∃ slot, (regallocFunction func target).locations v = .spill slot) ∨
    ∃ reg, (regallocFunction func target).locations v = .reg reg ∧
      target.isCalleeSaved reg = true := by
  rcases located_of_touch target bound touched with ⟨reg, -, located, saved⟩ | ⟨slot, -, located⟩
  · exact .inr ⟨reg, located, saved crosses⟩
  · exact .inl ⟨slot, located⟩

end Spans

/-! ## A target with registers for everybody -/

/-- A target whose registers are as many as the vregs, and all caller-saved. -/
def clobberTarget (count : ℕ) : TargetDesc where
  allocatable _ := List.range count
  isCalleeSaved _ := false

section Clobber

variable {ivs : Vreg → LiveInterval} {count : ℕ} {done : List Vreg} {bound : ℤ}
  {state : ScanState} {v : Vreg}

/-- Before the last vreg is placed, some register is free. -/
theorem exists_free (scanned : Scanned ivs (clobberTarget count) done bound state)
    (fresh : v ∉ done) (within : ∀ w ∈ v :: done, w < count) :
    ∃ reg < count, state.regFree reg = true := by
  by_contra taken
  push Not at taken
  have held : List.range count ⊆ state.active.map fun w => (state.locations w).regField := by
    intro reg mem
    obtain ⟨w, isActive, located⟩ := scanned.taken reg
      (Bool.eq_false_iff.mpr (taken reg (List.mem_range.mp mem)))
    exact List.mem_map.mpr ⟨w, isActive, by simp [located, Location.regField]⟩
  have few := ((List.subperm_of_subset List.nodup_range held).length_le)
  have distinct : (v :: state.active).Nodup :=
    List.nodup_cons.mpr ⟨fun isActive => fresh (scanned.active_done v isActive),
      scanned.active_nodup⟩
  have inside : v :: state.active ⊆ List.range count := by
    intro w mem
    rw [List.mem_range]
    rcases List.mem_cons.mp mem with rfl | mem
    · exact within w List.mem_cons_self
    · exact within w (List.mem_cons_of_mem _ (scanned.active_done w mem))
  have many := (List.subperm_of_subset distinct inside).length_le
  simp only [List.length_range, List.length_map, List.length_cons] at few many
  omega

/-- There, every interval that does not span a call keeps a register of its own. -/
def KeepsRegister (ivs : Vreg → LiveInterval) (done : List Vreg) (state : ScanState) : Prop :=
  ∀ w ∈ done, (ivs w).crossesCall = false → ∃ reg, state.locations w = .reg reg

theorem KeepsRegister.scanVreg (keeps : KeepsRegister ivs done state)
    (scanned : Scanned ivs (clobberTarget count) done bound state) (fresh : v ∉ done)
    (le : bound ≤ (ivs v).start) (within : ∀ w ∈ v :: done, w < count) :
    KeepsRegister ivs (v :: done) (scanVreg ivs (clobberTarget count) state v) := by
  have expired := scanned.expireActive le
  obtain ⟨free, small, isFree⟩ := exists_free expired fresh within
  have chooses (notCrossing : (ivs v).crossesCall = false) :
      chooseRegister (clobberTarget count) (expireActive ivs state (ivs v).start).regFree (ivs v) ≠
        none := by
    intro full
    exact List.find?_eq_none.mp full free (List.mem_range.mpr small)
      (by simp [isFree, mayUse, notCrossing])
  have kept {locations : Vreg → Location} (other : ∀ w ∈ done, locations w = state.locations w)
      (here : (ivs v).crossesCall = false → ∃ reg, locations v = .reg reg) :
      ∀ w ∈ v :: done, (ivs w).crossesCall = false → ∃ reg, locations w = .reg reg := by
    rintro w (_ | ⟨_, mem⟩) notCrossing
    · exact here notCrossing
    · rw [other w mem]
      exact keeps w mem notCrossing
  have ne {w : Vreg} (mem : w ∈ done) : w ≠ v := fun same => fresh (same ▸ mem)
  unfold Saad.scanVreg KeepsRegister
  generalize placed : placeVreg ivs (clobberTarget count)
    (expireActive ivs state (ivs v).start) v = after
  have cases' := placed ▸ placed_placeVreg ivs (clobberTarget count)
    (expireActive ivs state (ivs v).start) v
  cases cases' with
  | free chosen pooled isFree allowed =>
    exact kept (fun w mem => setAt_of_ne _ _ (ne mem)) fun _ => ⟨chosen, setAt_self ..⟩
  | evict a victim isActive sameClass allowed full =>
    -- Nobody is evicted: a call leaves no register to take, and otherwise one is free
    have notCrossing : (ivs v).crossesCall = false := by
      simpa [mayUse, clobberTarget] using allowed
    exact absurd full (chooses notCrossing)
  | spill full =>
    exact kept (fun w mem => setAt_of_ne _ _ (ne mem)) fun notCrossing =>
      absurd full (chooses notCrossing)

variable (ivs count) in
theorem KeepsRegister.foldl (order : List Vreg) (keeps : KeepsRegister ivs done state)
    (scanned : Scanned ivs (clobberTarget count) done bound state)
    (nodup : (order.reverse ++ done).Nodup)
    (sorted : order.Pairwise fun v w => (ivs v).start ≤ (ivs w).start)
    (le : ∀ v ∈ order, bound ≤ (ivs v).start) (within : ∀ w ∈ order.reverse ++ done, w < count) :
    KeepsRegister ivs (order.reverse ++ done)
      (order.foldl (Saad.scanVreg ivs (clobberTarget count)) state) := by
  induction order generalizing done bound state with
  | nil => exact keeps
  | cons v rest ih =>
    rw [List.reverse_cons, List.append_assoc, List.singleton_append] at nodup within ⊢
    obtain ⟨least, sortedRest⟩ := List.pairwise_cons.mp sorted
    have fresh : v ∉ done := (List.nodup_cons.mp nodup.of_append_right).1
    have first := le v List.mem_cons_self
    exact ih (keeps.scanVreg scanned fresh first fun w mem => within w (List.mem_append_right _ mem))
      (scanned.scanVreg fresh first) nodup sortedRest least within

end Clobber

/-- For the target with registers for everybody, a vreg whose interval does not span a call is in a
caller-saved register. -/
theorem locations_clobberTarget {func : IrFunction} {v : Vreg} (bound : v < func.vregCount)
    (touched : ∃ pos, (v, pos) ∈ touches func)
    (notCrossing : (intervals func v).crossesCall = false) :
    ∃ reg, (regallocFunction func (clobberTarget func.vregCount)).locations v = .reg reg := by
  have ordered := (mem_scanOrder (intervals func) func.vregCount).mpr
    ⟨bound, intervals_nonempty_iff.mpr touched⟩
  have sorted := sorted_scanOrder (intervals func) func.vregCount
  have nodup := nodup_scanOrder (intervals func) func.vregCount
  obtain ⟨least, isLeast⟩ : ∃ least, ∀ w ∈ scanOrder (intervals func) func.vregCount,
      least ≤ (intervals func w).start := by
    cases order : scanOrder (intervals func) func.vregCount with
    | nil => exact ⟨0, by simp⟩
    | cons first rest =>
      rw [order] at sorted
      refine ⟨(intervals func first).start, ?_⟩
      rintro w (_ | ⟨_, mem⟩)
      · exact le_rfl
      · exact (List.pairwise_cons.mp sorted).1 w mem
  have keeps := KeepsRegister.foldl (intervals func) func.vregCount (scanOrder (intervals func) func.vregCount) (by rintro _ ⟨⟩)
    (.initial least) (by rw [List.append_nil]; exact List.nodup_reverse.mpr nodup) sorted isLeast
    (fun w mem => ((mem_scanOrder (intervals func) func.vregCount).mp (by simpa using mem)).1)
  exact keeps v (by simpa using ordered) notCrossing

/-- The block that defines `v0` is laid out behind the one that calls and then returns `v0`. -/
def clobberedFunction : IrFunction where
  returnType := .i64
  vregTypes := [.i64]
  blocks := [
    { id := 0, term := .jmp (some 2) },
    { id := 1, insts := [{ op := .call }], term := .ret (some 0) },
    { id := 2, insts := [{ op := .const, type := .i64, dst := some 0 }], term := .jmp (some 1) }]

/-- The only global: a C function without parameters. -/
def calledGlobals : List IrGlobal := [{ kind := .external, name := [99] }]

end Saad
