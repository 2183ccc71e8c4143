import Saad.Ir.Verify

/-! # Live intervals

Instructions and terminators are numbered in layout order, in steps of two from 2; the parameters
are defined at 0. Every vreg gets one interval: from the first to the last position that touches it,
which is a position of the parameters, a definition, a use, the start of a block that it is live
into, or the end of a block that it is live out of. The interval contains every position at which
the vreg is live (`covers_of_liveAt`), in whatever order the blocks are laid out.
-/

namespace Saad

inductive RegClass
  | gpr | fpr
deriving DecidableEq, Repr, Inhabited

/-- The registers of a target. A register is its number. -/
structure TargetDesc where
  /-- In order of preference. -/
  allocatable : RegClass → List ℕ
  isCalleeSaved : ℕ → Bool

/-- The interval of a vreg. An interval that starts after its end was never touched. -/
structure LiveInterval where
  vreg : Vreg
  start : ℤ
  stop : ℤ
  regClass : RegClass
  crossesCall : Bool
deriving DecidableEq, Repr

def regClassOf (type : IrType) : RegClass := if irTypeIsFloat type then .fpr else .gpr

def intervalExtend (interval : LiveInterval) (pos : ℕ) : LiveInterval :=
  { interval with start := min interval.start pos, stop := max interval.stop pos }

namespace LiveInterval

def Covers (interval : LiveInterval) (pos : ℤ) : Prop := interval.start ≤ pos ∧ pos ≤ interval.stop

/-- The position is strictly between the ends of the interval. -/
def spans (interval : LiveInterval) (pos : ℕ) : Bool :=
  decide (interval.start < pos) && decide ((pos : ℤ) < interval.stop)

/-- The two intervals have no common position. -/
def Disjoint (first second : LiveInterval) : Prop :=
  first.stop < second.start ∨ second.stop < first.start

theorem not_disjoint_of_covers {first second : LiveInterval} {pos : ℤ}
    (inFirst : first.Covers pos) (inSecond : second.Covers pos) : ¬ first.Disjoint second := by
  unfold Covers Disjoint at *
  omega

end LiveInterval

section Numbering

variable (func : IrFunction)

/-- The position of the first instruction of a block. -/
def blockStart (b : ℕ) : ℕ :=
  2 + ((func.blocks.take b).map fun block => 2 * block.insts.length + 2).sum

/-- The position of a point of the function. -/
def position (p : IrFunction.Point) : ℕ := blockStart func p.1 + 2 * p.2

/-- The position of the terminator of a block. -/
def blockEnd (b : ℕ) : ℕ :=
  blockStart func b + 2 * (func.blocks[b]?.elim 0 fun block => block.insts.length)

/-- The position of every instruction, in layout order. -/
def instPositions : List ℕ :=
  (func.blocks.mapIdx fun b block =>
    (List.range block.insts.length).map fun i => position func (b, i)).flatten

/-- The positions of the instructions that clobber the caller-saved registers. -/
def callPositions : List ℕ :=
  (func.blocks.mapIdx fun b block =>
    (block.insts.mapIdx fun i inst =>
      if irInstIsCallLike inst then [position func (b, i)] else []).flatten).flatten

variable {func}

theorem blockStart_succ {b : ℕ} {block : IrBlock} (atB : func.blocks[b]? = some block) :
    blockStart func (b + 1) = blockStart func b + 2 * block.insts.length + 2 := by
  obtain ⟨bound, rfl⟩ := List.getElem?_eq_some_iff.mp atB
  simp only [blockStart, List.take_add_one, List.getElem?_eq_getElem bound, Option.toList_some,
    List.map_append, List.map_cons, List.map_nil, List.sum_append, List.sum_cons, List.sum_nil]
  omega

theorem blockEnd_eq {b : ℕ} {block : IrBlock} (atB : func.blocks[b]? = some block) :
    blockEnd func b = position func (b, block.insts.length) := by
  simp [blockEnd, position, atB]

theorem mem_callPositions {pos : ℕ} : pos ∈ callPositions func ↔
    ∃ (b i : ℕ) (block : IrBlock) (inst : IrInst), func.blocks[b]? = some block ∧
      block.insts[i]? = some inst ∧ irInstIsCallLike inst = true ∧ position func (b, i) = pos := by
  simp only [callPositions, List.mem_flatten, List.mem_mapIdx]
  constructor
  · rintro ⟨_, ⟨b, boundB, rfl⟩, mem⟩
    simp only [List.mem_flatten, List.mem_mapIdx] at mem
    obtain ⟨_, ⟨i, boundI, rfl⟩, mem⟩ := mem
    split at mem
    · next isCall =>
      exact ⟨b, i, _, _, List.getElem?_eq_getElem boundB, List.getElem?_eq_getElem boundI, isCall,
        (List.mem_singleton.mp mem).symm⟩
    · exact absurd mem List.not_mem_nil
  · rintro ⟨b, i, block, inst, atB, atI, isCall, rfl⟩
    obtain ⟨boundB, rfl⟩ := List.getElem?_eq_some_iff.mp atB
    obtain ⟨boundI, rfl⟩ := List.getElem?_eq_some_iff.mp atI
    refine ⟨_, ⟨b, boundB, rfl⟩, ?_⟩
    simp only [List.mem_flatten, List.mem_mapIdx]
    exact ⟨_, ⟨i, boundI, rfl⟩, by simp [isCall]⟩

end Numbering

section Touches

variable (func : IrFunction)

/-- Live-in vregs at the first instruction of the block, live-out vregs at its terminator. -/
def edgeTouches (live : IrLiveness func.vregCount) (b : ℕ) : List (Vreg × ℕ) :=
  (List.range func.vregCount).flatMap fun v =>
    (if irBitsetGet (live.liveIn b) v then [(v, blockStart func b)] else []) ++
    (if irBitsetGet (live.liveOut b) v then [(v, blockEnd func b)] else [])

def instTouches (pos : ℕ) (inst : IrInst) : List (Vreg × ℕ) :=
  (irInstUses inst).map (·, pos) ++ inst.dst.toList.map (·, pos)

def blockTouches (live : IrLiveness func.vregCount) (b : ℕ) (block : IrBlock) :
    List (Vreg × ℕ) :=
  edgeTouches func live b ++
  (block.insts.mapIdx fun i inst => instTouches (position func (b, i)) inst).flatten ++
  (irTermUses block.term).map (·, blockEnd func b)

/-- The vregs and the positions that their intervals are extended by, in order. -/
def touches : List (Vreg × ℕ) :=
  func.params.map (·, 0) ++
  (func.blocks.mapIdx (blockTouches func (irComputeLiveness func))).flatten

def extendAt (intervals : Vreg → LiveInterval) (touch : Vreg × ℕ) : Vreg → LiveInterval :=
  setAt intervals touch.1 (intervalExtend (intervals touch.1) touch.2)

def INT32_MAX : ℤ := 2147483647

/-- The interval of a vreg that nothing touched yet. -/
def initialInterval (v : Vreg) : LiveInterval where
  vreg := v
  start := INT32_MAX
  stop := -1
  regClass := regClassOf (irVregType func (some v))
  crossesCall := false

/-- The intervals before `crossesCall` is set. -/
def extendedIntervals : Vreg → LiveInterval :=
  (touches func).foldl extendAt (initialInterval func)

/-- Sets `crossesCall` when a call is strictly between the ends of the interval. -/
def markCrossing (interval : LiveInterval) : LiveInterval :=
  { interval with crossesCall := (callPositions func).any interval.spans }

/-- The interval of every vreg. -/
def intervals (v : Vreg) : LiveInterval := markCrossing func (extendedIntervals func v)

end Touches

/-! ## What the intervals cover -/

section Extend

variable {func : IrFunction} {v : Vreg}

/-- The folded interval: its ends are the least and the greatest touched position, or what they
were before. -/
theorem foldl_extendAt_spec (list : List (Vreg × ℕ)) (start : Vreg → LiveInterval) :
    let after := list.foldl extendAt start v
    after.vreg = (start v).vreg ∧ after.regClass = (start v).regClass ∧
    after.start ≤ (start v).start ∧ (start v).stop ≤ after.stop ∧
    (∀ pos, (v, pos) ∈ list → after.Covers pos) ∧
    (after.start = (start v).start ∨ ∃ pos, (v, pos) ∈ list ∧ after.start = pos) ∧
    (after.stop = (start v).stop ∨ ∃ pos, (v, pos) ∈ list ∧ after.stop = pos) := by
  induction list generalizing start with
  | nil => simp
  | cons touch rest ih =>
    obtain ⟨vreg, cls, low, high, covers, least, greatest⟩ := ih (extendAt start touch)
    simp only [List.foldl_cons] at *
    by_cases same : v = touch.1
    · obtain ⟨w, pos⟩ := touch
      obtain rfl : w = v := same.symm
      have extended : extendAt start (w, pos) w = intervalExtend (start w) pos := setAt_self ..
      rw [extended] at vreg cls low high least greatest
      simp only [intervalExtend] at vreg cls low high least greatest
      refine ⟨vreg, cls, low.trans (min_le_left _ _), (le_max_left _ _).trans high, ?_, ?_, ?_⟩
      · intro other mem
        rcases List.mem_cons.mp mem with same | mem
        · cases same
          exact ⟨low.trans (min_le_right _ _), (le_max_right _ _).trans high⟩
        · exact covers other mem
      · rcases least with same | ⟨other, mem, same⟩
        · rcases min_choice (start w).start (pos : ℤ) with old | new
          · exact .inl (same.trans old)
          · exact .inr ⟨pos, List.mem_cons_self, same.trans new⟩
        · exact .inr ⟨other, List.mem_cons_of_mem _ mem, same⟩
      · rcases greatest with same | ⟨other, mem, same⟩
        · rcases max_choice (start w).stop (pos : ℤ) with old | new
          · exact .inl (same.trans old)
          · exact .inr ⟨pos, List.mem_cons_self, same.trans new⟩
        · exact .inr ⟨other, List.mem_cons_of_mem _ mem, same⟩
    · have kept : extendAt start touch v = start v := setAt_of_ne _ _ same
      rw [kept] at vreg cls low high least greatest
      refine ⟨vreg, cls, low, high, ?_, ?_, ?_⟩
      · intro other mem
        rcases List.mem_cons.mp mem with rfl | mem
        · exact absurd rfl same
        · exact covers other mem
      · exact least.imp_right fun ⟨other, mem, eq⟩ => ⟨other, List.mem_cons_of_mem _ mem, eq⟩
      · exact greatest.imp_right fun ⟨other, mem, eq⟩ => ⟨other, List.mem_cons_of_mem _ mem, eq⟩

theorem covers_of_touch {pos : ℕ} (touched : (v, pos) ∈ touches func) :
    (intervals func v).Covers pos :=
  (foldl_extendAt_spec (touches func) (initialInterval func)).2.2.2.2.1 pos touched

theorem intervals_regClass :
    (intervals func v).regClass = regClassOf (irVregType func (some v)) :=
  (foldl_extendAt_spec (touches func) (initialInterval func)).2.1

theorem intervals_crossesCall : (intervals func v).crossesCall = true ↔
    ∃ callPos ∈ callPositions func,
      (intervals func v).start < callPos ∧ (callPos : ℤ) < (intervals func v).stop := by
  simp [intervals, markCrossing, LiveInterval.spans]

variable (func v) in
theorem intervals_start : (intervals func v).start = INT32_MAX ∨
    ∃ pos, (v, pos) ∈ touches func ∧ (intervals func v).start = pos :=
  (foldl_extendAt_spec (touches func) (initialInterval func)).2.2.2.2.2.1

variable (func v) in
theorem intervals_stop : (intervals func v).stop = -1 ∨
    ∃ pos, (v, pos) ∈ touches func ∧ (intervals func v).stop = pos :=
  (foldl_extendAt_spec (touches func) (initialInterval func)).2.2.2.2.2.2

/-- A vreg has an interval exactly when something touches it. -/
theorem intervals_nonempty_iff : (intervals func v).start ≤ (intervals func v).stop ↔
    ∃ pos, (v, pos) ∈ touches func := by
  constructor
  · intro nonempty
    rcases intervals_stop func v with untouched | ⟨pos, touched, -⟩
    · rcases intervals_start func v with start | ⟨pos, touched, -⟩
      · rw [start, untouched] at nonempty
        exact absurd nonempty (by decide)
      · exact ⟨pos, touched⟩
    · exact ⟨pos, touched⟩
  · rintro ⟨pos, touched⟩
    have covers := covers_of_touch touched
    exact covers.1.trans covers.2

end Extend

section Covers

open IrFunction

variable {func : IrFunction} {b i : ℕ} {block : IrBlock} {inst : IrInst} {v : Vreg}

theorem mem_touches_of_block (atB : func.blocks[b]? = some block) {touch : Vreg × ℕ}
    (mem : touch ∈ blockTouches func (irComputeLiveness func) b block) : touch ∈ touches func := by
  obtain ⟨bound, rfl⟩ := List.getElem?_eq_some_iff.mp atB
  refine List.mem_append_right _ (List.mem_flatten.mpr ⟨_, ?_, mem⟩)
  exact List.mem_mapIdx.mpr ⟨b, bound, rfl⟩

theorem param_touches (mem : v ∈ func.params) : (v, 0) ∈ touches func :=
  List.mem_append_left _ (List.mem_map_of_mem mem)

theorem liveIn_touches (atB : func.blocks[b]? = some block) (bound : v < func.vregCount)
    (live : irBitsetGet ((irComputeLiveness func).liveIn b) v = true) :
    (v, position func (b, 0)) ∈ touches func := by
  apply mem_touches_of_block atB
  simp only [blockTouches, edgeTouches, List.mem_append, List.mem_flatMap, List.mem_range]
  exact .inl (.inl ⟨v, bound, .inl (by simp [live, position])⟩)

theorem liveOut_touches (atB : func.blocks[b]? = some block) (bound : v < func.vregCount)
    (live : irBitsetGet ((irComputeLiveness func).liveOut b) v = true) :
    (v, position func (b, block.insts.length)) ∈ touches func := by
  apply mem_touches_of_block atB
  simp only [blockTouches, edgeTouches, List.mem_append, List.mem_flatMap, List.mem_range]
  exact .inl (.inl ⟨v, bound, .inr (by simp [live, blockEnd_eq atB])⟩)

theorem inst_touches (atB : func.blocks[b]? = some block) (atI : block.insts[i]? = some inst)
    (mem : v ∈ irInstUses inst ∨ inst.dst = some v) :
    (v, position func (b, i)) ∈ touches func := by
  apply mem_touches_of_block atB
  obtain ⟨bound, rfl⟩ := List.getElem?_eq_some_iff.mp atI
  simp only [blockTouches, List.mem_append, List.mem_flatten, List.mem_mapIdx]
  refine .inl (.inr ⟨_, ⟨i, bound, rfl⟩, ?_⟩)
  simpa [instTouches] using mem

theorem term_touches (atB : func.blocks[b]? = some block) (mem : v ∈ irTermUses block.term) :
    (v, position func (b, block.insts.length)) ∈ touches func := by
  apply mem_touches_of_block atB
  simp only [blockTouches, List.mem_append, List.mem_map]
  exact .inr ⟨v, mem, by rw [blockEnd_eq atB]⟩

/-- A use of the vreg in the rest of a block is touched there. -/
theorem touches_of_exposed (atB : func.blocks[b]? = some block) (inside : i ≤ block.insts.length)
    (exposed : Exposed block.term v (block.insts.drop i)) :
    ∃ j, i ≤ j ∧ j ≤ block.insts.length ∧ (v, position func (b, j)) ∈ touches func := by
  induction left : block.insts.length - i generalizing i with
  | zero =>
    have last : i = block.insts.length := by omega
    subst last
    rw [List.drop_length] at exposed
    exact ⟨_, le_rfl, le_rfl, term_touches atB exposed⟩
  | succ left ih =>
    have bound : i < block.insts.length := by omega
    rw [List.drop_eq_getElem_cons bound] at exposed
    rcases exposed with used | ⟨-, later⟩
    · exact ⟨i, le_rfl, inside, inst_touches atB (List.getElem?_eq_getElem bound) (.inl used)⟩
    · obtain ⟨j, order, bound, touched⟩ := ih (by omega) later (by omega)
      exact ⟨j, by omega, bound, touched⟩

/-- A vreg that is live inside a block is live where the block starts, or defined before. -/
theorem touches_before_of_liveAt (indexed : func.Indexed) (placed : func.TargetsPlaced)
    (atB : func.blocks[b]? = some block) (inside : i ≤ block.insts.length)
    (bound : v < func.vregCount) (live : func.flow.LiveAt v (b, i)) :
    ∃ j ≤ i, (v, position func (b, j)) ∈ touches func := by
  induction i with
  | zero =>
    have get := (get_liveIn_iff indexed placed bound b).mpr live
    exact ⟨0, le_rfl, liveIn_touches atB bound get⟩
  | succ i ih =>
    have atI : block.insts[i]? = some block.insts[i] := List.getElem?_eq_getElem inside
    by_cases defines : func.flow.Def (b, i) v
    · obtain ⟨other, found, inst, atI, written⟩ := defines
      cases found.symm.trans atB
      exact ⟨i, by omega, inst_touches atB atI (.inr written)⟩
    · obtain ⟨j, order, touched⟩ := ih (by omega) (.step defines ⟨block, atB, .inl ⟨inside, rfl⟩⟩ live)
      exact ⟨j, by omega, touched⟩

/-- A vreg that is live inside a block is read later in the block, or live where it ends. -/
theorem touches_after_of_liveAt (indexed : func.Indexed) (placed : func.TargetsPlaced)
    (atB : func.blocks[b]? = some block) (inside : i ≤ block.insts.length)
    (bound : v < func.vregCount) (live : func.flow.LiveAt v (b, i)) :
    ∃ j, i ≤ j ∧ j ≤ block.insts.length ∧ (v, position func (b, j)) ∈ touches func := by
  rcases (liveAt_iff atB inside).mp live with exposed | ⟨-, out⟩
  · exact touches_of_exposed atB inside exposed
  · have get := (get_liveOut_iff indexed placed bound b).mpr out
    exact ⟨_, inside, le_rfl, liveOut_touches atB bound get⟩

/-- The interval of a vreg contains every position at which the vreg is live. -/
theorem covers_of_liveAt (indexed : func.Indexed) (placed : func.TargetsPlaced)
    (atB : func.blocks[b]? = some block) (inside : i ≤ block.insts.length)
    (bound : v < func.vregCount) (live : func.flow.LiveAt v (b, i)) :
    (intervals func v).Covers (position func (b, i)) := by
  obtain ⟨j, before, first⟩ := touches_before_of_liveAt indexed placed atB inside bound live
  obtain ⟨k, after, -, last⟩ := touches_after_of_liveAt indexed placed atB inside bound live
  have low := (covers_of_touch first).1
  have high := (covers_of_touch last).2
  simp only [position] at low high ⊢
  exact ⟨by omega, by omega⟩

end Covers

end Saad
