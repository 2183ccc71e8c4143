import Mathlib.Data.Finset.Prod
import Saad.General.Saturate
import Saad.Ir.BlockLiveness

/-! # The liveness dataflow

`irComputeLiveness` repeats a pass over the blocks, last block first, that adds the live-in sets of
the successors to a live-out set and what the block makes of it to its live-in set. Every pass only
adds bits, so the repetition ends after at most one pass for each bit; then the sets are exactly
liveness over paths (`get_liveIn_iff`, `get_liveOut_iff`).
-/

namespace Saad

open General Relation

/-- The live sets of each block, by its layout position. -/
structure IrLiveness (n : ℕ) where
  liveIn : ℕ → IrBitset n := fun _ => 0
  liveOut : ℕ → IrBitset n := fun _ => 0

/-- Store into an array that is indexed by layout positions or vregs. -/
def setAt {α : Type*} (array : ℕ → α) (index : ℕ) (value : α) : ℕ → α :=
  fun i => if i = index then value else array i

@[simp] theorem setAt_self {α : Type*} (array : ℕ → α) (index : ℕ) (value : α) :
    setAt array index value index = value := if_pos rfl

theorem setAt_of_ne {α : Type*} (array : ℕ → α) {index i : ℕ} (value : α) (ne : i ≠ index) :
    setAt array index value i = array i := if_neg ne

theorem setAt_eq_self_iff {α : Type*} (array : ℕ → α) (index : ℕ) (value : α) :
    setAt array index value = array ↔ value = array index := by
  constructor
  · intro same
    simpa using congrFun same index
  · rintro rfl
    funext i
    by_cases h : i = index <;> simp [setAt, h]

section Pass

variable {n : ℕ} (func : IrFunction)

/-- The live-in set of one successor goes into a live-out set. -/
def unionSuccessor (live : IrLiveness n) (state : IrBitset n × Bool) (target : Option ℕ) :
    IrBitset n × Bool :=
  match target.bind func.deref with
  | none => state
  | some succ =>
    let (merged, grew) := irBitsetUnionInto state.1 (live.liveIn succ.index)
    (merged, state.2 || grew)

/-- `live_out[b]` with the live-in sets of the successors added. -/
def unionSuccessors (live : IrLiveness n) (start : IrBitset n × Bool) (block : IrBlock) :
    IrBitset n × Bool :=
  (irBlockSuccessors block).foldl (unionSuccessor func live) start

/-- One block of a pass. -/
def livenessBlock (state : IrLiveness n × Bool) (b : ℕ) : IrLiveness n × Bool :=
  match func.blocks[b]? with
  | none => state
  | some block =>
    let (live, changed) := state
    let (uses, defs) := blockUsesDefs n block
    let (out, changed) := unionSuccessors func live (live.liveOut b, changed) block
    let scratch := uses ||| (out &&& ~~~defs)
    let (inside, grew) := irBitsetUnionInto (live.liveIn b) scratch
    ({ liveIn := setAt live.liveIn b inside, liveOut := setAt live.liveOut b out }, changed || grew)

/-- One pass over the blocks, from the last to the first. -/
def livenessPass (live : IrLiveness n) : IrLiveness n × Bool :=
  (List.range func.blocks.length).reverse.foldl (livenessBlock func) (live, false)

/-- The dataflow until nothing changes; `livenessPass_stable` shows that the fuel is enough. -/
def irComputeLiveness : IrLiveness func.vregCount :=
  saturate (livenessPass func) (2 * (func.blocks.length * func.vregCount) + 1) {}

end Pass

/-! ## A pass only adds bits -/

namespace IrLiveness

variable {n : ℕ}

/-- Every bit of the first sets is in the second. -/
structure Le (first second : IrLiveness n) : Prop where
  liveIn : ∀ b v, irBitsetGet (first.liveIn b) v = true → irBitsetGet (second.liveIn b) v = true
  liveOut : ∀ b v, irBitsetGet (first.liveOut b) v = true → irBitsetGet (second.liveOut b) v = true

theorem Le.refl (live : IrLiveness n) : Le live live := ⟨fun _ _ h => h, fun _ _ h => h⟩

theorem Le.trans {first second third : IrLiveness n} (left : Le first second)
    (right : Le second third) : Le first third :=
  ⟨fun b v get => right.liveIn b v (left.liveIn b v get),
    fun b v get => right.liveOut b v (left.liveOut b v get)⟩

theorem Le.antisymm {first second : IrLiveness n} (left : Le first second)
    (right : Le second first) : first = second := by
  cases first
  cases second
  congr
  · funext b
    exact irBitset_ext fun v => ⟨left.liveIn b v, right.liveIn b v⟩
  · funext b
    exact irBitset_ext fun v => ⟨left.liveOut b v, right.liveOut b v⟩

/-- The number of bits set in the first `count` blocks. -/
def bits (count : ℕ) (live : IrLiveness n) : ℕ :=
  ((Finset.range count ×ˢ Finset.range n).filter fun p => irBitsetGet (live.liveIn p.1) p.2).card +
  ((Finset.range count ×ˢ Finset.range n).filter fun p => irBitsetGet (live.liveOut p.1) p.2).card

theorem bits_le (count : ℕ) (live : IrLiveness n) : live.bits count ≤ 2 * (count * n) := by
  have bound (sets : ℕ → IrBitset n) : ((Finset.range count ×ˢ Finset.range n).filter
      fun p => irBitsetGet (sets p.1) p.2).card ≤ count * n :=
    (Finset.card_filter_le _ _).trans (by simp)
  have := bound live.liveIn
  have := bound live.liveOut
  unfold bits
  omega

/-- The sets agree from block `count` on. -/
def AgreesFrom (count : ℕ) (first second : IrLiveness n) : Prop :=
  ∀ b, count ≤ b → first.liveIn b = second.liveIn b ∧ first.liveOut b = second.liveOut b

theorem bits_lt {count : ℕ} {first second : IrLiveness n} (le : Le first second)
    (frame : AgreesFrom count first second) (ne : first ≠ second) :
    first.bits count < second.bits count := by
  let cells (sets : ℕ → IrBitset n) := (Finset.range count ×ˢ Finset.range n).filter
    fun p => irBitsetGet (sets p.1) p.2
  have subsetIn : cells first.liveIn ⊆ cells second.liveIn :=
    Finset.monotone_filter_right _ fun p _ => le.liveIn p.1 p.2
  have subsetOut : cells first.liveOut ⊆ cells second.liveOut :=
    Finset.monotone_filter_right _ fun p _ => le.liveOut p.1 p.2
  have mem {sets : ℕ → IrBitset n} {b v : ℕ} (inside : b < count)
      (get : irBitsetGet (sets b) v = true) : (b, v) ∈ cells sets := by
    simp [cells, inside, get, irBitsetGet_lt get]
  rcases subsetIn.eq_or_ssubset with sameIn | more
  · rcases subsetOut.eq_or_ssubset with sameOut | more
    · refine absurd (le.antisymm ⟨fun b v get => ?_, fun b v get => ?_⟩) ne
      · by_cases inside : b < count
        · have inFirst : (b, v) ∈ cells first.liveIn := sameIn ▸ mem inside get
          exact (Finset.mem_filter.mp inFirst).2
        · rw [(frame b (by omega)).1]
          exact get
      · by_cases inside : b < count
        · have inFirst : (b, v) ∈ cells first.liveOut := sameOut ▸ mem inside get
          exact (Finset.mem_filter.mp inFirst).2
        · rw [(frame b (by omega)).2]
          exact get
    · exact Nat.add_lt_add_of_le_of_lt (Finset.card_le_card subsetIn) (Finset.card_lt_card more)
  · exact Nat.add_lt_add_of_lt_of_le (Finset.card_lt_card more) (Finset.card_le_card subsetOut)

end IrLiveness

section Pass

variable {n : ℕ} {func : IrFunction}

variable (func) in
theorem unionSuccessor_spec (live : IrLiveness n) (state : IrBitset n × Bool)
    (target : Option ℕ) :
    (∀ v, irBitsetGet (unionSuccessor func live state target).1 v = true ↔
      irBitsetGet state.1 v = true ∨ ∃ succ, target.bind func.deref = some succ ∧
        irBitsetGet (live.liveIn succ.index) v = true) ∧
    ((unionSuccessor func live state target).2 = false ↔
      state.2 = false ∧ (unionSuccessor func live state target).1 = state.1) := by
  unfold unionSuccessor
  cases target.bind func.deref <;> simp [irBitsetUnionInto]

variable (func) in
/-- The union over the successors: every bit comes from the start or from a successor, and the flag
stays clear exactly when nothing was added. -/
theorem unionSuccessors_spec (live : IrLiveness n) (block : IrBlock) (start : IrBitset n × Bool) :
    (∀ v, irBitsetGet (unionSuccessors func live start block).1 v = true ↔
      irBitsetGet start.1 v = true ∨ ∃ target ∈ irBlockSuccessors block, ∃ succ,
        target.bind func.deref = some succ ∧ irBitsetGet (live.liveIn succ.index) v = true) ∧
    ((unionSuccessors func live start block).2 = false ↔
      start.2 = false ∧ (unionSuccessors func live start block).1 = start.1) := by
  unfold unionSuccessors
  induction irBlockSuccessors block generalizing start with
  | nil => simp
  | cons target rest ih =>
    obtain ⟨member, flag⟩ := unionSuccessor_spec func live start target
    obtain ⟨members, flags⟩ := ih (unionSuccessor func live start target)
    simp only [List.foldl_cons, List.exists_mem_cons_iff]
    refine ⟨fun v => by rw [members, member, or_assoc], ?_⟩
    rw [flags, flag, and_assoc]
    constructor
    · rintro ⟨clear, same, stays⟩
      exact ⟨clear, stays.trans same⟩
    · rintro ⟨clear, stays⟩
      have same : (unionSuccessor func live start target).1 = start.1 := by
        refine irBitset_ext fun v => ⟨fun get => ?_, fun get => (member v).mpr (.inl get)⟩
        rw [← stays]
        exact (members v).mpr (.inl get)
      exact ⟨clear, same, stays.trans same.symm⟩

variable (func) in
/-- What one block of a pass does: its sets get what the equations give it, no bit is lost, and the
flag only stays clear when nothing was added. -/
theorem livenessBlock_spec (state : IrLiveness n × Bool) (b : ℕ) :
    state.1.Le (livenessBlock func state b).1 ∧
    IrLiveness.AgreesFrom func.blocks.length state.1 (livenessBlock func state b).1 ∧
    ((livenessBlock func state b).2 = false ↔
      state.2 = false ∧ (livenessBlock func state b).1 = state.1) := by
  unfold livenessBlock
  split
  · exact ⟨.refl _, fun _ _ => ⟨rfl, rfl⟩, by simp⟩
  · next block atB =>
    obtain ⟨live, changed⟩ := state
    obtain ⟨bound, -⟩ := List.getElem?_eq_some_iff.mp atB
    obtain ⟨members, flag⟩ := unionSuccessors_spec func live block (live.liveOut b, changed)
    simp only at members flag ⊢
    set out := unionSuccessors func live (live.liveOut b, changed) block
    refine ⟨⟨fun c v get => ?_, fun c v get => ?_⟩, fun c above => ⟨?_, ?_⟩, ?_⟩
    · by_cases same : c = b
      · subst same
        simp only [setAt_self, irBitsetUnionInto, irBitsetGet_or]
        exact .inl get
      · simpa only [setAt_of_ne _ _ same] using get
    · by_cases same : c = b
      · subst same
        simp only [setAt_self, members]
        exact .inl get
      · simpa only [setAt_of_ne _ _ same] using get
    · exact (setAt_of_ne _ _ (by omega)).symm
    · exact (setAt_of_ne _ _ (by omega)).symm
    · rw [Bool.or_eq_false_iff, flag, IrLiveness.mk.injEq, setAt_eq_self_iff, setAt_eq_self_iff]
      simp only [irBitsetUnionInto, bne_eq_false_iff_eq, and_assoc]
      exact ⟨fun h => ⟨h.1, h.2.2, h.2.1⟩, fun h => ⟨h.1, h.2.2, h.2.1⟩⟩

variable (func) in
/-- The same for any sequence of blocks; when the flag stays clear no block changed anything. -/
theorem foldl_livenessBlock_spec (blocks : List ℕ) (state : IrLiveness n × Bool) :
    state.1.Le (blocks.foldl (livenessBlock func) state).1 ∧
    IrLiveness.AgreesFrom func.blocks.length state.1 (blocks.foldl (livenessBlock func) state).1 ∧
    ((blocks.foldl (livenessBlock func) state).2 = false ↔
      state.2 = false ∧ (blocks.foldl (livenessBlock func) state).1 = state.1) ∧
    ((blocks.foldl (livenessBlock func) state).2 = false →
      ∀ b ∈ blocks, livenessBlock func state b = state) := by
  induction blocks generalizing state with
  | nil => exact ⟨.refl _, fun _ _ => ⟨rfl, rfl⟩, by simp, by simp⟩
  | cons b rest ih =>
    obtain ⟨le, frame, flag⟩ := livenessBlock_spec func state b
    obtain ⟨leRest, frameRest, flagRest, quiet⟩ := ih (livenessBlock func state b)
    simp only [List.foldl_cons]
    refine ⟨le.trans leRest, fun c above => ⟨(frame c above).1.trans (frameRest c above).1,
      (frame c above).2.trans (frameRest c above).2⟩, ?_, fun clear => ?_⟩
    · rw [flagRest, flag, and_assoc]
      constructor
      · rintro ⟨clear, same, stays⟩
        exact ⟨clear, stays.trans same⟩
      · rintro ⟨clear, stays⟩
        have same := le.antisymm (stays ▸ leRest)
        exact ⟨clear, same.symm, stays.trans same⟩
    · obtain ⟨still, same⟩ := flag.mp (flagRest.mp clear).1
      have fixed : livenessBlock func state b = state :=
        Prod.ext same ((flagRest.mp clear).1.trans still.symm)
      rintro c (_ | ⟨_, mem⟩)
      · exact fixed
      · have := quiet clear c mem
        rwa [fixed] at this

theorem livenessPass_rises (live : IrLiveness n) (changed : (livenessPass func live).2 = true) :
    live.bits func.blocks.length < (livenessPass func live).1.bits func.blocks.length := by
  obtain ⟨le, frame, flag, -⟩ :=
    foldl_livenessBlock_spec func (List.range func.blocks.length).reverse (live, false)
  refine IrLiveness.bits_lt le frame fun same => ?_
  have clear : (livenessPass func live).2 = false := flag.mpr ⟨rfl, same.symm⟩
  exact absurd (clear.symm.trans changed) (by decide)

/-- The repetition ends by itself, after at most one pass for each bit and one that changes nothing. -/
theorem irComputeLiveness_ends (func : IrFunction) {fuel : ℕ}
    (enough : 2 * (func.blocks.length * func.vregCount) < fuel) :
    saturate (livenessPass func) fuel {} = irComputeLiveness func :=
  saturate_more (livenessPass func) (IrLiveness.bits func.blocks.length)
    (2 * (func.blocks.length * func.vregCount)) (IrLiveness.bits_le _)
    (fun live => livenessPass_rises live) enough {} (by omega)

/-- The dataflow ends: its result is not changed by any block anymore. -/
theorem livenessPass_stable (func : IrFunction) {b : ℕ} (inside : b < func.blocks.length) :
    livenessBlock func (irComputeLiveness func, false) b = (irComputeLiveness func, false) := by
  obtain ⟨last, -, quiet⟩ := saturate_stable (livenessPass func) (I := fun _ => True)
    (fun _ _ => trivial) (IrLiveness.bits func.blocks.length)
    (2 * (func.blocks.length * func.vregCount)) (IrLiveness.bits_le _)
    (fun live _ => livenessPass_rises live) (2 * (func.blocks.length * func.vregCount) + 1) {}
    trivial (by omega)
  change livenessPass func last = (irComputeLiveness func, false) at quiet
  obtain ⟨-, -, flag, steps⟩ :=
    foldl_livenessBlock_spec func (List.range func.blocks.length).reverse (last, false)
  change (livenessPass func last).2 = false ↔ _ ∧ (livenessPass func last).1 = last at flag
  rw [quiet] at flag
  rw [show irComputeLiveness func = last from (flag.mp rfl).2]
  exact steps (congrArg Prod.snd quiet) b (by simpa using inside)

end Pass

/-! ## The result is liveness over paths -/

namespace IrFunction

variable {func : IrFunction}

/-- Every vreg in the sets is live there. -/
structure Sound {n : ℕ} (func : IrFunction) (live : IrLiveness n) : Prop where
  liveIn : ∀ b v, irBitsetGet (live.liveIn b) v = true → func.flow.LiveAt v (b, 0)
  liveOut : ∀ b v, irBitsetGet (live.liveOut b) v = true → func.LiveOut v b

theorem Sound.step (indexed : func.Indexed) (placed : func.TargetsPlaced) {n : ℕ}
    {state : IrLiveness n × Bool} (sound : func.Sound state.1) (b : ℕ) :
    func.Sound (livenessBlock func state b).1 := by
  unfold livenessBlock
  split
  · exact sound
  · next block atB =>
    obtain ⟨live, changed⟩ := state
    obtain ⟨members, -⟩ := unionSuccessors_spec func live block (live.liveOut b, changed)
    simp only at members ⊢
    set out := unionSuccessors func live (live.liveOut b, changed) block
    have outSound : ∀ v, irBitsetGet out.1 v = true → func.LiveOut v b := by
      intro v get
      rcases (members v).mp get with old | ⟨target, leads, succ, derefs, new⟩
      · exact sound.liveOut b v old
      · exact ⟨block, atB, succ.index, (jumps_iff indexed placed
          (List.mem_of_getElem? atB)).mpr ⟨target, leads, succ, derefs, rfl⟩, sound.liveIn _ v new⟩
    refine ⟨fun c v get => ?_, fun c v get => ?_⟩
    · by_cases same : c = b
      · subst same
        simp only [setAt_self, irBitsetUnionInto, irBitsetGet_or, irBitsetGet_diff] at get
        rcases get with old | exposed | ⟨later, notDefined⟩
        · exact sound.liveIn c v old
        · exact (liveAt_iff atB (Nat.zero_le _)).mpr
            (.inl ((get_blockUsesDefs block (irBitsetGet_lt exposed)).1.mp exposed))
        · exact (liveAt_iff atB (Nat.zero_le _)).mpr (.inr
            ⟨fun defines => notDefined ((get_blockUsesDefs block (irBitsetGet_lt later)).2.mpr defines),
              outSound v later⟩)
      · exact sound.liveIn c v (by simpa only [setAt_of_ne _ _ same] using get)
    · by_cases same : c = b
      · subst same
        exact outSound v (by simpa only [setAt_self] using get)
      · exact sound.liveOut c v (by simpa only [setAt_of_ne _ _ same] using get)

theorem sound_irComputeLiveness (indexed : func.Indexed) (placed : func.TargetsPlaced) :
    func.Sound (irComputeLiveness func) := by
  apply saturate_invariant (I := func.Sound)
  · intro live sound
    have run : ∀ (blocks : List ℕ) (state : IrLiveness func.vregCount × Bool),
        func.Sound state.1 → func.Sound (blocks.foldl (livenessBlock func) state).1 := by
      intro blocks
      induction blocks with
      | nil => exact fun _ sound => sound
      | cons b rest ih => exact fun state sound => ih _ (sound.step indexed placed b)
    exact run _ _ sound
  · exact ⟨by simp, by simp⟩

/-- The equations of the dataflow hold of its result. -/
theorem irComputeLiveness_equations (indexed : func.Indexed) (placed : func.TargetsPlaced)
    {b : ℕ} {block : IrBlock} (atB : func.blocks[b]? = some block) {v : Vreg}
    (bound : v < func.vregCount) :
    (∀ next, func.Jumps block next →
      irBitsetGet ((irComputeLiveness func).liveIn next) v = true →
      irBitsetGet ((irComputeLiveness func).liveOut b) v = true) ∧
    (Exposed block.term v block.insts ∨ (¬ Defines v block.insts ∧
      irBitsetGet ((irComputeLiveness func).liveOut b) v = true) →
      irBitsetGet ((irComputeLiveness func).liveIn b) v = true) := by
  have stable := livenessPass_stable func (List.getElem?_eq_some_iff.mp atB).1
  set live := irComputeLiveness func
  obtain ⟨members, -⟩ := unionSuccessors_spec func live block (live.liveOut b, false)
  simp only [livenessBlock, atB, Prod.mk.injEq] at stable
  obtain ⟨sameIn, sameOut⟩ := IrLiveness.mk.inj (show IrLiveness.mk _ _ = IrLiveness.mk
    live.liveIn live.liveOut from stable.1)
  rw [setAt_eq_self_iff] at sameIn sameOut
  rw [sameOut] at members sameIn
  refine ⟨fun next jumps get => ?_, fun cases => ?_⟩
  · obtain ⟨target, leads, succ, derefs, rfl⟩ :=
      (jumps_iff indexed placed (List.mem_of_getElem? atB)).mp jumps
    exact (members v).mpr (.inr ⟨target, leads, succ, derefs, get⟩)
  · obtain ⟨uses, defs⟩ := get_blockUsesDefs block bound
    rw [← sameIn, irBitsetUnionInto, irBitsetGet_or, irBitsetGet_or, irBitsetGet_diff, uses, defs]
    exact .inr (cases.imp_right And.symm)

/-- A vreg is in the live-in set of a block exactly when it is live over paths at its start. -/
theorem get_liveIn_iff (indexed : func.Indexed) (placed : func.TargetsPlaced) {v : Vreg}
    (bound : v < func.vregCount) (b : ℕ) :
    irBitsetGet ((irComputeLiveness func).liveIn b) v = true ↔ func.flow.LiveAt v (b, 0) := by
  refine ⟨(sound_irComputeLiveness indexed placed).liveIn b v, fun live => ?_⟩
  -- The set of points from which the equations carry the vreg back to the start of the block
  let S (p : Point) : Prop := ∀ block, func.blocks[p.1]? = some block →
    p.2 ≤ block.insts.length ∧ (Exposed block.term v (block.insts.drop p.2) ∨
      (¬ Defines v (block.insts.drop p.2) ∧
        irBitsetGet ((irComputeLiveness func).liveOut p.1) v = true))
  have covered : S (b, 0) := by
    refine live.subset (S := S) ?_ ?_
    · rintro ⟨c, i⟩ ⟨block, atC, used⟩ other found
      cases found.symm.trans atC
      rcases used with ⟨inst, atI, mem⟩ | ⟨rfl, mem⟩
      · obtain ⟨inside, rfl⟩ := List.getElem?_eq_some_iff.mp atI
        exact ⟨inside.le, .inl (by rw [List.drop_eq_getElem_cons inside]; exact .inl mem)⟩
      · exact ⟨le_rfl, .inl (by simpa [Exposed] using mem)⟩
    · rintro ⟨c, i⟩ ⟨d, j⟩ undefined ⟨block, atC, edge⟩ later other found
      cases found.symm.trans atC
      rcases edge with ⟨inside, same⟩ | ⟨rfl, rfl, jumps⟩
      · cases same
        have notDef : block.insts[i].dst ≠ some v := fun defines =>
          undefined ⟨block, atC, _, List.getElem?_eq_getElem inside, defines⟩
        refine ⟨le_of_lt inside, ?_⟩
        rw [List.drop_eq_getElem_cons inside]
        rcases (later block atC).2 with exposed | ⟨notDefined, out⟩
        · exact .inl (.inr ⟨notDef, exposed⟩)
        · exact .inr ⟨not_or.mpr ⟨notDef, notDefined⟩, out⟩
      · obtain ⟨_, _, succ, atNext, _⟩ := id jumps
        have atStart := (later succ atNext).2
        rw [List.drop_zero] at atStart
        refine ⟨le_rfl, .inr ⟨by simp [Defines], ?_⟩⟩
        exact (irComputeLiveness_equations indexed placed atC bound).1 d jumps
          ((irComputeLiveness_equations indexed placed atNext bound).2 atStart)
  have inside : ∃ block, func.blocks[b]? = some block := by
    cases live with
    | use used => exact ⟨_, used.choose_spec.1⟩
    | step _ edge _ => exact ⟨_, edge.choose_spec.1⟩
  obtain ⟨block, atB⟩ := inside
  have atStart := (covered block atB).2
  rw [List.drop_zero] at atStart
  exact (irComputeLiveness_equations indexed placed atB bound).2 atStart

/-- A vreg is in the live-out set of a block exactly when it is live at the start of a successor. -/
theorem get_liveOut_iff (indexed : func.Indexed) (placed : func.TargetsPlaced) {v : Vreg}
    (bound : v < func.vregCount) (b : ℕ) :
    irBitsetGet ((irComputeLiveness func).liveOut b) v = true ↔ func.LiveOut v b := by
  refine ⟨(sound_irComputeLiveness indexed placed).liveOut b v, ?_⟩
  rintro ⟨block, atB, next, jumps, live⟩
  exact (irComputeLiveness_equations indexed placed atB bound).1 next jumps
    ((get_liveIn_iff indexed placed bound next).mpr live)

/-- The dataflow of a function whose blocks are numbered, whose jumps lead to placed blocks and that reads no
vreg that it does not have ends by itself, and its sets are those of the paths. -/
theorem irComputeLiveness_paths (indexed : func.Indexed) (placed : func.TargetsPlaced)
    (exist : ∀ p v, func.flow.Use p v → v < func.vregCount) :
    (∀ fuel, 2 * (func.blocks.length * func.vregCount) < fuel →
      saturate (livenessPass func) fuel {} = irComputeLiveness func) ∧
    ∀ (b : ℕ) (block : IrBlock), func.blocks[b]? = some block → ∀ v,
      (irBitsetGet ((irComputeLiveness func).liveIn b) v = true ↔
        ∃ q, ReflTransGen (fun p next => ¬ func.flow.Def p v ∧ func.flow.Next p next) (b, 0) q ∧
          func.flow.Use q v) ∧
      (irBitsetGet ((irComputeLiveness func).liveOut b) v = true ↔
        ∃ next, func.Jumps block next ∧ irBitsetGet ((irComputeLiveness func).liveIn next) v = true) := by
  refine ⟨fun fuel => irComputeLiveness_ends func, fun b block atB v => ⟨?_, ?_⟩⟩
  · rw [← FlowGraph.liveAt_iff_path]
    by_cases bound : v < func.vregCount
    · exact get_liveIn_iff indexed placed bound b
    · refine iff_of_false (fun get => bound (irBitsetGet_lt get)) fun live => bound ?_
      obtain ⟨q, -, used⟩ := FlowGraph.liveAt_iff_path.mp live
      exact exist q v used
  · by_cases bound : v < func.vregCount
    · rw [get_liveOut_iff indexed placed bound]
      constructor
      · rintro ⟨other, found, next, jumps, live⟩
        cases found.symm.trans atB
        exact ⟨next, jumps, (get_liveIn_iff indexed placed bound next).mpr live⟩
      · rintro ⟨next, jumps, get⟩
        exact ⟨block, atB, next, jumps, (get_liveIn_iff indexed placed bound next).mp get⟩
    · refine iff_of_false (fun get => bound (irBitsetGet_lt get)) ?_
      rintro ⟨next, -, get⟩
      exact bound (irBitsetGet_lt get)

/-- A loop that reads its parameter and the vreg that it defined before the loop. -/
def waitFunction : IrFunction where
  vregTypes := [.i8, .i8]
  params := [0]
  blocks := [
    { id := 0, index := 0, insts := [{ op := .copy, type := .i8, dst := some 1, a := some 0 }],
      term := .jmp (some 1) },
    { id := 1, index := 1, term := .br (some 1) (some 1) (some 2) },
    { id := 2, index := 2, term := .ret none }]

theorem irComputeLiveness_paths_waitFunction :
    (∀ fuel, 2 * (waitFunction.blocks.length * waitFunction.vregCount) < fuel →
      saturate (livenessPass waitFunction) fuel {} = irComputeLiveness waitFunction) ∧
    ∀ (b : ℕ) (block : IrBlock), waitFunction.blocks[b]? = some block → ∀ v,
      (irBitsetGet ((irComputeLiveness waitFunction).liveIn b) v = true ↔
        ∃ q, ReflTransGen (fun p next => ¬ waitFunction.flow.Def p v ∧ waitFunction.flow.Next p next) (b, 0) q ∧
          waitFunction.flow.Use q v) ∧
      (irBitsetGet ((irComputeLiveness waitFunction).liveOut b) v = true ↔
        ∃ next, waitFunction.Jumps block next ∧
          irBitsetGet ((irComputeLiveness waitFunction).liveIn next) v = true) := by
  have blocks (b : ℕ) (block : IrBlock) (atB : waitFunction.blocks[b]? = some block) :
      b < 3 ∧ waitFunction.blocks.getD b default = block := by
    obtain ⟨bound, rfl⟩ := List.getElem?_eq_some_iff.mp atB
    exact ⟨bound, by rw [List.getD_eq_getElem?_getD, atB, Option.getD_some]⟩
  refine @irComputeLiveness_paths waitFunction (fun b block atB => ?_) (fun block mem => ?_) fun p v used => ?_
  · obtain ⟨bound, rfl⟩ := blocks b block atB
    revert b
    decide
  · revert block
    decide
  · obtain ⟨block, atB, ⟨inst, atI, mem⟩ | ⟨-, mem⟩⟩ := used
    · have all : ∀ block ∈ waitFunction.blocks, ∀ inst ∈ block.insts, ∀ v ∈ irInstUses inst, v < 2 := by decide
      exact all block (List.mem_of_getElem? atB) inst (List.mem_of_getElem? atI) v mem
    · have all : ∀ block ∈ waitFunction.blocks, ∀ v ∈ irTermUses block.term, v < 2 := by decide
      exact all block (List.mem_of_getElem? atB) v mem

end IrFunction

end Saad
