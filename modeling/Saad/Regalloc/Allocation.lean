import Saad.Ir.Execution
import Saad.Regalloc.LinearScan
import Saad.X64.Target

/-! # The register allocation of a function

`regallocFunction` runs the scan on the intervals of a function. For a finalized and accepted
function the locations are good (`regalloc_sound`): vregs whose intervals meet never share one, the
destination of an instruction is never the register of an operand, and a run on the locations reads
what the run on the vregs reads.
-/

namespace Saad

open General IrFunction

/-- What the backends get: a location for every vreg, and what the scan saw. -/
structure RegAllocResult where
  vregCount : ℕ
  locations : Vreg → Location
  intervals : Vreg → LiveInterval
  spillSlotCount : ℕ
  usedCalleeSaved : ℕ → Bool
  /-- The position of every instruction, in layout order. -/
  instPositions : List ℕ

def regallocFunction (func : IrFunction) (target : TargetDesc) : RegAllocResult :=
  let scan := linearScan (intervals func) target func.vregCount
  { vregCount := func.vregCount
    locations := scan.locations
    intervals := intervals func
    spillSlotCount := scan.spillSlotCount
    usedCalleeSaved := fun reg => (List.range func.vregCount).any fun v =>
      scan.locations v == .reg reg && target.isCalleeSaved reg
    instPositions := instPositions func }

section Locations

variable (func : IrFunction) (target : TargetDesc)

/-- The vreg is a parameter, or an instruction or terminator names it. -/
def Mentions (v : Vreg) : Prop :=
  v ∈ func.params ∨ ∃ p, func.flow.Def p v ∨ func.flow.Use p v

/-- A register of the class of the vreg that its interval may use, or an allocated spill slot. -/
def Located (result : RegAllocResult) (v : Vreg) : Prop :=
  (∃ reg ∈ target.allocatable (regClassOf (irVregType func (some v))),
    result.locations v = .reg reg ∧
      ((result.intervals v).crossesCall = true → target.isCalleeSaved reg = true)) ∨
  ∃ slot < result.spillSlotCount, result.locations v = .spill slot

/-- Neither a register nor a spill slot is the location of both. -/
def Apart (result : RegAllocResult) (v w : Vreg) : Prop :=
  (∀ reg, ¬ (result.locations v = .reg reg ∧ result.locations w = .reg reg)) ∧
  ∀ slot, ¬ (result.locations v = .spill slot ∧ result.locations w = .spill slot)

variable {func target}

theorem touches_of_mentions {v : Vreg} (mentioned : Mentions func v) :
    ∃ pos, (v, pos) ∈ touches func := by
  rcases mentioned with param | ⟨p, ⟨block, atB, inst, atI, defines⟩ | ⟨block, atB, uses⟩⟩
  · exact ⟨0, param_touches param⟩
  · exact ⟨_, inst_touches atB atI (.inr defines)⟩
  · rcases uses with ⟨inst, atI, mem⟩ | ⟨-, mem⟩
    · exact ⟨_, inst_touches atB atI (.inl mem)⟩
    · exact ⟨_, term_touches atB mem⟩

/-- A vreg with a location went through the scan. -/
theorem mem_scanOrder_of_located {v : Vreg}
    (located : (regallocFunction func target).locations v ≠ .none) :
    v ∈ scanOrder (intervals func) func.vregCount := by
  obtain ⟨last, scanned⟩ := scanned_linearScan (intervals func) target func.vregCount
  by_contra outside
  exact located (scanned.unlocated v (by simpa using outside))

variable (target) in
theorem located_of_touch {v : Vreg} (bound : v < func.vregCount)
    (touched : ∃ pos, (v, pos) ∈ touches func) :
    Located func target (regallocFunction func target) v := by
  obtain ⟨last, scanned⟩ := scanned_linearScan (intervals func) target func.vregCount
  have ordered := (mem_scanOrder (intervals func) func.vregCount).mpr
    ⟨bound, intervals_nonempty_iff.mpr touched⟩
  have ok := scanned.located v (List.mem_reverse.mpr ordered)
  simp only [Located, regallocFunction, ← intervals_regClass]
  cases at' : (linearScan (intervals func) target func.vregCount).locations v with
  | none => exact absurd ok (by simp [at', LocationOk])
  | reg reg =>
    rw [at'] at ok
    obtain ⟨pooled, allowed⟩ := ok
    refine .inl ⟨reg, pooled, rfl, fun crosses => ?_⟩
    simpa [mayUse, crosses] using allowed
  | spill slot =>
    rw [at'] at ok
    exact .inr ⟨slot, ok, rfl⟩

variable (target) in
/-- Vregs whose intervals have a common position have different locations. -/
theorem apart_of_covers {v w : Vreg} (ne : v ≠ w) {pos : ℤ}
    (coversV : (intervals func v).Covers pos) (coversW : (intervals func w).Covers pos) :
    Apart (regallocFunction func target) v w := by
  obtain ⟨last, scanned⟩ := scanned_linearScan (intervals func) target func.vregCount
  have ordered {x : Vreg} (located : (regallocFunction func target).locations x ≠ .none) :
      x ∈ (scanOrder (intervals func) func.vregCount).reverse :=
    List.mem_reverse.mpr (mem_scanOrder_of_located located)
  constructor
  · rintro reg ⟨locV, locW⟩
    exact LiveInterval.not_disjoint_of_covers coversV coversW
      (scanned.apart v (ordered (by simp [locV])) w (ordered (by simp [locW])) ne reg locV locW)
  · rintro slot ⟨locV, locW⟩
    exact ne (scanned.slots v (ordered (by simp [locV])) w (ordered (by simp [locW])) slot locV locW)

/-- Vregs that are apart and have locations have different ones. -/
theorem Apart.ne {result : RegAllocResult} {v w : Vreg} (apart : Apart result v w)
    (located : result.locations v ≠ .none) : result.locations v ≠ result.locations w := by
  intro same
  cases at' : result.locations v with
  | none => exact located at'
  | reg reg => exact apart.1 reg ⟨at', same ▸ at'⟩
  | spill slot => exact apart.2 slot ⟨at', same ▸ at'⟩

theorem Located.ne_none {result : RegAllocResult} {v : Vreg}
    (located : Located func target result v) : result.locations v ≠ .none := by
  rcases located with ⟨reg, -, same, -⟩ | ⟨slot, -, same⟩ <;> simp [same]

theorem covers_of_live (verified : Verified func) {p : Point} {v : Vreg} (live : func.flow.LiveAt v p) :
    (intervals func v).Covers (position func p) := by
  obtain ⟨block, atB, inside⟩ : ∃ block, func.blocks[p.1]? = some block ∧ p.2 ≤ block.insts.length := by
    cases live with
    | use used =>
      obtain ⟨block, atB, ⟨inst, atI, -⟩ | ⟨atEnd, -⟩⟩ := used
      · exact ⟨block, atB, (List.getElem?_eq_some_iff.mp atI).1.le⟩
      · exact ⟨block, atB, atEnd.le⟩
    | step _ edge =>
      obtain ⟨block, atB, ⟨within, -⟩ | ⟨atEnd, -⟩⟩ := edge
      · exact ⟨block, atB, within.le⟩
      · exact ⟨block, atB, atEnd.le⟩
  exact covers_of_liveAt verified.indexed verified.placed atB inside (verified.lt_of_liveAt live) live

/-- At the point of a definition, every other vreg that is live behind it has another location. -/
theorem separates_regalloc (verified : Verified func) {Val W : Type} (sem : IrSemantics Val W) :
    (func.program sem).Separates func.flow (regallocFunction func target).locations := by
  rintro ⟨b, i⟩ q d v writes edge live ne same
  obtain ⟨block, atB, inst, atI, defines⟩ := program_follows.defines.mpr writes
  simp only at atB atI
  have inside : i < block.insts.length := (List.getElem?_eq_some_iff.mp atI).1
  have bound := verified.lt_of_liveAt live
  have notDef : ¬ func.flow.Def (b, i) v := by
    rintro ⟨other, found, instV, atV, definesV⟩
    cases found.symm.trans atB
    cases atV.symm.trans atI
    exact ne (Option.some.inj (definesV.symm.trans defines))
  have coversV := covers_of_liveAt verified.indexed verified.placed atB inside.le bound
    (.step notDef edge live)
  have coversD := covers_of_touch (inst_touches atB atI (.inr defines))
  have apart := apart_of_covers target ne coversV coversD
  obtain ⟨p, used⟩ := exists_use_of_liveAt live
  exact apart.ne (located_of_touch _ bound (touches_of_mentions (.inr ⟨p, .inr used⟩))).ne_none same

/-- The parameters are all defined at position 0, so they have locations of their own. -/
theorem params_apart (verified : Verified func) {v w : Vreg} (paramV : v ∈ func.params)
    (paramW : w ∈ func.params) (ne : v ≠ w) :
    (regallocFunction func target).locations v ≠ (regallocFunction func target).locations w :=
  (apart_of_covers _ ne (covers_of_touch (param_touches paramV))
      (covers_of_touch (param_touches paramW))).ne
    (located_of_touch _ (verified.params_lt v paramV) ⟨0, param_touches paramV⟩).ne_none

/-- Where the function starts, every live vreg is a parameter and has its argument. -/
theorem agrees_enter (verified : Verified func) {Val : Type} {args : List Val}
    (enough : args.length = func.params.length) (vars : Vreg → Val) (store : Location → Val) :
    Program.Agrees func.flow (regallocFunction func target).locations (0, 0)
      (func.enter id args vars)
      (func.enter (regallocFunction func target).locations args store) := by
  intro v live
  obtain ⟨i, param⟩ := List.getElem?_of_mem (verified.live_entry v live)
  have inside : i < args.length := enough ▸ (List.getElem?_eq_some_iff.mp param).1
  have given : args[i]? = some args[i] := List.getElem?_eq_getElem inside
  rw [enter_param _ verified.params_nodup
    (fun v paramV w paramW ne => params_apart verified paramV paramW ne) store param given]
  exact (enter_param id verified.params_nodup (fun v _ w _ ne => ne) vars param given).symm

variable (func target) in
/-- What the backends rely on in an allocation. -/
structure AllocationSound (result : RegAllocResult) : Prop where
  /-- Intervals with a common position never share a location. -/
  apart : ∀ v w, v ≠ w → (∃ pos, (result.intervals v).Covers pos ∧ (result.intervals w).Covers pos) →
    Apart result v w
  located : ∀ v < func.vregCount, Mentions func v → Located func target result v
  /-- The destination of an instruction is never the register of an operand. -/
  dst_apart : ∀ block ∈ func.blocks, ∀ inst ∈ block.insts, ∀ dst, inst.dst = some dst →
    ∀ operand ∈ irInstUses inst, ∀ reg,
      ¬ (result.locations dst = .reg reg ∧ result.locations operand = .reg reg)
  /-- Every run on vregs is a run on locations, and every read gets the same value. -/
  run : ∀ {Val W : Type} (sem : IrSemantics Val W) (args : List Val) (vars : Vreg → Val)
    (store : Location → Val) (world : W), args.length = func.params.length →
    ∀ last, (func.program sem).Run ⟨(0, 0), func.enter id args vars, world⟩ last →
      ∃ after, ((func.program sem).rename result.locations).Run
          ⟨(0, 0), func.enter result.locations args store, world⟩ ⟨last.point, after, last.world⟩ ∧
        ∀ v ∈ (func.program sem).reads last.point, after (result.locations v) = last.vars v
  /-- There are no other runs on locations. -/
  run_back : ∀ {Val W : Type} (sem : IrSemantics Val W) (args : List Val) (vars : Vreg → Val)
    (store : Location → Val) (world : W), args.length = func.params.length →
    ∀ last, ((func.program sem).rename result.locations).Run
        ⟨(0, 0), func.enter result.locations args store, world⟩ last →
      ∃ after, (func.program sem).Run ⟨(0, 0), func.enter id args vars, world⟩
          ⟨last.point, after, last.world⟩ ∧
        ∀ v ∈ (func.program sem).reads last.point, last.vars (result.locations v) = after v

end Locations

/-- The allocation of a finalized function that the verifier accepts is sound for every target. -/
theorem regalloc_sound (globals : List IrGlobal) (func : IrFunction) (target : TargetDesc)
    (accepted : irVerifyFunction globals (irFunctionFinalize func) = []) :
    AllocationSound (irFunctionFinalize func) target
      (regallocFunction (irFunctionFinalize func) target) := by
  have verified := verified_of_irVerifyFunction accepted
  constructor
  case apart =>
    rintro v w ne ⟨pos, coversV, coversW⟩
    exact apart_of_covers _ ne coversV coversW
  case located =>
    exact fun v bound mentioned => located_of_touch _ bound (touches_of_mentions mentioned)
  case dst_apart =>
    intro block memB inst memI dst defines operand used
    obtain ⟨b, atB⟩ := List.getElem?_of_mem memB
    obtain ⟨i, atI⟩ := List.getElem?_of_mem memI
    have reached := (finalize_reachable verified.placed atB).trans
      (path_within atB (Nat.zero_le i) (List.getElem?_eq_some_iff.mp atI).1.le)
    have ne : dst ≠ operand := by
      rintro rfl
      exact verified.not_use_of_def reached ⟨block, atB, inst, atI, defines⟩
        ⟨block, atB, .inl ⟨inst, atI, used⟩⟩
    exact (apart_of_covers _ ne (covers_of_touch (inst_touches atB atI (.inr defines)))
      (covers_of_touch (inst_touches atB atI (.inl used)))).1
  case run =>
    intro Val W sem args vars store world enough last run
    obtain ⟨after, runs, agrees⟩ := (agrees_enter verified enough vars store).run
      program_follows (separates_regalloc verified sem) run
    exact ⟨after, runs, fun v mem => agrees v (.use (program_follows.use mem))⟩
  case run_back =>
    intro Val W sem args vars store world enough last run
    obtain ⟨after, runs, agrees⟩ := (agrees_enter verified enough vars store).run_back
      program_follows (separates_regalloc verified sem) run
    exact ⟨after, runs, fun v mem => agrees v (.use (program_follows.use mem))⟩

/-- A vreg that is live at a point has a location, which no other live vreg has. -/
theorem regalloc_live (globals : List IrGlobal) (func : IrFunction) (target : TargetDesc)
    (accepted : irVerifyFunction globals (irFunctionFinalize func) = []) {p : Point} {v : Vreg}
    (live : (irFunctionFinalize func).flow.LiveAt v p) :
    Located (irFunctionFinalize func) target (regallocFunction (irFunctionFinalize func) target) v ∧
    ∀ w ≠ v, (irFunctionFinalize func).flow.LiveAt w p →
      Apart (regallocFunction (irFunctionFinalize func) target) w v := by
  have verified := verified_of_irVerifyFunction accepted
  obtain ⟨q, used⟩ := exists_use_of_liveAt live
  refine ⟨located_of_touch _ (verified.lt_of_liveAt live) (touches_of_mentions (.inr ⟨q, .inr used⟩)), ?_⟩
  intro w ne liveW
  apply apart_of_covers target ne
  · exact covers_of_live verified liveW
  · exact covers_of_live verified live

/-- A function of one parameter that doubles it. -/
def doubleFunction : IrFunction where
  returnType := .i64
  vregTypes := [.i64, .i64]
  params := [0]
  blocks := [{
    id := 0
    insts := [{ op := .add, type := .i64, dst := some 1, a := some 0, b := some 0 }]
    term := .ret (some 1) }]

theorem regalloc_sound_doubleFunction : AllocationSound (irFunctionFinalize doubleFunction) x64Target
    (regallocFunction (irFunctionFinalize doubleFunction) x64Target) :=
  regalloc_sound [] doubleFunction x64Target (by decide)

theorem regalloc_live_doubleFunction :
    Located (irFunctionFinalize doubleFunction) x64Target
      (regallocFunction (irFunctionFinalize doubleFunction) x64Target) 0 :=
  (regalloc_live [] doubleFunction x64Target (by decide) (p := (0, 0))
    (.use ⟨_, rfl, .inl ⟨_, rfl, List.mem_cons_self⟩⟩)).1

end Saad
