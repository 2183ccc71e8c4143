import Saad.Ir.Execution

/-! # An accepted function reads only what is defined

On every path from the entry, a vreg that is read is a parameter or was defined on the path before. An
interpreter that keeps track of which vregs have a value so finds one wherever it reads, and goes on to
placed blocks with a terminator.
-/

namespace Saad

open General Relation

/-- The meaning of the instructions for an interpreter that does not know the value of every vreg. It runs
an instruction only when it knows all values that the instruction reads. -/
def IrSemantics.checked {Val W : Type} (sem : IrSemantics Val W) : IrSemantics (Option Val) W where
  inst inst values world value world' := ∃ (known : List Val) (result : Val),
    values = known.map some ∧ value = some result ∧ sem.inst inst known world result world'
  truth value := value.any sem.truth

namespace IrFunction

variable {globals : List IrGlobal} {func : IrFunction} {vreg : Vreg}

section Paths

/-- A path to a read of the vreg, with no definition of it before: the vreg is live where the path starts. -/
theorem liveAt_of_path {path : List Point} {start : Point} (chain : (start :: path).IsChain func.flow.Next)
    {k : ℕ} {p : Point} (atK : (start :: path)[k]? = some p) (used : func.flow.Use p vreg)
    (undefined : ∀ i < k, ∀ d, (start :: path)[i]? = some d → ¬ func.flow.Def d vreg) :
    func.flow.LiveAt vreg start := by
  induction path generalizing start k with
  | nil =>
    cases k with
    | zero =>
      cases atK
      exact .use used
    | succ k => simp at atK
  | cons next rest ih =>
    cases k with
    | zero =>
      cases atK
      exact .use used
    | succ k =>
      obtain ⟨edge, chain⟩ := List.isChain_cons_cons.mp chain
      refine .step (undefined 0 (Nat.succ_pos k) start rfl) edge ?_
      refine ih chain (by simpa using atK) fun i lt d atI => ?_
      exact undefined (i + 1) (by omega) d (by simpa using atI)

theorem Verified.defined_before (verified : Verified func) {path : List Point}
    (first : path.head? = some (0, 0)) (chain : path.IsChain func.flow.Next) {k : ℕ} {p : Point}
    (atK : path[k]? = some p) (used : func.flow.Use p vreg) :
    vreg ∈ func.params ∨ ∃ i < k, ∃ d, path[i]? = some d ∧ func.flow.Def d vreg := by
  obtain ⟨rest, rfl⟩ := List.head?_eq_some_iff.mp first
  by_contra neither
  rw [not_or] at neither
  refine neither.1 (verified.live_entry vreg (liveAt_of_path chain atK used fun i lt d atI defines => ?_))
  exact neither.2 ⟨i, lt, d, atI, defines⟩

/-- A target that a run gets to is a placed block with a terminator. -/
theorem Verified.target_placed (verified : Verified func) {p : Point} {block : IrBlock}
    (atP : func.blocks[p.1]? = some block) {target : Option ℕ} (leads : target ∈ irBlockSuccessors block) :
    ∃ (next : ℕ) (succ : IrBlock), func.blocks[next]? = some succ ∧ target = some succ.id ∧ succ.term ≠ .none := by
  have placed := verified.placed block (List.mem_of_getElem? atP) target leads
  obtain ⟨id, rfl⟩ : ∃ id, target = some id := by
    cases target with
    | none => cases placed
    | some id => exact ⟨id, rfl⟩
  obtain ⟨next, succ, atNext, rfl⟩ := isPlaced_iff.mp placed
  exact ⟨next, succ, atNext, rfl, verified.terminated succ (List.mem_of_getElem? atNext)⟩

end Paths

section Interpreter

variable {Val W : Type} {sem : IrSemantics Val W}

/-- What is live has a value. -/
def Known (func : IrFunction) (state : Program.State Point Vreg (Option Val) W) : Prop :=
  ∀ v, func.flow.LiveAt v state.point → (state.vars v).isSome = true

theorem Verified.known_enter (verified : Verified func) {args : List Val}
    (length : args.length = func.params.length) (world : W) :
    func.Known ⟨(0, 0), func.enter id (args.map some) fun _ => none, world⟩ := by
  intro v live
  obtain ⟨i, atI⟩ := List.getElem?_of_mem (verified.live_entry v live)
  have bound := (List.getElem?_eq_some_iff.mp atI).1
  have given : (args.map some)[i]? = some (some args[i]) := by
    rw [List.getElem?_map, List.getElem?_eq_getElem (by omega), Option.map_some]
  have stored := enter_param id verified.params_nodup (fun v _ w _ ne => ne) (fun _ => none) atI given
  change (func.enter id (args.map some) (fun _ => none) (id v)).isSome = true
  rw [stored]
  rfl

/-- A step defines what it writes, and what is live next was live before otherwise. -/
theorem Known.step {before after : Program.State Point Vreg (Option Val) W} (known : func.Known before)
    (step : (func.program sem.checked).Step before after) : func.Known after := by
  obtain ⟨value, acts, written⟩ := step
  have follows : (func.program sem.checked).Follows func.flow := program_follows
  intro v live
  have edge := follows.next acts
  rw [written]
  cases writes : (func.program sem.checked).writes before.point with
  | none =>
    refine known v (.step (fun defines => ?_) edge live)
    have := follows.defines.mp defines
    rw [writes] at this
    cases this
  | some d =>
    by_cases same : v = d
    · subst same
      have written : (Program.write before.vars (some v) value) v = value := Function.update_self ..
      rw [written]
      obtain ⟨block, atB, ⟨inst, atI, ⟨_, result, _, rfl, _⟩, _⟩ | ⟨last, _⟩⟩ := acts
      · rfl
      · obtain ⟨other, found, inst, atI, _⟩ := follows.defines.mpr writes
        cases found.symm.trans atB
        rw [last] at atI
        simp at atI
    · have unchanged : (Program.write before.vars (some d) value) v = before.vars v :=
        Function.update_of_ne same ..
      rw [unchanged]
      refine known v (.step (fun defines => same ?_) edge live)
      have := follows.defines.mp defines
      exact Option.some.inj (this.symm.trans writes)

theorem Known.run {before after : Program.State Point Vreg (Option Val) W} (known : func.Known before)
    (run : (func.program sem.checked).Run before after) : func.Known after := by
  induction run with
  | refl => exact known
  | tail _ step ih => exact ih.step step

end Interpreter

/-- Every vreg has at most one definition, every read comes behind it, an interpreter has a value for what it
reads, and control goes to placed blocks with a terminator. -/
structure ReadsDefined (func : IrFunction) : Prop where
  defined_once : ∀ vreg < func.vregCount,
    (func.params ++ func.blocks.flatMap fun block => block.insts.filterMap IrInst.dst).count vreg ≤ 1
  defined_before : ∀ path : List Point, path.head? = some (0, 0) → path.IsChain func.flow.Next →
    ∀ (k : ℕ) (p : Point) (vreg : Vreg), path[k]? = some p → func.flow.Use p vreg →
      vreg ∈ func.params ∨ ∃ i < k, ∃ d, path[i]? = some d ∧ func.flow.Def d vreg
  known : ∀ (Val W : Type) (sem : IrSemantics Val W) (args : List Val) (world : W)
    (state : Program.State Point Vreg (Option Val) W), args.length = func.params.length →
    (func.program sem.checked).Run ⟨(0, 0), func.enter id (args.map some) fun _ => none, world⟩ state →
      ∀ vreg ∈ func.readsAt state.point, (state.vars vreg).isSome = true
  target_placed : ∀ p, func.Reachable p → ∀ block, func.blocks[p.1]? = some block →
    ∀ target ∈ irBlockSuccessors block, ∃ (next : ℕ) (succ : IrBlock),
      func.blocks[next]? = some succ ∧ target = some succ.id ∧ succ.term ≠ .none

theorem irVerifyFunction_readsDefined (accepted : irVerifyFunction globals func = []) : ReadsDefined func where
  defined_once vreg bound := by
    have once := (verified_of_irVerifyFunction accepted).defined_once vreg
    rwa [irDefCount, if_pos bound] at once
  defined_before _ first chain _ _ _ :=
    (verified_of_irVerifyFunction accepted).defined_before first chain
  known Val W sem args world state length run vreg reads := by
    have known := ((verified_of_irVerifyFunction accepted).known_enter length world).run run
    have follows : (func.program sem.checked).Follows func.flow := program_follows
    exact known vreg (.use (follows.use reads))
  target_placed _ _ _ atP _ := (verified_of_irVerifyFunction accepted).target_placed atP

theorem readsDefined_waitFunction : ReadsDefined waitFunction :=
  irVerifyFunction_readsDefined (show irVerifyFunction [] waitFunction = [] by decide)

end IrFunction

end Saad
