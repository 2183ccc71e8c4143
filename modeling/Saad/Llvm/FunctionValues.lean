import Saad.Llvm.EmitFunction

/-! # Where the values of a built function are

A vreg has its place: its alloca, or the value that the emitter has for it. What one instruction of the IR does
to the places when its code runs is `llvmEmitInst_places`; results of other instructions are never disturbed.
-/

namespace Saad

open General

variable {func : IrFunction} {b : ℕ}

/-! ## Code -/

section Code

theorem llvmGets_emitter (e : LlvmEmitter) (vregs : List Vreg) :
    (llvmGets func b e vregs).2 =
      { e with code := e.code ++ (vregs.filter (llvmFindHomed func)).map LlvmInst.load } := by
  induction vregs generalizing e with
  | nil => simp [llvmGets]
  | cons vreg rest ih =>
    rw [llvmGets]
    simp only [ih]
    cases homed : llvmFindHomed func vreg <;> simp [llvmGet, llvmBuild, homed]

theorem llvmGets_values (e : LlvmEmitter) (vregs : List Vreg) : (llvmGets func b e vregs).2.values = e.values := by
  rw [llvmGets_emitter]

theorem llvmGets_length (e : LlvmEmitter) (vregs : List Vreg) : (llvmGets func b e vregs).1.length = vregs.length := by
  induction vregs generalizing e with
  | nil => rfl
  | cons vreg rest ih => simp [llvmGets, ih]

theorem llvmMake_values (e : LlvmEmitter) (inst : IrInst) (operands : List LlvmValue) :
    (llvmMake func b e inst operands).2.values = e.values := by
  unfold llvmMake
  split <;> first | rfl | (split <;> rfl)

/-- The values that an instruction leaves: only the one of its destination can be new. -/
theorem llvmEmitInst_values (e : LlvmEmitter) (inst : IrInst) :
    (llvmEmitInst func b e inst).values = e.values ∨ ∃ vreg value, inst.dst = some vreg ∧ llvmSets inst = true ∧
      (llvmEmitInst func b e inst).values = Function.update e.values vreg value := by
  rw [llvmEmitInst]
  split_ifs with nop sets
  · exact .inl rfl
  · cases dst : inst.dst with
    | none => exact .inl (by simp only [llvmSet, llvmMake_values, llvmGets_values])
    | some vreg =>
      refine .inr ⟨vreg, (llvmMake func b (llvmGets func b e (llvmOperands inst)).2 inst
        (llvmGets func b e (llvmOperands inst)).1).1, rfl, sets, ?_⟩
      simp only [llvmSet, llvmMake_values, llvmGets_values]
  · exact .inl (by simp only [llvmMake_values, llvmGets_values])

end Code

/-! ## Runs of code -/

section Exec

variable {Val W : Type} {sem : IrOpSemantics Val W} {args : List Val} {before after first state : LlvmState Val W} {n : ℕ}

theorem llvmExec_append {left right : List LlvmInst} :
    llvmExec sem args b n (left ++ right) before after ↔
      ∃ middle, llvmExec sem args b n left before middle ∧
        llvmExec sem args b (n + left.length) right middle after := by
  induction left generalizing n before with
  | nil => simp [llvmExec]
  | cons inst left ih =>
    rw [List.cons_append, llvmExec]
    simp only [ih, llvmExec, List.length_cons]
    have next : n + (left.length + 1) = n + 1 + left.length := by omega
    rw [next]
    constructor
    · rintro ⟨middle, step, last, run, more⟩
      exact ⟨last, ⟨middle, step, run⟩, more⟩
    · rintro ⟨last, ⟨middle, step, run⟩, more⟩
      exact ⟨middle, step, last, run, more⟩

theorem llvmExec_singleton {inst : LlvmInst} :
    llvmExec sem args b n [inst] before after ↔ inst.Step sem args (b, n) before after := by
  simp [llvmExec]

/-- An instruction leaves the results of the others. -/
theorem LlvmInst.Step.results_of_ne {inst : LlvmInst} {p q : ℕ × ℕ} (step : inst.Step sem args p before after)
    (other : q ≠ p) : after.results q = before.results q := by
  cases inst with
  | load home =>
    rw [show after = _ from step]
    exact Function.update_of_ne other ..
  | store value home => rw [show after = _ from step]
  | op inst operands =>
    obtain ⟨values, value, world', -, -, rfl⟩ := step
    exact Function.update_of_ne other ..
  | call inst type operands =>
    obtain ⟨values, value, world', -, -, rfl⟩ := step
    exact Function.update_of_ne other ..

/-- A value that is made in front of a place of the block. -/
def LlvmValue.Below (b n : ℕ) : LlvmValue → Prop
  | .result block index => block < b ∨ block = b ∧ index < n
  | _ => True

theorem LlvmValue.Below.mono {value : LlvmValue} {m : ℕ} (below : value.Below b n) (le : n ≤ m) : value.Below b m := by
  cases value with
  | result block index => exact below.imp id fun inside => ⟨inside.1, inside.2.trans_le le⟩
  | _ => trivial

/-- Code leaves what is made in front of it. -/
theorem eval_of_llvmExec {code : List LlvmInst} {value : LlvmValue} (below : value.Below b n)
    (exec : llvmExec sem args b n code before after) : value.eval sem args after = value.eval sem args before := by
  induction code generalizing n before with
  | nil => rw [show after = before from exec]
  | cons inst code ih =>
    obtain ⟨middle, step, rest⟩ := exec
    rw [ih (below.mono (Nat.le_succ n)) rest]
    cases value with
    | result block index =>
      refine step.results_of_ne fun same => ?_
      obtain ⟨rfl, rfl⟩ := Prod.mk.inj same
      rcases below with less | ⟨-, less⟩
      · exact absurd less (lt_irrefl _)
      · exact absurd less (lt_irrefl _)
    | _ => rfl

end Exec

/-! ## Places -/

section Places

variable {Val W : Type} {sem : IrOpSemantics Val W} {args : List Val} {before after first state : LlvmState Val W}
variable {e : LlvmEmitter} {inst : IrInst} {operands : List LlvmValue}

/-- What the place of a vreg holds: its alloca, or the value that the emitter has. -/
def llvmPlace (func : IrFunction) (sem : IrOpSemantics Val W) (args : List Val) (e : LlvmEmitter) (state : LlvmState Val W)
    (vreg : Vreg) : Option Val :=
  if llvmFindHomed func vreg then state.homes vreg else (e.values vreg).eval sem args state

/-- The values that the emitter has are made in front of its code. -/
def LlvmEmitter.Below (b : ℕ) (e : LlvmEmitter) : Prop := ∀ vreg, (e.values vreg).Below b e.code.length

/-- What the code gets is what the places hold. -/
theorem llvmGets_eval (below : e.Below b) {vregs : List Vreg}
    (exec : llvmExec sem args b e.code.length ((vregs.filter (llvmFindHomed func)).map LlvmInst.load) before after) :
    after.homes = before.homes ∧ after.world = before.world ∧
      (llvmGets func b e vregs).1.map (LlvmValue.eval sem args after) = vregs.map (llvmPlace func sem args e before) := by
  induction vregs generalizing e before with
  | nil =>
    rw [show after = before from exec]
    exact ⟨rfl, rfl, rfl⟩
  | cons vreg rest ih =>
    cases homed : llvmFindHomed func vreg with
    | true =>
      rw [List.filter_cons_of_pos homed, List.map_cons] at exec
      obtain ⟨middle, loaded, more⟩ := exec
      have load : middle = { before with results := Function.update before.results (b, e.code.length) (before.homes vreg) } :=
        loaded
      have grown : LlvmEmitter.Below b { e with code := e.code ++ [.load vreg] } := fun other =>
        (below other).mono (by simp)
      have length : ({ e with code := e.code ++ [.load vreg] } : LlvmEmitter).code.length = e.code.length + 1 := by simp
      rw [← length] at more
      obtain ⟨homes, world, values⟩ := ih grown more
      have got : llvmGet func b e vreg = (.result b e.code.length, { e with code := e.code ++ [.load vreg] }) := by
        rw [llvmGet, if_pos homed]
        rfl
      refine ⟨homes.trans (by rw [load]), world.trans (by rw [load]), ?_⟩
      rw [llvmGets, got]
      simp only [List.map_cons]
      congr 1
      · -- the load is not disturbed by the ones behind it
        have own : (LlvmValue.result b e.code.length).Below b ({ e with code := e.code ++ [.load vreg] } : LlvmEmitter).code.length :=
          .inr ⟨rfl, by simp⟩
        rw [eval_of_llvmExec own more, llvmPlace, if_pos homed, load]
        exact Function.update_self ..
      · rw [values]
        refine List.map_congr_left fun other _ => ?_
        simp only [llvmPlace]
        split_ifs
        · rw [load]
        · exact eval_of_llvmExec (below other) (llvmExec_singleton.mpr loaded)
    | false =>
      rw [List.filter_cons_of_neg (by rw [homed]; decide)] at exec
      obtain ⟨homes, world, values⟩ := ih below exec
      refine ⟨homes, world, ?_⟩
      have got : llvmGet func b e vreg = (e.values vreg, e) := by
        rw [llvmGet, if_neg (by rw [homed]; decide)]
      rw [llvmGets, got]
      simp only [List.map_cons, values]
      congr 1
      rw [eval_of_llvmExec (below vreg) exec, llvmPlace, if_neg (by rw [homed]; decide)]

/-- What the emission of an instruction needs of the verifier. -/
structure EmitOk (inst : IrInst) : Prop where
  source : inst.op = .copy → inst.a ≠ none
  bytes : inst.op = .memcpy ∨ inst.op = .memset → 0 < inst.imm.toInt
  args : inst.op = .call → ∀ arg ∈ inst.call.args, arg ≠ none
  void : inst.op = .call → inst.call.returnType = .void → inst.dst = none

theorem operands_of_copy (ok : EmitOk inst) (copy : inst.op = .copy) :
    (llvmOperands inst).length = 1 := by
  have source := ok.source copy
  rw [llvmOperands, copy]
  simp only [irOperands, copy]
  cases a : inst.a with
  | none => exact absurd a source
  | some vreg => rfl

/-- The operations that need no instruction. -/
def plainOps : List IrOp := [.nop, .const, .constFloat, .slotAddr, .globalAddr, .copy]

theorem inst_of_not_plain (notPlain : inst.op ∉ plainOps) : sem.inst inst = sem.op inst := by
  unfold IrOpSemantics.inst
  split <;> first | rfl | simp_all [plainOps]

/-- An operation is a constant, the value that it copies, or an instruction that is built with its operands. -/
theorem llvmMake_cases (e : LlvmEmitter) (ok : EmitOk inst) (notNop : inst.op ≠ .nop)
    (operands : List LlvmValue) :
    (inst.op ∈ [IrOp.const, .constFloat, .slotAddr, .globalAddr] ∧ llvmMake func b e inst operands = (.constant inst, e)) ∨
      (inst.op = .copy ∧ llvmMake func b e inst operands = (operands.headD .null, e)) ∨
      (inst.op ∉ plainOps ∧ ∃ built, llvmMake func b e inst operands = llvmBuild b e built ∧
        (inst.op ≠ .call ∧ built = .op inst operands ∨
          inst.op = .call ∧ built = .call inst (llvmCallType func inst.call) operands)) := by
  have constant (op : inst.op ∈ [IrOp.const, .constFloat, .slotAddr, .globalAddr]) :
      llvmMake func b e inst operands = (.constant inst, e) := by
    simp only [List.mem_cons, List.not_mem_nil, or_false] at op
    rcases op with op | op | op | op <;> rw [llvmMake, op]
  have moved (op : inst.op = .memcpy ∨ inst.op = .memset) :
      llvmMake func b e inst operands = llvmBuild b e (.op inst operands) := by
    have bytes := ok.bytes op
    rcases op with op | op <;> rw [llvmMake, op] <;> exact if_pos bytes
  by_cases isConstant : inst.op ∈ [IrOp.const, .constFloat, .slotAddr, .globalAddr]
  · exact .inl ⟨isConstant, constant isConstant⟩
  by_cases isCopy : inst.op = .copy
  · exact .inr (.inl ⟨isCopy, by rw [llvmMake, isCopy]⟩)
  have notPlain : inst.op ∉ plainOps := by
    simp only [plainOps, List.mem_cons, List.not_mem_nil, or_false, not_or] at isConstant ⊢
    exact ⟨notNop, isConstant.1, isConstant.2.1, isConstant.2.2.1, isConstant.2.2.2, isCopy⟩
  refine .inr (.inr ⟨notPlain, ?_⟩)
  by_cases isMove : inst.op = .memcpy ∨ inst.op = .memset
  · exact ⟨_, moved isMove, .inl ⟨by rcases isMove with op | op <;> simp [op], rfl⟩⟩
  by_cases isCall : inst.op = .call
  · exact ⟨.call inst (llvmCallType func inst.call) operands, by rw [llvmMake, isCall], .inr ⟨isCall, rfl⟩⟩
  refine ⟨.op inst operands, ?_, .inl ⟨isCall, rfl⟩⟩
  unfold llvmMake
  split <;> first | rfl | simp_all

/-- The step of an instruction that is built for an operation. -/
theorem built_step {built : LlvmInst} {p : ℕ × ℕ}
    (shape : inst.op ≠ .call ∧ built = .op inst operands ∨
      inst.op = .call ∧ built = .call inst (llvmCallType func inst.call) operands)
    (step : built.Step sem args p before after) :
    ∃ values value, operands.map (LlvmValue.eval sem args before) = values.map some ∧
      sem.op inst values before.world value after.world ∧ after.homes = before.homes ∧
      after.results p = some value := by
  rcases shape with ⟨-, rfl⟩ | ⟨-, rfl⟩
  all_goals
    obtain ⟨values, value, world', known, computes, rfl⟩ := step
    exact ⟨values, value, known, computes, rfl, Function.update_self ..⟩

/-- The code of an operation computes its value from its operands. -/
theorem llvmMake_exec (ok : EmitOk inst) (notNop : inst.op ≠ .nop)
    (exec : llvmExec sem args b 0 (llvmMake func b e inst operands).2.code first after) :
    ∃ before, llvmExec sem args b 0 e.code first before ∧ after.homes = before.homes ∧
      (∀ value : LlvmValue, value.Below b e.code.length → value.eval sem args after = value.eval sem args before) ∧
      ∀ values : List Val, operands.map (LlvmValue.eval sem args before) = values.map some →
        (inst.op = .copy → values.length = 1) →
        ∃ value, sem.inst inst values before.world value after.world ∧
          (llvmMake func b e inst operands).1.eval sem args after = some value := by
  rcases llvmMake_cases e ok notNop operands with ⟨op, made⟩ | ⟨op, made⟩ | ⟨op, built, made, shape⟩
  · rw [made] at exec ⊢
    refine ⟨after, exec, rfl, fun _ _ => rfl, fun values _ _ => ⟨sem.constant inst, ?_, rfl⟩⟩
    simp only [List.mem_cons, List.not_mem_nil, or_false] at op
    rcases op with op | op | op | op <;> rw [IrOpSemantics.inst, op] <;> exact ⟨rfl, rfl⟩
  · rw [made] at exec ⊢
    refine ⟨after, exec, rfl, fun _ _ => rfl, fun values known single => ?_⟩
    obtain ⟨value, rfl⟩ := List.length_eq_one_iff.mp (single op)
    obtain ⟨operand, rfl⟩ := List.length_eq_one_iff.mp ((List.length_map ..).symm.trans (congrArg List.length known))
    refine ⟨value, ?_, (List.cons.inj known).1⟩
    rw [IrOpSemantics.inst, op]
    exact ⟨rfl, rfl⟩
  · rw [made] at exec ⊢
    obtain ⟨before, run, step⟩ := llvmExec_append.mp exec
    rw [Nat.zero_add] at step
    obtain ⟨others, value, evals, computes, homes, result⟩ := built_step shape (llvmExec_singleton.mp step)
    refine ⟨before, run, homes, fun value below => eval_of_llvmExec below step, fun values known _ => ⟨value, ?_, result⟩⟩
    have same : others = values := List.map_injective_iff.mpr (Option.some_injective Val) (evals.symm.trans known)
    rw [inst_of_not_plain op, ← same]
    exact computes

/-- A value that is set is in the place of its vreg, and the other places are left. -/
theorem llvmSet_exec {dst : Option Vreg} {value : LlvmValue}
    (exec : llvmExec sem args b 0 (llvmSet func e dst value).code first after) :
    ∃ before, llvmExec sem args b 0 e.code first before ∧ after.world = before.world ∧
      ∀ result, value.eval sem args before = some result →
        ∀ vreg, llvmPlace func sem args (llvmSet func e dst value) after vreg =
          if dst = some vreg then some result else llvmPlace func sem args e before vreg := by
  cases dst with
  | none => exact ⟨after, exec, rfl, fun _ _ vreg => rfl⟩
  | some d =>
    rw [llvmSet] at exec
    obtain ⟨before, run, stored⟩ := llvmExec_append.mp exec
    have kept : after.results = before.results ∧ after.world = before.world ∧
        after.homes = if llvmFindHomed func d then Function.update before.homes d (value.eval sem args before)
          else before.homes := by
      split_ifs at stored ⊢
      · have step : after = _ := llvmExec_singleton.mp stored
        rw [step]
        exact ⟨rfl, rfl, rfl⟩
      · rw [show after = before from stored]
        exact ⟨rfl, rfl, rfl⟩
    obtain ⟨results, world, homes⟩ := kept
    have evals (other : LlvmValue) : other.eval sem args after = other.eval sem args before := by
      cases other with
      | result block index => exact congrFun results _
      | _ => rfl
    refine ⟨before, run, world, fun result isResult vreg => ?_⟩
    simp only [llvmPlace, llvmSet, evals, homes, Option.some.injEq]
    by_cases same : d = vreg
    · subst same
      rw [if_pos rfl, Function.update_self, isResult]
      split_ifs
      · exact Function.update_self ..
      · rfl
    · rw [if_neg same, Function.update_of_ne (Ne.symm same)]
      congr 1
      split_ifs
      · exact Function.update_of_ne (Ne.symm same) ..
      · rfl

theorem llvmPlace_of_below {later : LlvmEmitter} (below : e.Below b)
    (values : later.values = e.values) (homes : after.homes = before.homes)
    (evals : ∀ value : LlvmValue, value.Below b e.code.length → value.eval sem args after = value.eval sem args before)
    (vreg : Vreg) :
    llvmPlace func sem args later after vreg = llvmPlace func sem args e before vreg := by
  simp only [llvmPlace, values, homes, evals _ (below vreg)]

/-- The code of an instruction computes its value from the places of its operands, puts it in the place of its
destination and leaves the other places. -/
theorem llvmEmitInst_places (below : e.Below b) (ok : EmitOk inst)
    (exec : llvmExec sem args b 0 (llvmEmitInst func b e inst).code first after) :
    ∃ before, llvmExec sem args b 0 e.code first before ∧ ∀ vars : Vreg → Val,
      (∀ vreg ∈ llvmOperands inst, llvmPlace func sem args e before vreg = some (vars vreg)) →
      ∃ value, sem.inst inst ((llvmOperands inst).map vars) before.world value after.world ∧
        ∀ vreg, llvmPlace func sem args (llvmEmitInst func b e inst) after vreg =
          if llvmSets inst = true ∧ inst.dst = some vreg then some value else llvmPlace func sem args e before vreg := by
  by_cases nop : inst.op = .nop
  · have emitted : llvmEmitInst func b e inst = e := by rw [llvmEmitInst, if_pos nop]
    have notSets : llvmSets inst = false := by rw [llvmSets, nop]
    rw [emitted] at exec ⊢
    refine ⟨after, exec, fun vars held => ⟨vars 0, ?_, fun vreg => ?_⟩⟩
    · rw [IrOpSemantics.inst, nop]
    · rw [notSets, if_neg (by simp)]
  · -- the operands, the operation, and its value to its place
    let got := llvmGets func b e (llvmOperands inst)
    let made := llvmMake func b got.2 inst got.1
    have setting : ∃ middle, llvmExec sem args b 0 made.2.code first middle ∧ after.world = middle.world ∧
        ∀ result, made.1.eval sem args middle = some result →
          ∀ vreg, llvmPlace func sem args (llvmEmitInst func b e inst) after vreg =
            if llvmSets inst = true ∧ inst.dst = some vreg then some result
            else llvmPlace func sem args made.2 middle vreg := by
      cases sets : llvmSets inst with
      | true =>
        have emitted : llvmEmitInst func b e inst = llvmSet func made.2 inst.dst made.1 := by
          rw [llvmEmitInst, if_neg nop]
          exact if_pos sets
        rw [emitted] at exec ⊢
        simpa only [true_and] using llvmSet_exec exec
      | false =>
        have emitted : llvmEmitInst func b e inst = made.2 := by
          rw [llvmEmitInst, if_neg nop]
          exact if_neg (by rw [sets]; decide)
        rw [emitted] at exec ⊢
        refine ⟨after, exec, rfl, fun result _ vreg => ?_⟩
        rw [if_neg fun both => absurd both.1 (by decide)]
    obtain ⟨middle, runMade, world, places⟩ := setting
    obtain ⟨loaded, runGot, homes, evals, computes⟩ := llvmMake_exec ok nop runMade
    have code : got.2.code = e.code ++ ((llvmOperands inst).filter (llvmFindHomed func)).map LlvmInst.load := by
      show (llvmGets func b e (llvmOperands inst)).2.code = _
      rw [llvmGets_emitter]
    rw [code] at runGot evals
    obtain ⟨before, run, loads⟩ := llvmExec_append.mp runGot
    rw [Nat.zero_add] at loads
    obtain ⟨homesBefore, worldBefore, values⟩ := llvmGets_eval below loads
    refine ⟨before, run, fun vars held => ?_⟩
    have known : got.1.map (LlvmValue.eval sem args loaded) = ((llvmOperands inst).map vars).map some := by
      rw [List.map_map]
      exact values.trans (List.map_congr_left held)
    have single : inst.op = .copy → ((llvmOperands inst).map vars).length = 1 := by
      intro copy
      rw [List.length_map, operands_of_copy ok copy]
    obtain ⟨value, computed, result⟩ := computes _ known single
    rw [worldBefore] at computed
    rw [← world] at computed
    refine ⟨value, computed, fun vreg => ?_⟩
    rw [places value result vreg]
    congr 1
    refine llvmPlace_of_below below ?_ (homes.trans homesBefore) (fun other inFront => ?_) vreg
    · exact (llvmMake_values ..).trans (llvmGets_values ..)
    · exact (evals other (inFront.mono (by simp))).trans (eval_of_llvmExec inFront loads)

end Places

/-! ## What holds of every value -/

section Good

/-- A property of values at a place of the block that constants have and that results have behind their
instruction. -/
structure GoodValue (b : ℕ) (good : ℕ → LlvmValue → Prop) : Prop where
  mono : ∀ {m n value}, m ≤ n → good m value → good n value
  constant : ∀ n inst, good n (.constant inst)
  result : ∀ {m n}, m < n → good n (.result b m)

/-- Every use in the code has the property. -/
def UsesGood (good : ℕ → LlvmValue → Prop) (code : List LlvmInst) : Prop :=
  ∀ (n : ℕ) (inst : LlvmInst), code[n]? = some inst → ∀ value ∈ inst.operands, good n value

variable {good : ℕ → LlvmValue → Prop} (goodValue : GoodValue b good)

theorem UsesGood.append {code : List LlvmInst} (uses : UsesGood good code) {inst : LlvmInst}
    (operands : ∀ value ∈ inst.operands, good code.length value) : UsesGood good (code ++ [inst]) := by
  intro n other atN value member
  rcases Nat.lt_trichotomy n code.length with inside | rfl | outside
  · rw [List.getElem?_append_left inside] at atN
    exact uses n other atN value member
  · rw [List.getElem?_append_right le_rfl, Nat.sub_self] at atN
    rw [← Option.some.inj atN] at member
    exact operands value member
  · rw [List.getElem?_eq_none (by simp; omega)] at atN
    cases atN

theorem llvmGets_code_le (e : LlvmEmitter) (vregs : List Vreg) :
    e.code.length ≤ (llvmGets func b e vregs).2.code.length := by
  rw [llvmGets_emitter]
  simp

theorem llvmMake_code_le (e : LlvmEmitter) (inst : IrInst) (operands : List LlvmValue) :
    e.code.length ≤ (llvmMake func b e inst operands).2.code.length := by
  unfold llvmMake
  split <;> first | exact le_rfl | (split_ifs <;> simp [llvmBuild]) | simp [llvmBuild]

theorem llvmSet_code_le (e : LlvmEmitter) (dst : Option Vreg) (value : LlvmValue) :
    e.code.length ≤ (llvmSet func e dst value).code.length := by
  cases dst with
  | none => exact le_rfl
  | some vreg => simp [llvmSet]

theorem llvmEmitInst_code_le (e : LlvmEmitter) (inst : IrInst) :
    e.code.length ≤ (llvmEmitInst func b e inst).code.length := by
  rw [llvmEmitInst]
  split_ifs
  · exact le_rfl
  · exact ((llvmGets_code_le e _).trans (llvmMake_code_le ..)).trans (llvmSet_code_le ..)
  · exact (llvmGets_code_le e _).trans (llvmMake_code_le ..)

include goodValue

theorem llvmGets_good {e : LlvmEmitter} {vregs : List Vreg}
    (values : ∀ vreg ∈ vregs, llvmFindHomed func vreg = false → good e.code.length (e.values vreg)) :
    ∀ value ∈ (llvmGets func b e vregs).1, good (llvmGets func b e vregs).2.code.length value := by
  induction vregs generalizing e with
  | nil => exact fun value member => absurd member List.not_mem_nil
  | cons vreg rest ih =>
    rw [llvmGets]
    cases homed : llvmFindHomed func vreg with
    | true =>
      have got : llvmGet func b e vreg = (.result b e.code.length, { e with code := e.code ++ [.load vreg] }) := by
        rw [llvmGet, if_pos homed]
        rfl
      have grown : ({ e with code := e.code ++ [.load vreg] } : LlvmEmitter).code.length = e.code.length + 1 := by simp
      rw [got]
      intro value member
      rcases List.mem_cons.mp member with rfl | member
      · exact goodValue.result ((grown ▸ Nat.lt_succ_self _ : e.code.length < _).trans_le (llvmGets_code_le ..))
      · refine ih (fun other inRest notHomed => ?_) value member
        exact goodValue.mono (by simp) (values other (List.mem_cons_of_mem _ inRest) notHomed)
    | false =>
      have got : llvmGet func b e vreg = (e.values vreg, e) := by rw [llvmGet, if_neg (by rw [homed]; decide)]
      rw [got]
      intro value member
      rcases List.mem_cons.mp member with rfl | member
      · exact goodValue.mono (llvmGets_code_le ..) (values vreg (List.mem_cons_self ..) homed)
      · exact ih (fun other inRest => values other (List.mem_cons_of_mem _ inRest)) value member

theorem llvmMake_good {e : LlvmEmitter} {inst : IrInst} (ok : EmitOk inst) (notNop : inst.op ≠ .nop)
    {operands : List LlvmValue} (some_ : inst.op = .copy → operands ≠ [])
    (values : ∀ value ∈ operands, good e.code.length value) :
    good (llvmMake func b e inst operands).2.code.length (llvmMake func b e inst operands).1 := by
  rcases llvmMake_cases e ok notNop operands with ⟨-, made⟩ | ⟨op, made⟩ | ⟨-, built, made, -⟩ <;> rw [made]
  · exact goodValue.constant ..
  · cases operands with
    | nil => exact absurd rfl (some_ op)
    | cons operand rest => exact values operand (List.mem_cons_self ..)
  · exact goodValue.result (by simp [llvmBuild])

variable {e : LlvmEmitter} {inst : IrInst}

omit goodValue in
theorem gets_of_copy (ok : EmitOk inst) (e : LlvmEmitter) (copy : inst.op = .copy) :
    (llvmGets func b e (llvmOperands inst)).1 ≠ [] := by
  refine List.ne_nil_of_length_pos ?_
  rw [llvmGets_length, operands_of_copy ok copy]
  exact Nat.one_pos

/-- The value that an instruction sets has the property when those of its operands have it. -/
theorem llvmEmitInst_good (ok : EmitOk inst)
    (operands : ∀ vreg ∈ llvmOperands inst, llvmFindHomed func vreg = false → good e.code.length (e.values vreg))
    {vreg : Vreg} (sets : llvmSets inst = true) (dst : inst.dst = some vreg) :
    good (llvmEmitInst func b e inst).code.length ((llvmEmitInst func b e inst).values vreg) := by
  have notNop : inst.op ≠ .nop := by
    intro nop
    rw [llvmSets, nop] at sets
    cases sets
  have got := llvmGets_good goodValue operands
  have made : good (llvmMake func b (llvmGets func b e (llvmOperands inst)).2 inst
      (llvmGets func b e (llvmOperands inst)).1).2.code.length _ := llvmMake_good goodValue ok notNop (gets_of_copy ok e) got
  rw [llvmEmitInst, if_neg notNop]
  simp only [sets, if_true, dst]
  rw [show (llvmSet func _ (some vreg) _).values vreg = _ from Function.update_self ..]
  exact goodValue.mono (llvmSet_code_le ..) made

omit goodValue in
theorem llvmGets_uses (uses : UsesGood good e.code) (vregs : List Vreg) : UsesGood good (llvmGets func b e vregs).2.code := by
  induction vregs generalizing e with
  | nil => exact uses
  | cons vreg rest ih =>
    rw [llvmGets]
    refine ih ?_
    rw [llvmGet]
    split_ifs
    · exact uses.append fun value member => absurd member List.not_mem_nil
    · exact uses

omit goodValue in
theorem llvmMake_uses (ok : EmitOk inst) (notNop : inst.op ≠ .nop) (uses : UsesGood good e.code)
    {operands : List LlvmValue} (values : ∀ value ∈ operands, good e.code.length value) :
    UsesGood good (llvmMake func b e inst operands).2.code := by
  rcases llvmMake_cases e ok notNop operands with ⟨-, made⟩ | ⟨-, made⟩ | ⟨-, built, made, shape⟩ <;> rw [made]
  · exact uses
  · exact uses
  · refine uses.append ?_
    rcases shape with ⟨-, rfl⟩ | ⟨-, rfl⟩
    · exact values
    · exact values

omit goodValue in
theorem llvmSet_uses (uses : UsesGood good e.code) {dst : Option Vreg} {value : LlvmValue}
    (made : good e.code.length value) : UsesGood good (llvmSet func e dst value).code := by
  cases dst with
  | none => exact uses
  | some vreg =>
    rw [llvmSet]
    split_ifs
    · refine uses.append fun other member => ?_
      rw [List.mem_singleton.mp member]
      exact made
    · rw [List.append_nil]
      exact uses

/-- The code of an instruction uses only values that have the property. -/
theorem llvmEmitInst_uses (ok : EmitOk inst) (uses : UsesGood good e.code)
    (operands : ∀ vreg ∈ llvmOperands inst, llvmFindHomed func vreg = false → good e.code.length (e.values vreg)) :
    UsesGood good (llvmEmitInst func b e inst).code := by
  have got := llvmGets_good goodValue operands
  have before : UsesGood good (llvmGets func b e (llvmOperands inst)).2.code := llvmGets_uses uses _
  rw [llvmEmitInst]
  split_ifs with nop sets
  · exact uses
  · exact llvmSet_uses (llvmMake_uses ok nop before got) (llvmMake_good goodValue ok nop (gets_of_copy ok e) got)
  · exact llvmMake_uses ok nop before got

end Good

/-! ## The code of one instruction -/

section Chunk

variable (func b)

/-- What an instruction adds to the code. -/
def llvmChunk (e : LlvmEmitter) (inst : IrInst) : List LlvmInst :=
  (llvmEmitInst func b e inst).code.drop e.code.length

variable {func b} {e : LlvmEmitter} {inst : IrInst}

/-- The chunk is made of the loads of the operands, the operation and the store of the value. -/
theorem llvmEmitInst_split (func : IrFunction) (b : ℕ) (e : LlvmEmitter) (ok : EmitOk inst) (notNop : inst.op ≠ .nop) :
    ∃ built value, (llvmEmitInst func b e inst).code = e.code ++
        (((llvmOperands inst).filter (llvmFindHomed func)).map LlvmInst.load ++ (built ++
          ((inst.dst.filter fun vreg => llvmSets inst && llvmFindHomed func vreg).map (LlvmInst.store value)).toList)) ∧
      (built = [] ∧ inst.op ≠ .call ∨ built = [.op inst (llvmGets func b e (llvmOperands inst)).1] ∧ inst.op ≠ .call ∨
        built = [.call inst (llvmCallType func inst.call) (llvmGets func b e (llvmOperands inst)).1] ∧ inst.op = .call) := by
  have got : (llvmGets func b e (llvmOperands inst)).2.code =
      e.code ++ ((llvmOperands inst).filter (llvmFindHomed func)).map LlvmInst.load := by rw [llvmGets_emitter]
  -- the store behind the operation
  have set_ (made : LlvmValue × LlvmEmitter) : (if llvmSets inst then llvmSet func made.2 inst.dst made.1 else made.2).code =
      made.2.code ++ ((inst.dst.filter fun vreg => llvmSets inst && llvmFindHomed func vreg).map (LlvmInst.store made.1)).toList := by
    cases sets : llvmSets inst with
    | false => cases inst.dst <;> simp
    | true =>
      cases inst.dst with
      | none => simp [llvmSet]
      | some vreg => cases homed : llvmFindHomed func vreg <;> simp [llvmSet, homed, Option.filter]
  rw [llvmEmitInst, if_neg notNop]
  simp only [set_]
  rcases llvmMake_cases (llvmGets func b e (llvmOperands inst)).2 ok notNop (llvmGets func b e (llvmOperands inst)).1 with
    ⟨op, made⟩ | ⟨op, made⟩ | ⟨op, built, made, shape⟩ <;> rw [made]
  · refine ⟨[], .constant inst, by rw [got, List.append_assoc]; rfl, .inl ⟨rfl, fun call => ?_⟩⟩
    rw [call] at op
    exact absurd op (by decide)
  · refine ⟨[], _, by rw [got, List.append_assoc]; rfl, .inl ⟨rfl, fun call => ?_⟩⟩
    rw [call] at op
    cases op
  · refine ⟨[built], .result b (llvmGets func b e (llvmOperands inst)).2.code.length, ?_, ?_⟩
    · simp only [llvmBuild]
      rw [got]
      simp only [List.append_assoc]
    · rcases shape with ⟨notCall, rfl⟩ | ⟨call, rfl⟩
      · exact .inr (.inl ⟨rfl, notCall⟩)
      · exact .inr (.inr ⟨rfl, call⟩)

theorem llvmEmitInst_code (e : LlvmEmitter) (ok : EmitOk inst) :
    (llvmEmitInst func b e inst).code = e.code ++ llvmChunk func b e inst := by
  by_cases notNop : inst.op = .nop
  · rw [llvmChunk, llvmEmitInst, if_pos notNop, List.drop_length, List.append_nil]
  · obtain ⟨built, value, code, -⟩ := llvmEmitInst_split func b e ok notNop
    rw [llvmChunk, code, List.drop_left]

/-- What is in a chunk: loads of operands with an alloca, the store of a value that is set, and the call. -/
theorem mem_llvmChunk (e : LlvmEmitter) (ok : EmitOk inst) :
    (∀ home, .load home ∈ llvmChunk func b e inst ↔ home ∈ llvmOperands inst ∧ llvmFindHomed func home = true) ∧
      (∀ home, (∃ value, .store value home ∈ llvmChunk func b e inst) ↔
        inst.dst = some home ∧ llvmSets inst = true ∧ llvmFindHomed func home = true) ∧
      ∀ other type operands, .call other type operands ∈ llvmChunk func b e inst ↔ inst.op = .call ∧ other = inst ∧
        type = llvmCallType func inst.call ∧ operands = (llvmGets func b e (llvmOperands inst)).1 := by
  by_cases nop : inst.op = .nop
  · have none : llvmChunk func b e inst = [] := by rw [llvmChunk, llvmEmitInst, if_pos nop, List.drop_length]
    have noOperands : llvmOperands inst = [] := by
      rw [llvmOperands, nop]
      simp only [irOperands, nop]
    have notSets : llvmSets inst = false := by rw [llvmSets, nop]
    simp [none, noOperands, notSets, nop]
  · obtain ⟨built, value, code, shape⟩ := llvmEmitInst_split func b e ok nop
    have chunk := congrArg (List.drop e.code.length) code
    rw [List.drop_left] at chunk
    rw [llvmChunk, chunk]
    refine ⟨fun home => ?_, fun home => ?_, fun other type operands => ?_⟩
    · rcases shape with ⟨rfl, -⟩ | ⟨rfl, -⟩ | ⟨rfl, -⟩ <;> simp
    · rcases shape with ⟨rfl, -⟩ | ⟨rfl, -⟩ | ⟨rfl, -⟩ <;> simp
    · rcases shape with ⟨rfl, notCall⟩ | ⟨rfl, notCall⟩ | ⟨rfl, call⟩
      · simp [notCall]
      · simp [notCall]
      · simp [call]

end Chunk

end Saad
