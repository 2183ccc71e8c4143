import Mathlib.Data.List.ReduceOption
import Saad.Llvm.FunctionRight

/-! # The refinement holds exactly when the function fits

Every run of the built function is a run of the function, with the values of the live vregs in their places.
-/

namespace Saad

open General Relation

namespace IrFunction

variable {globals : List IrGlobal} {func : IrFunction} {vreg : Vreg} {b i : ℕ} {block : IrBlock} {inst : IrInst}

/-! ## The code of a block -/

section BlockCode

theorem llvmBlock_iff {built : LlvmBlock} : (llvmEmitFunction func).blocks[b]? = some built ↔
    ∃ block, func.blocks[b]? = some block ∧ (llvmEmitBlock func b (llvmValuesBefore func b) block).1 = built := by
  simp [llvmEmitFunction, List.getElem?_mapIdx]

theorem llvmEmitBlock_code (atB : func.blocks[b]? = some block) :
    (llvmEmitBlock func b (llvmValuesBefore func b) block).1.code =
      (llvmGets func b (llvmEmitterAt func (b, block.insts.length)) (termOperands func block.term)).2.code := by
  rw [llvmEmitBlock, llvmEmitTerm_emitter, llvmEmitterAt_length atB]

theorem llvmEmitBlock_term (atB : func.blocks[b]? = some block) :
    (llvmEmitBlock func b (llvmValuesBefore func b) block).1.term =
      (llvmEmitTerm func b (llvmEmitterAt func (b, block.insts.length)) block.term).1 := by
  rw [llvmEmitBlock, llvmEmitterAt_length atB]

variable (accepted : irVerifyFunction globals func = [])

include accepted

theorem mem_emitter_code (atB : func.blocks[b]? = some block) (bound : i ≤ block.insts.length) {built : LlvmInst} :
    built ∈ (llvmEmitterAt func (b, i)).code ↔ ∃ j < i, ∃ inst, block.insts[j]? = some inst ∧
      built ∈ llvmChunk func b (llvmEmitterAt func (b, j)) inst := by
  induction i with
  | zero =>
    rw [llvmEmitterAt_zero]
    simp
  | succ i ih =>
    have atI : block.insts[i]? = some block.insts[i] := List.getElem?_eq_getElem (by omega)
    have ok := emitOk_of_accepted accepted atB (List.mem_of_getElem? atI)
    rw [llvmEmitterAt_succ atB atI, llvmEmitInst_code _ ok, List.mem_append, ih (by omega)]
    constructor
    · rintro (⟨j, less, inst, atJ, member⟩ | member)
      · exact ⟨j, by omega, inst, atJ, member⟩
      · exact ⟨i, Nat.lt_succ_self i, _, atI, member⟩
    · rintro ⟨j, less, inst, atJ, member⟩
      rcases Nat.lt_succ_iff_lt_or_eq.mp less with less | rfl
      · exact .inl ⟨j, less, inst, atJ, member⟩
      · cases atI.symm.trans atJ
        exact .inr member

/-- What is in the code of a block: the chunks of its instructions, and the loads of its terminator. -/
theorem mem_block_code (atB : func.blocks[b]? = some block) {built : LlvmInst} :
    built ∈ (llvmEmitBlock func b (llvmValuesBefore func b) block).1.code ↔
      (∃ j inst, block.insts[j]? = some inst ∧ built ∈ llvmChunk func b (llvmEmitterAt func (b, j)) inst) ∨
        ∃ home ∈ termOperands func block.term, llvmFindHomed func home = true ∧ built = .load home := by
  rw [llvmEmitBlock_code atB, llvmGets_emitter]
  simp only [List.mem_append, mem_emitter_code accepted atB le_rfl, List.mem_map, List.mem_filter]
  constructor
  · rintro (⟨j, -, inst, atJ, member⟩ | ⟨home, ⟨read, homed⟩, rfl⟩)
    · exact .inl ⟨j, inst, atJ, member⟩
    · exact .inr ⟨home, read, homed, rfl⟩
  · rintro (⟨j, inst, atJ, member⟩ | ⟨home, read, homed, rfl⟩)
    · exact .inl ⟨j, (List.getElem?_eq_some_iff.mp atJ).1, inst, atJ, member⟩
    · exact .inr ⟨home, ⟨read, homed⟩, rfl⟩

/-- The loads of a block are of operands. -/
theorem load_mem_code (atB : func.blocks[b]? = some block) {home : Vreg} :
    .load home ∈ (llvmEmitBlock func b (llvmValuesBefore func b) block).1.code ↔
      llvmFindHomed func home = true ∧ ∃ i ≤ block.insts.length, home ∈ func.llvmOperandsAt (b, i) := by
  rw [mem_block_code accepted atB]
  constructor
  · rintro (⟨j, inst, atJ, member⟩ | ⟨other, read, homed, same⟩)
    · have ok := emitOk_of_accepted accepted atB (List.mem_of_getElem? atJ)
      obtain ⟨read, homed⟩ := ((mem_llvmChunk _ ok).1 home).mp member
      refine ⟨homed, j, (List.getElem?_eq_some_iff.mp atJ).1.le, ?_⟩
      rw [llvmOperandsAt_inst atB atJ]
      exact read
    · cases LlvmInst.load.inj same
      refine ⟨homed, block.insts.length, le_rfl, ?_⟩
      rw [llvmOperandsAt_term atB]
      exact read
  · rintro ⟨homed, j, bound, read⟩
    rcases Nat.lt_or_eq_of_le bound with inside | rfl
    · have atJ : block.insts[j]? = some block.insts[j] := List.getElem?_eq_getElem inside
      have ok := emitOk_of_accepted accepted atB (List.mem_of_getElem? atJ)
      rw [llvmOperandsAt_inst atB atJ] at read
      exact .inl ⟨j, _, atJ, ((mem_llvmChunk _ ok).1 home).mpr ⟨read, homed⟩⟩
    · rw [llvmOperandsAt_term atB] at read
      exact .inr ⟨home, read, homed, rfl⟩

/-- The stores of a block are of the vregs that it sets. -/
theorem store_mem_code (atB : func.blocks[b]? = some block) {home : Vreg} :
    (∃ value, .store value home ∈ (llvmEmitBlock func b (llvmValuesBefore func b) block).1.code) ↔
      ∃ (j : ℕ) (inst : IrInst), block.insts[j]? = some inst ∧ inst.dst = some home ∧ llvmSets inst = true ∧ llvmFindHomed func home = true := by
  simp only [mem_block_code accepted atB]
  constructor
  · rintro ⟨value, ⟨j, inst, atJ, member⟩ | ⟨other, -, -, same⟩⟩
    · have ok := emitOk_of_accepted accepted atB (List.mem_of_getElem? atJ)
      exact ⟨j, inst, atJ, ((mem_llvmChunk _ ok).2.1 home).mp ⟨value, member⟩⟩
    · cases same
  · rintro ⟨j, inst, atJ, set_⟩
    have ok := emitOk_of_accepted accepted atB (List.mem_of_getElem? atJ)
    obtain ⟨value, member⟩ := ((mem_llvmChunk (llvmEmitterAt func (b, j)) ok).2.1 home).mpr set_
    exact ⟨value, .inl ⟨j, inst, atJ, member⟩⟩

theorem call_mem_code (atB : func.blocks[b]? = some block) {type : LlvmCallType} {operands : List LlvmValue} :
    .call inst type operands ∈ (llvmEmitBlock func b (llvmValuesBefore func b) block).1.code ↔
      ∃ j, block.insts[j]? = some inst ∧ inst.op = .call ∧ type = llvmCallType func inst.call ∧
        operands = (llvmGets func b (llvmEmitterAt func (b, j)) (llvmOperands inst)).1 := by
  simp only [mem_block_code accepted atB]
  constructor
  · rintro (⟨j, other, atJ, member⟩ | ⟨other, -, -, same⟩)
    · have ok := emitOk_of_accepted accepted atB (List.mem_of_getElem? atJ)
      obtain ⟨op, rfl, type, operands⟩ := ((mem_llvmChunk _ ok).2.2 inst type operands).mp member
      exact ⟨j, atJ, op, type, operands⟩
    · cases same
  · rintro ⟨j, atJ, op, type, operands⟩
    have ok := emitOk_of_accepted accepted atB (List.mem_of_getElem? atJ)
    exact .inl ⟨j, inst, atJ, ((mem_llvmChunk _ ok).2.2 inst _ _).mpr ⟨op, rfl, type, operands⟩⟩

end BlockCode

/-! ## Runs -/

section Runs

variable {Val W : Type} {sem : IrOpSemantics Val W} {args given : List Val} {garbage : Vreg → Val} {world : W}
  {first state : LlvmState Val W}

/-- A run of the function is at the point with the world of the state, and every vreg that is live there has
its value in its place. -/
def Placed (func : IrFunction) (sem : IrOpSemantics Val W) (args given : List Val) (garbage : Vreg → Val) (world : W)
    (p : Point) (state : LlvmState Val W) : Prop :=
  ∃ vars, (func.opProgram sem).Run ⟨(0, 0), func.enter id args garbage, world⟩ ⟨p, vars, state.world⟩ ∧
    ∀ vreg, func.opFlow.LiveAt vreg p →
      llvmPlace func sem given (llvmEmitterAt func p) state vreg = some (vars vreg)

theorem opProgram_follows : (func.opProgram sem).Follows func.opFlow := by
  have follows : (func.program sem.toIrSemantics).Follows func.flow := program_follows
  exact ⟨follows.next, id, follows.defines⟩

theorem reachable_of_run {start last : Program.State Point Vreg Val W} (entry : start.point = (0, 0))
    (run : (func.opProgram sem).Run start last) : func.Reachable last.point := by
  induction run with
  | refl =>
    rw [entry]
    exact .refl
  | tail _ step ih =>
    obtain ⟨value, acts, -⟩ := step
    exact ReflTransGen.tail ih (opProgram_follows.next acts)

theorem exists_read_of_live {p : Point} (live : func.opFlow.LiveAt vreg p) : ∃ q, vreg ∈ func.operandsAt q := by
  induction live with
  | use used => exact ⟨_, used⟩
  | step _ _ _ ih => exact ih

theorem operandsAt_inst (atB : func.blocks[b]? = some block) (atI : block.insts[i]? = some inst) :
    func.operandsAt (b, i) = irOperands inst := by
  simp only [operandsAt, atB, atI]

theorem operandsAt_term (atB : func.blocks[b]? = some block) :
    func.operandsAt (b, block.insts.length) = termOperands func block.term := by
  simp [operandsAt, atB]

variable (accepted : irVerifyFunction globals func = []) (fits : LlvmFits func)

include accepted fits

/-- The code of one instruction takes one step of the function. -/
theorem Placed.step (atB : func.blocks[b]? = some block) (atI : block.insts[i]? = some inst)
    (exec : llvmExec sem given b 0 (llvmEmitterAt func (b, i + 1)).code first state)
    (before : ∀ state, llvmExec sem given b 0 (llvmEmitterAt func (b, i)).code first state →
      func.Placed sem args given garbage world (b, i) state) :
    func.Placed sem args given garbage world (b, i + 1) state := by
  have ok := emitOk_of_accepted accepted atB (List.mem_of_getElem? atI)
  have inside := (List.getElem?_eq_some_iff.mp atI).1
  rw [llvmEmitterAt_succ atB atI] at exec
  obtain ⟨middle, run, steps⟩ := llvmEmitInst_places (emitter_below accepted atB inside.le) ok exec
  obtain ⟨vars, irRun, held⟩ := before middle run
  have operands : llvmOperands inst = func.operandsAt (b, i) := by
    rw [operandsAt_inst atB atI]
    have member := List.mem_of_getElem? atI
    exact llvmOperands_eq accepted atB member (fits.args_le block (List.mem_of_getElem? atB) inst member)
  rw [operands] at steps
  obtain ⟨value, computes, places⟩ := steps vars fun operand read => held operand (.use read)
  have edge : func.flow.Next (b, i) (b, i + 1) := ⟨block, atB, .inl ⟨inside, rfl⟩⟩
  have writes : (func.opProgram sem).writes (b, i) = inst.dst := by
    show func.writesAt (b, i) = _
    simp [writesAt, atB, atI]
  refine ⟨Program.write vars inst.dst value, irRun.tail ⟨value, ⟨block, atB, .inl ⟨inst, atI, computes, rfl⟩⟩, ?_⟩, ?_⟩
  · rw [writes]
  · intro vreg live
    rw [llvmEmitterAt_succ atB atI, places vreg]
    by_cases dst : inst.dst = some vreg
    · obtain ⟨q, read⟩ := exists_read_of_live live
      rw [if_pos ⟨sets_of_read accepted fits atB atI dst read, dst⟩, dst]
      have written : Program.write vars (some vreg) value vreg = value := Function.update_self ..
      rw [written]
    · rw [if_neg fun both => dst both.2]
      have undefined : ¬func.opFlow.Def (b, i) vreg := by
        rintro ⟨other, atOther, inst', atI', defines⟩
        cases atB.symm.trans atOther
        cases atI.symm.trans atI'
        exact dst defines
      rw [held vreg (.step undefined edge live)]
      cases written : inst.dst with
      | none => rfl
      | some other =>
        have apart : vreg ≠ other := by
          rintro rfl
          exact dst written
        have kept : Program.write vars (some other) value vreg = vars vreg := Function.update_of_ne apart ..
        rw [kept]

/-- From the start of a block to any point of it. -/
theorem Placed.within (atB : func.blocks[b]? = some block) (atStart : func.Placed sem args given garbage world (b, 0) first)
    (bound : i ≤ block.insts.length) (exec : llvmExec sem given b 0 (llvmEmitterAt func (b, i)).code first state) :
    func.Placed sem args given garbage world (b, i) state := by
  induction i generalizing state with
  | zero =>
    rw [llvmEmitterAt_zero] at exec
    rw [show state = first from exec]
    exact atStart
  | succ i ih =>
    have atI : block.insts[i]? = some block.insts[i] := List.getElem?_eq_getElem (by omega)
    exact Placed.step accepted fits atB atI exec fun middle run => ih (by omega) run

/-- What the code gets at a point are the values of the operands. -/
theorem Placed.gets (atB : func.blocks[b]? = some block) (atStart : func.Placed sem args given garbage world (b, 0) first)
    (bound : i ≤ block.insts.length)
    (exec : llvmExec sem given b 0 (llvmGets func b (llvmEmitterAt func (b, i)) (func.llvmOperandsAt (b, i))).2.code first
      state) :
    ∃ vars middle, middle.world = state.world ∧ middle.homes = state.homes ∧
      (func.opProgram sem).Run ⟨(0, 0), func.enter id args garbage, world⟩ ⟨(b, i), vars, state.world⟩ ∧
      (∀ vreg, func.opFlow.LiveAt vreg (b, i) →
        llvmPlace func sem given (llvmEmitterAt func (b, i)) middle vreg = some (vars vreg)) ∧
      (llvmGets func b (llvmEmitterAt func (b, i)) (func.llvmOperandsAt (b, i))).1.map (LlvmValue.eval sem given state) =
        (func.operandsAt (b, i)).map fun vreg => some (vars vreg) := by
  rw [llvmGets_emitter] at exec
  obtain ⟨middle, run, loads⟩ := llvmExec_append.mp exec
  rw [Nat.zero_add] at loads
  obtain ⟨homes, sameWorld, values⟩ := llvmGets_eval (emitter_below accepted atB bound) loads
  obtain ⟨vars, irRun, held⟩ := atStart.within accepted fits atB bound run
  refine ⟨vars, middle, sameWorld.symm, homes.symm, sameWorld ▸ irRun, held, ?_⟩
  rw [values, llvmOperandsAt_eq accepted fits.args_le]
  exact List.map_congr_left fun operand read => held operand (.use read)

omit fits in
/-- Where the function starts, the parameters have their arguments. -/
theorem Placed.entry (length : args.length = func.params.length) :
    func.Placed sem args args garbage world (0, 0) (⟨fun _ => none, fun _ => none, world⟩ : LlvmState Val W) := by
  have verified := verified_of_irVerifyFunction accepted
  refine ⟨_, .refl, fun vreg live => ?_⟩
  have param := verified.live_entry vreg (liveAt_of_opFlow live)
  obtain ⟨k, atK⟩ := List.getElem?_of_mem param
  have bound := (List.getElem?_eq_some_iff.mp atK).1
  have argAt : args[k]? = some args[k] := List.getElem?_eq_getElem (by omega)
  have entered := enter_param id verified.params_nodup (fun v _ w _ ne => ne) garbage atK argAt
  rw [llvmPlace, verified.params_not_homed param, if_neg (by decide), llvmEmitterAt_zero]
  show (llvmParamValues func vreg).eval sem args _ = _
  rw [verified.llvmParamValues_eq atK]
  exact argAt.trans (congrArg some entered.symm)

omit fits in
/-- Control goes where the terminator of the function goes. -/
theorem term_goes (atB : func.blocks[b]? = some block) {vars : Vreg → Val} {id : ℕ}
    (values : (llvmGets func b (llvmEmitterAt func (b, block.insts.length)) (termOperands func block.term)).1.map
      (LlvmValue.eval sem given state) = (termOperands func block.term).map fun vreg => some (vars vreg))
    (goes : (llvmEmitBlock func b (llvmValuesBefore func b) block).1.term.goes sem given state = some id) :
    taken sem.toIrSemantics block.term ((termOperands func block.term).map vars) = some id := by
  have checked := term_accepted accepted atB
  rw [llvmEmitBlock_term atB] at goes
  cases term : block.term with
  | none =>
    rw [term] at goes
    cases goes
  | jmp target =>
    rw [term] at goes
    exact goes
  | ret value =>
    rw [term, llvmEmitTerm] at goes
    split_ifs at goes <;> cases goes
  | br cond target elseTarget =>
    simp only [irVerifyTerm, term, List.append_eq_nil_iff, irVerifyCheck_eq_nil] at checked
    cases cond with
    | none => exact absurd rfl checked.2.1
    | some c =>
      rw [term] at goes values
      obtain ⟨value, isValue⟩ : ∃ value, (llvmGets func b (llvmEmitterAt func (b, block.insts.length)) [c]).1 = [value] :=
        List.length_eq_one_iff.mp (llvmGets_length ..)
      have operands : termOperands func (.br (some c) target elseTarget) = [c] := rfl
      rw [operands, isValue] at values
      have evals : value.eval sem given state = some (vars c) := (List.cons.inj values).1
      simp only [llvmEmitTerm, operands, isValue, List.headD_cons, LlvmTerm.goes, evals, Option.bind_some] at goes
      exact goes

/-- From the end of a block to the start of the next one. -/
theorem Placed.next {succ : IrBlock} {c : ℕ} (atB : func.blocks[b]? = some block)
    (atStart : func.Placed sem args given garbage world (b, 0) first)
    (exec : llvmExec sem given b 0 (llvmEmitBlock func b (llvmValuesBefore func b) block).1.code first state)
    (atC : func.blocks[c]? = some succ)
    (goes : (llvmEmitBlock func b (llvmValuesBefore func b) block).1.term.goes sem given state = some succ.id) :
    func.Placed sem args given garbage world (c, 0) state := by
  have verified := verified_of_irVerifyFunction accepted
  rw [llvmEmitBlock_code atB, ← llvmOperandsAt_term atB] at exec
  obtain ⟨vars, middle, sameWorld, homes, run, held, values⟩ := atStart.gets accepted fits atB le_rfl exec
  rw [llvmOperandsAt_term atB, operandsAt_term atB] at values
  have goesOn := term_goes accepted atB values goes
  have noWrite : (func.opProgram sem).writes (b, block.insts.length) = none := by
    show func.writesAt (b, block.insts.length) = none
    simp [writesAt, atB]
  have reads : (func.opProgram sem).reads (b, block.insts.length) = termOperands func block.term := operandsAt_term atB
  have acts : (func.opProgram sem).act (b, block.insts.length)
      (((func.opProgram sem).reads (b, block.insts.length)).map vars) state.world (vars 0) state.world (c, 0) := by
    rw [reads]
    exact ⟨block, atB, .inr ⟨rfl, rfl, rfl, succ, atC, goesOn⟩⟩
  have step : (func.opProgram sem).Step ⟨(b, block.insts.length), vars, state.world⟩ ⟨(c, 0), vars, state.world⟩ :=
    ⟨vars 0, acts, by rw [noWrite]; rfl⟩
  have edge := opProgram_follows.next acts
  have irRun := run.tail step
  have reached : func.Reachable (c, 0) := reachable_of_run rfl irRun
  refine ⟨vars, irRun, fun vreg live => ?_⟩
  have undefined : ¬func.opFlow.Def (b, block.insts.length) vreg := by
    rw [opProgram_follows.defines, noWrite]
    exact fun none => by cases none
  have before := held vreg (.step undefined edge live)
  rw [← before, llvmPlace, llvmPlace]
  cases homed : llvmFindHomed func vreg with
  | true =>
    rw [if_pos rfl, if_pos rfl, homes]
  | false =>
    have param := verified.param_of_live_start homed reached (liveAt_of_opFlow live)
    obtain ⟨k, atK⟩ := List.getElem?_of_mem param
    rw [if_neg (by decide), if_neg (by decide), verified.values_param param atB le_rfl,
      verified.values_param param atC (Nat.zero_le _), verified.llvmParamValues_eq atK]
    rfl

/-- Wherever a run of the built function gets to, a run of the function does. -/
theorem Placed.enters (length : args.length = func.params.length)
    (enters : (llvmEmitFunction func).Enters sem args world b state) :
    func.Placed sem args args garbage world (b, 0) state := by
  induction enters with
  | start => exact Placed.entry accepted length
  | next _ builtB exec builtC goes ih =>
    obtain ⟨block, atB, rfl⟩ := llvmBlock_iff.mp builtB
    obtain ⟨succ, atC, rfl⟩ := llvmBlock_iff.mp builtC
    exact ih.next accepted fits atB exec atC goes

end Runs

/-! ## The function fits -/

section Fits

variable (accepted : irVerifyFunction globals func = [])

include accepted

/-- The operands of a call are its arguments and its callee. -/
theorem call_operands (atB : func.blocks[b]? = some block) (member : inst ∈ block.insts) (op : inst.op = .call) :
    (llvmOperands inst).length = min 64 inst.call.args.length + (calleeOperands inst.call).length := by
  have ok := emitOk_of_accepted accepted atB member
  have all : ∀ arg ∈ inst.call.args.take 64, arg ≠ none := fun arg taken => ok.args op arg (List.mem_of_mem_take taken)
  have kept : (inst.call.args.take 64).reduceOption.length = (inst.call.args.take 64).length :=
    List.reduceOption_length_eq_iff.mpr fun arg taken => Option.isSome_iff_ne_none.mpr (all arg taken)
  have operands : llvmOperands inst = (inst.call.args.take 64).reduceOption ++ calleeOperands inst.call := by
    simp only [llvmOperands, op]
  rw [operands, List.length_append, kept, List.length_take]

theorem refines_of_fits (fits : LlvmFits func) : LlvmRefines func where
  reads Val W sem args garbage world length b i block atB bound first state := by
    intro function given got enters exec
    have whole : given = args := by
      refine List.take_of_length_le ?_
      rw [length]
      exact (params_length fits).ge
    rw [whole] at enters exec ⊢
    have atStart : func.Placed sem args args garbage world (b, 0) first := Placed.enters accepted fits length enters
    obtain ⟨vars, -, -, -, run, -, values⟩ := atStart.gets accepted fits atB bound exec
    exact ⟨vars, run, values⟩
  gets_dominated b i block atB bound := by
    refine llvmGets_good (goodValue_dominates _ b) fun vreg read notHomed => ?_
    rw [llvmOperandsAt_eq accepted fits.args_le] at read
    exact (emitter_right accepted fits atB bound).values vreg notHomed
      (available_of_operand accepted fits atB bound read notHomed)
  uses_dominated b built builtB := by
    obtain ⟨block, atB, rfl⟩ := llvmBlock_iff.mp builtB
    rw [llvmEmitBlock_code atB]
    exact llvmGets_uses (emitter_right accepted fits atB le_rfl).uses _
  loads_stored built member home load := by
    obtain ⟨b, builtB⟩ := List.getElem?_of_mem member
    obtain ⟨block, atB, rfl⟩ := llvmBlock_iff.mp builtB
    obtain ⟨homed, i, bound, read⟩ := (load_mem_code accepted atB).mp load
    rw [llvmOperandsAt_eq accepted fits.args_le] at read
    obtain ⟨p, q, ⟨other, atC, inst, atJ, dst⟩, -, -⟩ := (verified_of_irVerifyFunction accepted).llvmFindHomed_iff.mp homed
    have sets := sets_of_read accepted fits atC atJ dst read
    obtain ⟨value, store⟩ := (store_mem_code accepted atC).mpr ⟨p.2, inst, atJ, dst, sets, homed⟩
    exact ⟨_, List.mem_of_getElem? (llvmBlock_iff.mpr ⟨other, atC, rfl⟩), value, store⟩
  calls built member inst type operands call := by
    obtain ⟨b, builtB⟩ := List.getElem?_of_mem member
    obtain ⟨block, atB, rfl⟩ := llvmBlock_iff.mp builtB
    obtain ⟨j, atJ, op, rfl, rfl⟩ := (call_mem_code accepted atB).mp call
    have inInsts := List.mem_of_getElem? atJ
    have args := fits.args_le block (List.mem_of_getElem? atB) inst inInsts op
    refine ⟨?_, ?_, fun noVararg => ?_⟩
    · rw [llvmGets_length, call_operands accepted atB inInsts op, min_eq_right args]
    · exact (List.take_prefix _ _).trans (fits.varargs_last block (List.mem_of_getElem? atB) inst inInsts op)
    · have noneVararg : ∀ arg ∈ inst.call.args.zipIdx, (!inst.call.argIsVararg.getD arg.2 false) = true := by
        intro arg member
        simpa using List.any_eq_false.mp noVararg arg member
      rw [llvmCallType, List.filter_eq_self.mpr noneVararg, List.length_take, List.length_map, List.length_zipIdx]
      exact min_eq_right args
  params i vreg atI := by
    have verified := verified_of_irVerifyFunction accepted
    rw [params_length fits]
    exact ⟨verified.llvmParamValues_eq atI, (List.getElem?_eq_some_iff.mp atI).1⟩

omit accepted in
/-- What is got of a vreg without an alloca is the value that the emitter has. -/
theorem value_mem_llvmGets {e : LlvmEmitter} {vregs : List Vreg} (member : vreg ∈ vregs)
    (notHomed : llvmFindHomed func vreg = false) : e.values vreg ∈ (llvmGets func b e vregs).1 := by
  induction vregs generalizing e with
  | nil => cases member
  | cons first rest ih =>
    rw [llvmGets]
    rcases List.mem_cons.mp member with rfl | inRest
    · rw [llvmGet, notHomed, if_neg (by decide)]
      exact List.mem_cons_self ..
    · have kept : (llvmGet func b e first).2.values = e.values := by
        rw [llvmGet]
        split_ifs <;> rfl
      have found := ih (e := (llvmGet func b e first).2) inRest
      rw [kept] at found
      exact List.mem_cons_of_mem _ found

omit accepted in
theorem point_of_mem_operandsAt {p : Point} (read : vreg ∈ func.operandsAt p) :
    ∃ block, func.blocks[p.1]? = some block ∧ p.2 ≤ block.insts.length := by
  obtain ⟨block, atB, ⟨inst, atI, -⟩ | ⟨last, -⟩⟩ := use_of_mem_operandsAt read
  · exact ⟨block, atB, (List.getElem?_eq_some_iff.mp atI).1.le⟩
  · exact ⟨block, atB, last.le⟩

theorem args_le_of_refines (refines : LlvmRefines func) : ∀ block ∈ func.blocks, ∀ inst ∈ block.insts, inst.op = .call →
    inst.call.args.length ≤ 64 := by
  intro block inBlocks inst inInsts op
  obtain ⟨b, atB⟩ := List.getElem?_of_mem inBlocks
  obtain ⟨j, atJ⟩ := List.getElem?_of_mem inInsts
  have call := (call_mem_code accepted atB).mpr ⟨j, atJ, op, rfl, rfl⟩
  have passed := (refines.calls _ (List.mem_of_getElem? (llvmBlock_iff.mpr ⟨block, atB, rfl⟩)) inst _ _ call).1
  rw [llvmGets_length, call_operands accepted atB inInsts op] at passed
  omega

/-- An operand without an alloca has a value: a parameter, or one that an instruction in front of it sets. -/
theorem set_of_refines (refines : LlvmRefines func) {p : Point} (read : vreg ∈ func.operandsAt p)
    (notHomed : llvmFindHomed func vreg = false) (notParam : vreg ∉ func.params) :
    ∃ c j other inst, func.blocks[c]? = some other ∧ other.insts[j]? = some inst ∧ inst.dst = some vreg ∧
      llvmSets inst = true ∧ (c < p.1 ∨ c = p.1 ∧ j < p.2) := by
  obtain ⟨block, atB, bound⟩ := point_of_mem_operandsAt read
  by_contra unset
  have null : (llvmEmitterAt func p).values vreg = .null := by
    refine (verified_of_irVerifyFunction accepted).values_null notParam atB bound ?_
    intro c j other inst atC atJ dst sets
    by_contra early
    exact unset ⟨c, j, other, inst, atC, atJ, dst, sets, by omega⟩
  rw [← llvmOperandsAt_eq accepted (args_le_of_refines accepted refines)] at read
  have got := value_mem_llvmGets (b := p.1) (e := llvmEmitterAt func p) read notHomed
  rw [null] at got
  exact refines.gets_dominated p.1 p.2 block atB bound .null got

theorem fits_of_refines (refines : LlvmRefines func) : LlvmFits func where
  params_le := by
    by_contra many
    have inside : 64 < func.params.length := by omega
    have small := (refines.params 64 _ (List.getElem?_eq_getElem inside)).2
    rw [llvmEmitFunction, List.length_take] at small
    exact absurd (small.trans_le (min_le_left ..)) (lt_irrefl _)
  args_le := args_le_of_refines accepted refines
  varargs_last block inBlocks inst inInsts op := by
    obtain ⟨b, atB⟩ := List.getElem?_of_mem inBlocks
    obtain ⟨j, atJ⟩ := List.getElem?_of_mem inInsts
    have call := (call_mem_code accepted atB).mpr ⟨j, atJ, op, rfl, rfl⟩
    have typed := (refines.calls _ (List.mem_of_getElem? (llvmBlock_iff.mpr ⟨block, atB, rfl⟩)) inst _ _ call).2.1
    have small := args_le_of_refines accepted refines block inBlocks inst inInsts op
    have few : ((inst.call.args.zipIdx.filter fun arg => !inst.call.argIsVararg.getD arg.2 false).map fun arg =>
        irVregType func arg.1).length ≤ 64 := by
      rw [List.length_map]
      exact ((List.length_filter_le _ _).trans_eq (List.length_zipIdx ..)).trans small
    rw [llvmCallType, List.take_of_length_le few] at typed
    exact typed
  no_value block inBlocks inst inInsts op vreg dst p read := by
    have verified := verified_of_irVerifyFunction accepted
    obtain ⟨c, atC⟩ := List.getElem?_of_mem inBlocks
    obtain ⟨j, atJ⟩ := List.getElem?_of_mem inInsts
    have defined : func.flow.Def (c, j) vreg := ⟨block, atC, inst, atJ, dst⟩
    have used := use_of_mem_operandsAt read
    have notSets : llvmSets inst = false := by
      simp only [List.mem_cons, List.not_mem_nil, or_false] at op
      rcases op with op | op | op | op <;> rw [llvmSets, op]
    -- no other instruction sets the vreg
    have unset (c' j' : ℕ) (other : IrBlock) (inst' : IrInst) (atC' : func.blocks[c']? = some other)
        (atJ' : other.insts[j']? = some inst') (dst' : inst'.dst = some vreg) : llvmSets inst' = false := by
      obtain ⟨rfl, rfl⟩ := Prod.mk.inj (verified.block_unique (q := (c', j')) defined ⟨other, atC', inst', atJ', dst'⟩ ⟨_, used⟩)
      cases atC.symm.trans atC'
      cases atJ.symm.trans atJ'
      exact notSets
    cases homed : llvmFindHomed func vreg with
    | true =>
      obtain ⟨at_, atP, bound⟩ := point_of_mem_operandsAt read
      rw [← llvmOperandsAt_eq accepted (args_le_of_refines accepted refines)] at read
      have load := (load_mem_code accepted atP).mpr ⟨homed, p.2, bound, read⟩
      obtain ⟨other, member, stored⟩ :=
        refines.loads_stored _ (List.mem_of_getElem? (llvmBlock_iff.mpr ⟨at_, atP, rfl⟩)) vreg load
      obtain ⟨c', builtC⟩ := List.getElem?_of_mem member
      obtain ⟨source, atC', rfl⟩ := llvmBlock_iff.mp builtC
      obtain ⟨j', inst', atJ', dst', sets, -⟩ := (store_mem_code accepted atC').mp stored
      rw [unset c' j' source inst' atC' atJ' dst'] at sets
      cases sets
    | false =>
      have notParam : vreg ∉ func.params := fun param =>
        verified.params_not_defined (verified.params_lt vreg param) param defined
      obtain ⟨c', j', other, inst', atC', atJ', dst', sets, -⟩ := set_of_refines accepted refines read homed notParam
      rw [unset c' j' other inst' atC' atJ' dst'] at sets
      cases sets
  ordered b _ i j vreg read defined own := by
    have verified := verified_of_irVerifyFunction accepted
    have used := use_of_mem_operandsAt read
    have notHomed : llvmFindHomed func vreg = false := by
      cases homed : llvmFindHomed func vreg with
      | false => rfl
      | true =>
        obtain ⟨p, q, other, usedQ, apart⟩ := verified.llvmFindHomed_iff.mp homed
        rw [verified.block_unique other defined ⟨q, usedQ⟩] at apart
        exact absurd (own q usedQ) apart
    have notParam : vreg ∉ func.params := fun param =>
      verified.params_not_defined (verified.params_lt vreg param) param defined
    obtain ⟨c, k, other, inst, atC, atK, dst, -, before⟩ := set_of_refines accepted refines read notHomed notParam
    have same := verified.block_unique (p := (c, k)) ⟨other, atC, inst, atK, dst⟩ defined ⟨_, used⟩
    obtain ⟨rfl, rfl⟩ := Prod.mk.inj same
    simp only at before
    omega

end Fits

/-- A function that the verifier accepts is refined by its LLVM function exactly when it fits the arrays and the
scan of the code. -/
theorem llvmRefines_iff (accepted : irVerifyFunction globals func = []) : LlvmRefines func ↔ LlvmFits func :=
  ⟨fits_of_refines accepted, refines_of_fits accepted⟩

theorem fits_waitFunction : LlvmFits waitFunction where
  params_le := by decide
  args_le := by decide
  varargs_last := by decide
  no_value block inBlocks inst inInsts op := by
    have valued : ∀ block ∈ waitFunction.blocks, ∀ inst ∈ block.insts, inst.op ∉ [IrOp.nop, .store, .memcpy, .memset] := by
      decide
    exact absurd op (valued block inBlocks inst inInsts)
  ordered b notReached := by
    rintro i j vreg - ⟨block, atB, inst, atJ, -⟩ -
    have entry : ∀ block ∈ waitFunction.blocks, block.insts ≠ [] → block.id = 0 := by decide
    have isEntry := entry block (List.mem_of_getElem? atB) (List.ne_nil_of_mem (List.mem_of_getElem? atJ))
    have first : waitFunction.blocks[0]? = some waitFunction.blocks[0] := rfl
    have isFirst : b = 0 := getElem?_unique atB first isEntry
    subst isFirst
    exact absurd .refl notReached

theorem llvmRefines_waitFunction : LlvmRefines waitFunction :=
  (llvmRefines_iff (show irVerifyFunction [] waitFunction = [] by decide)).mpr fits_waitFunction

/-- A function that calls one of C with 65 arguments. -/
def manyArgsFunction : IrFunction where
  vregTypes := [.i64]
  blocks := [{
    id := 0
    insts := [{ op := .const, type := .i64, dst := some 0 },
      { op := .call, call := { callee := 0, args := List.replicate 65 (some 0) } }]
    term := .ret none }]

theorem manyArgs_not_refines :
    ¬∀ (globals : List IrGlobal) (func : IrFunction), irVerifyFunction globals func = [] → LlvmRefines func := by
  intro all
  have accepted : irVerifyFunction [{ kind := .external, name := [] }] manyArgsFunction = [] := by decide
  have args := args_le_of_refines accepted (all _ _ accepted) _ (List.mem_singleton_self _) _
    (List.mem_cons_of_mem _ (List.mem_singleton_self _)) rfl
  exact absurd args (by decide)

end IrFunction

end Saad
