import Saad.Llvm.FunctionGraph

/-! # The built function refines the function

The values of the emitter are followed over all blocks in layout order, and the places of the live vregs over
every run. What the arrays and the scan cannot take (`LlvmFits`) is exactly what goes wrong.
-/

namespace Saad

open General Relation

namespace IrFunction

variable {globals : List IrGlobal} {func : IrFunction} {vreg : Vreg} {b i : ℕ} {block : IrBlock} {inst : IrInst}

/-! ## What the verifier gives -/

section Accepted

theorem irVerifyOperand_ne_none {v : Option Vreg} {expected : IrType} {what : String}
    (accepted : irVerifyOperand func v expected what = []) : v ≠ none := by
  rintro rfl
  cases accepted

theorem inst_accepted (accepted : irVerifyFunction globals func = []) (atB : func.blocks[b]? = some block)
    (member : inst ∈ block.insts) : irVerifyInst globals func inst = [] := by
  obtain ⟨-, structured, -, -⟩ := irVerifyFunction_eq_nil.mp accepted
  obtain ⟨-, blocks, -⟩ := irVerifyStructure_eq_nil.mp structured
  have checked := blocks b block atB
  simp only [irVerifyBlock, List.append_eq_nil_iff, List.flatMap_eq_nil_iff] at checked
  exact checked.1.2 inst member

theorem emitOk_of_accepted (accepted : irVerifyFunction globals func = []) (atB : func.blocks[b]? = some block)
    (member : inst ∈ block.insts) : EmitOk inst := by
  obtain ⟨operation, -⟩ := irVerifyInst_eq_nil (inst_accepted accepted atB member)
  constructor
  · intro op
    simp only [irVerifyOperation, op] at operation
    exact irVerifyOperand_ne_none operation
  · rintro (op | op) <;>
      simp only [irVerifyOperation, op, List.append_eq_nil_iff, irVerifyCheck_eq_nil] at operation <;>
      exact operation.2
  · intro op arg inArgs
    simp only [irVerifyOperation, op, irVerifyCall, List.append_eq_nil_iff, List.flatMap_eq_nil_iff] at operation
    exact irVerifyOperand_ne_none (operation.1.1.2 arg inArgs)
  · intro op void
    simp only [irVerifyOperation, op, irVerifyCall, List.append_eq_nil_iff, irVerifyCheck_eq_nil] at operation
    by_contra some_
    exact operation.1.2 ⟨void, some_⟩

theorem term_accepted (accepted : irVerifyFunction globals func = []) (atB : func.blocks[b]? = some block) :
    irVerifyTerm func block.term = [] := by
  obtain ⟨-, structured, -, -⟩ := irVerifyFunction_eq_nil.mp accepted
  obtain ⟨-, blocks, -⟩ := irVerifyStructure_eq_nil.mp structured
  exact (List.append_eq_nil_iff.mp (blocks b block atB)).2

end Accepted

/-! ## The emitter at each point -/

section EmitterAt

theorem llvmEmitterAt_zero (b : ℕ) : llvmEmitterAt func (b, 0) = ⟨llvmValuesBefore func b, []⟩ := by
  simp [llvmEmitterAt, llvmEmitInsts]

theorem llvmEmitterAt_succ (atB : func.blocks[b]? = some block) (atI : block.insts[i]? = some inst) :
    llvmEmitterAt func (b, i + 1) = llvmEmitInst func b (llvmEmitterAt func (b, i)) inst := by
  have bound := (List.getElem?_eq_some_iff.mp atI).1
  have value : block.insts[i] = inst := (List.getElem?_eq_some_iff.mp atI).2
  simp only [llvmEmitterAt, atB, Option.elim_some, llvmEmitInsts]
  rw [List.take_succ_eq_append_getElem bound, List.foldl_append, value]
  rfl

theorem llvmEmitterAt_length (atB : func.blocks[b]? = some block) :
    llvmEmitterAt func (b, block.insts.length) = llvmEmitInsts func b (llvmValuesBefore func b) block.insts := by
  simp [llvmEmitterAt, atB]

theorem llvmEmitTerm_emitter (e : LlvmEmitter) (term : IrTerm) :
    (llvmEmitTerm func b e term).2 = (llvmGets func b e (termOperands func term)).2 := by
  unfold llvmEmitTerm
  split <;> first | rfl | (split_ifs <;> rfl)

theorem llvmValuesBefore_succ (atB : func.blocks[b]? = some block) :
    llvmValuesBefore func (b + 1) = (llvmEmitterAt func (b, block.insts.length)).values := by
  rw [llvmEmitterAt_length atB]
  simp only [llvmValuesBefore, atB, llvmEmitBlock, llvmEmitTerm_emitter, llvmGets_values]

/-- Over the emission: what holds of the parameters, and is kept by every instruction and from the end of a
block to the start of the next one, holds at every point. -/
theorem llvmEmitterAt_induction {motive : ℕ → ℕ → LlvmEmitter → Prop}
    (start : motive 0 0 ⟨llvmParamValues func, []⟩)
    (inst : ∀ b i block inst e, func.blocks[b]? = some block → block.insts[i]? = some inst → motive b i e →
      motive b (i + 1) (llvmEmitInst func b e inst))
    (next : ∀ b block e, func.blocks[b]? = some block → motive b block.insts.length e → motive (b + 1) 0 ⟨e.values, []⟩)
    (b : ℕ) (bound : b ≤ func.blocks.length) :
    motive b 0 (llvmEmitterAt func (b, 0)) ∧ ∀ block, func.blocks[b]? = some block →
      ∀ i ≤ block.insts.length, motive b i (llvmEmitterAt func (b, i)) := by
  have within (c : ℕ) (atStart : motive c 0 (llvmEmitterAt func (c, 0))) (block : IrBlock)
      (atC : func.blocks[c]? = some block) (i : ℕ) (inside : i ≤ block.insts.length) :
      motive c i (llvmEmitterAt func (c, i)) := by
    induction i with
    | zero => exact atStart
    | succ i ih =>
      have atI : block.insts[i]? = some block.insts[i] := List.getElem?_eq_getElem (by omega)
      rw [llvmEmitterAt_succ atC atI]
      exact inst c i block _ _ atC atI (ih (by omega))
  induction b with
  | zero =>
    have atStart : motive 0 0 (llvmEmitterAt func (0, 0)) := by
      rw [llvmEmitterAt_zero]
      exact start
    exact ⟨atStart, within 0 atStart⟩
  | succ b ih =>
    have atB : func.blocks[b]? = some func.blocks[b] := List.getElem?_eq_getElem (by omega)
    have before := (ih (by omega)).2 _ atB _ le_rfl
    have atStart : motive (b + 1) 0 (llvmEmitterAt func (b + 1, 0)) := by
      rw [llvmEmitterAt_zero, llvmValuesBefore_succ atB]
      exact next b _ _ atB before
    exact ⟨atStart, within (b + 1) atStart⟩

theorem llvmEmitterAt_of_induction {motive : ℕ → ℕ → LlvmEmitter → Prop}
    (start : motive 0 0 ⟨llvmParamValues func, []⟩)
    (inst : ∀ b i block inst e, func.blocks[b]? = some block → block.insts[i]? = some inst → motive b i e →
      motive b (i + 1) (llvmEmitInst func b e inst))
    (next : ∀ b block e, func.blocks[b]? = some block → motive b block.insts.length e → motive (b + 1) 0 ⟨e.values, []⟩)
    (atB : func.blocks[b]? = some block) (bound : i ≤ block.insts.length) :
    motive b i (llvmEmitterAt func (b, i)) :=
  (llvmEmitterAt_induction start inst next b (List.getElem?_eq_some_iff.mp atB).1.le).2 block atB i bound

end EmitterAt

/-! ## Values of the emitter -/

section Values

theorem llvmParamValues_fold {entries : List (Vreg × ℕ)} (values : Vreg → LlvmValue) (nodup : (entries.map Prod.fst).Nodup) :
    (∀ entry ∈ entries, (entries.foldl (fun values entry => Function.update values entry.1 (.param entry.2)) values) entry.1 =
        .param entry.2) ∧
      ∀ vreg ∉ entries.map Prod.fst,
        (entries.foldl (fun values entry => Function.update values entry.1 (.param entry.2)) values) vreg = values vreg := by
  induction entries generalizing values with
  | nil => simp
  | cons first rest ih =>
    rw [List.map_cons, List.nodup_cons] at nodup
    obtain ⟨inside, outside⟩ := ih (Function.update values first.1 (.param first.2)) nodup.2
    constructor
    · intro entry member
      rcases List.mem_cons.mp member with rfl | member
      · rw [List.foldl_cons, outside _ nodup.1]
        exact Function.update_self ..
      · exact inside entry member
    · intro vreg notIn
      rw [List.map_cons, List.mem_cons, not_or] at notIn
      rw [List.foldl_cons, outside _ notIn.2]
      exact Function.update_of_ne notIn.1 ..

theorem Verified.llvmParamValues_eq (verified : Verified func) (param : func.params[i]? = some vreg) :
    llvmParamValues func vreg = .param i := by
  have nodup : (func.params.zipIdx.map Prod.fst).Nodup := by
    rw [List.zipIdx_map_fst]
    exact verified.params_nodup
  exact (llvmParamValues_fold _ nodup).1 (vreg, i) (List.mem_zipIdx_iff_getElem?.mpr (by simpa using param))

theorem Verified.llvmParamValues_null (verified : Verified func) (notParam : vreg ∉ func.params) :
    llvmParamValues func vreg = .null := by
  have nodup : (func.params.zipIdx.map Prod.fst).Nodup := by
    rw [List.zipIdx_map_fst]
    exact verified.params_nodup
  exact (llvmParamValues_fold _ nodup).2 vreg (by rwa [List.zipIdx_map_fst])

/-- The value of a parameter is never set again. -/
theorem Verified.values_param (verified : Verified func) (param : vreg ∈ func.params) (atB : func.blocks[b]? = some block)
    (bound : i ≤ block.insts.length) : (llvmEmitterAt func (b, i)).values vreg = llvmParamValues func vreg := by
  refine llvmEmitterAt_of_induction (motive := fun _ _ e => e.values vreg = llvmParamValues func vreg) rfl ?_
    (fun _ _ _ _ same => same) atB bound
  intro c j other inst e atC atJ same
  rcases llvmEmitInst_values e inst with kept | ⟨dst, value, isDst, -, updated⟩
  · rw [kept, same]
  · rw [updated, Function.update_of_ne, same]
    rintro rfl
    exact verified.params_not_defined (verified.params_lt vreg param) param (p := (c, j)) ⟨other, atC, inst, atJ, isDst⟩

/-- A vreg that is set by no instruction so far has what `calloc` left. -/
theorem Verified.values_null (verified : Verified func) (notParam : vreg ∉ func.params)
    (atB : func.blocks[b]? = some block) (bound : i ≤ block.insts.length)
    (unset : ∀ c j other inst, func.blocks[c]? = some other → other.insts[j]? = some inst → inst.dst = some vreg →
      llvmSets inst = true → b < c ∨ b = c ∧ i ≤ j) :
    (llvmEmitterAt func (b, i)).values vreg = .null := by
  have spec : ((∀ c j other inst, func.blocks[c]? = some other → other.insts[j]? = some inst → inst.dst = some vreg →
      llvmSets inst = true → b < c ∨ b = c ∧ i ≤ j) → (llvmEmitterAt func (b, i)).values vreg = .null) := by
    refine llvmEmitterAt_of_induction (motive := fun b i e =>
      (∀ c j other inst, func.blocks[c]? = some other → other.insts[j]? = some inst → inst.dst = some vreg →
        llvmSets inst = true → b < c ∨ b = c ∧ i ≤ j) → e.values vreg = .null) ?_ ?_ ?_ atB bound
    · exact fun _ => verified.llvmParamValues_null notParam
    · intro c j other inst e atC atJ ih unset
      have before := ih fun c' j' other' inst' atC' atJ' dst sets => by
        have later := unset c' j' other' inst' atC' atJ' dst sets
        omega
      rcases llvmEmitInst_values e inst with kept | ⟨dst, value, isDst, sets, updated⟩
      · rw [kept, before]
      · rw [updated, Function.update_of_ne, before]
        rintro rfl
        have later := unset c j other inst atC atJ isDst sets
        omega
    · intro c other e atC ih unset
      refine ih fun c' j' other' inst' atC' atJ' dst sets => ?_
      have later := unset c' j' other' inst' atC' atJ' dst sets
      omega
  exact spec unset

theorem values_of_not_set {e : LlvmEmitter} (other : ¬(llvmSets inst = true ∧ inst.dst = some vreg)) :
    (llvmEmitInst func b e inst).values vreg = e.values vreg := by
  rcases llvmEmitInst_values e inst with kept | ⟨dst, value, isDst, sets, updated⟩
  · rw [kept]
  · rw [updated, Function.update_of_ne]
    rintro rfl
    exact other ⟨sets, isDst⟩

theorem goodValue_below (b : ℕ) : GoodValue b fun n value => value.Below b n where
  mono le below := below.mono le
  constant _ _ := trivial
  result less := .inr ⟨rfl, less⟩

/-- The values of the emitter are made in front of its code. -/
theorem emitter_below (accepted : irVerifyFunction globals func = []) (atB : func.blocks[b]? = some block)
    (bound : i ≤ block.insts.length) : (llvmEmitterAt func (b, i)).Below b := by
  refine llvmEmitterAt_of_induction (motive := fun b _ e => e.Below b) ?_ ?_ ?_ atB bound
  · intro vreg
    have verified := verified_of_irVerifyFunction accepted
    show (llvmParamValues func vreg).Below 0 _
    by_cases param : vreg ∈ func.params
    · obtain ⟨k, atK⟩ := List.getElem?_of_mem param
      rw [verified.llvmParamValues_eq atK]
      trivial
    · rw [verified.llvmParamValues_null param]
      trivial
  · intro c j other inst e atC atJ below vreg
    by_cases new : llvmSets inst = true ∧ inst.dst = some vreg
    · have ok := emitOk_of_accepted accepted atC (List.mem_of_getElem? atJ)
      exact llvmEmitInst_good (goodValue_below c) ok (fun operand _ _ => below operand) new.1 new.2
    · rw [values_of_not_set new]
      exact (below vreg).mono (llvmEmitInst_code_le ..)
  · intro c other e _ below vreg
    have before := below vreg
    show (e.values vreg).Below (c + 1) _
    cases value : e.values vreg with
    | result place index =>
      rw [value] at before
      rcases before with less | ⟨same, -⟩
      · exact .inl (by omega)
      · exact .inl (by omega)
    | _ => trivial

end Values

/-! ## Operands are built -/

section Dominated

variable (accepted : irVerifyFunction globals func = [])

include accepted

/-- The instruction that defines a vreg that is read sets its value. -/
theorem sets_of_read (fits : LlvmFits func) {c j : ℕ} (atC : func.blocks[c]? = some block)
    (atJ : block.insts[j]? = some inst) (dst : inst.dst = some vreg) {p : Point} (read : vreg ∈ func.operandsAt p) :
    llvmSets inst = true := by
  have ok := emitOk_of_accepted accepted atC (List.mem_of_getElem? atJ)
  have valued : inst.op ∉ [IrOp.nop, .store, .memcpy, .memset] := fun op =>
    fits.no_value block (List.mem_of_getElem? atC) inst (List.mem_of_getElem? atJ) op vreg dst p read
  cases sets : llvmSets inst with
  | true => rfl
  | false =>
    exfalso
    by_cases call : inst.op = .call
    · rw [llvmSets, call] at sets
      have void := ok.void call (by simpa using sets)
      rw [dst] at void
      cases void
    · unfold llvmSets at sets
      split at sets <;> simp_all

/-- The vreg has a value in the emitter where the point is built. -/
def Available (func : IrFunction) (b i : ℕ) (vreg : Vreg) : Prop :=
  vreg ∈ func.params ∨ ∃ j < i, ∃ block inst, func.blocks[b]? = some block ∧ block.insts[j]? = some inst ∧
    inst.dst = some vreg ∧ llvmSets inst = true

/-- An operand without an alloca is a parameter or defined before in the block. -/
theorem available_of_operand (fits : LlvmFits func) (atB : func.blocks[b]? = some block) (bound : i ≤ block.insts.length)
    (read : vreg ∈ func.operandsAt (b, i)) (notHomed : llvmFindHomed func vreg = false) : func.Available b i vreg := by
  have verified := verified_of_irVerifyFunction accepted
  have used := use_of_mem_operandsAt read
  by_cases param : vreg ∈ func.params
  · exact .inl param
  · obtain ⟨⟨c, j⟩, defined⟩ := verified.exists_def used param
    obtain rfl : b = c := verified.use_block notHomed defined used
    have before : j < i := by
      by_cases reached : func.Reachable (b, 0)
      · by_contra notBefore
        refine param (verified.param_of_live_start notHomed reached (live_start atB bound (.use used) ?_))
        intro k less other
        have same := (Prod.mk.inj (verified.block_unique other defined ⟨_, used⟩)).2
        omega
      · exact fits.ordered b reached i j vreg read defined fun q usedQ => verified.use_block notHomed defined usedQ
    obtain ⟨other, atOther, inst, atJ, dst⟩ := defined
    exact .inr ⟨j, before, other, inst, atOther, atJ, dst, sets_of_read accepted fits atOther atJ dst read⟩

theorem llvmOperands_eq (atB : func.blocks[b]? = some block) (member : inst ∈ block.insts)
    (small : inst.op = .call → inst.call.args.length ≤ 64) : llvmOperands inst = irOperands inst := by
  have ok := emitOk_of_accepted accepted atB member
  unfold llvmOperands
  split
  · next op =>
    rw [List.take_of_length_le (small op)]
    simp only [irOperands, op]
  · next op => exact if_pos (ok.bytes (.inl op))
  · next op => exact if_pos (ok.bytes (.inr op))
  · rfl

theorem llvmOperandsAt_eq (small : ∀ block ∈ func.blocks, ∀ inst ∈ block.insts, inst.op = .call →
    inst.call.args.length ≤ 64) (p : Point) : func.llvmOperandsAt p = func.operandsAt p := by
  rw [llvmOperandsAt, operandsAt]
  split
  · rfl
  · next block atB =>
    split
    · next inst atI =>
      have member := List.mem_of_getElem? atI
      exact llvmOperands_eq accepted atB member (small block (List.mem_of_getElem? atB) inst member)
    · rfl

omit accepted in
theorem llvmOperandsAt_inst (atB : func.blocks[b]? = some block) (atI : block.insts[i]? = some inst) :
    func.llvmOperandsAt (b, i) = llvmOperands inst := by
  simp only [llvmOperandsAt, atB, atI]

omit accepted in
theorem llvmOperandsAt_term (atB : func.blocks[b]? = some block) :
    func.llvmOperandsAt (b, block.insts.length) = termOperands func block.term := by
  simp [llvmOperandsAt, atB]

omit accepted in
theorem goodValue_dominates (count b : ℕ) : GoodValue b fun n value => value.Dominates count b n where
  mono le dominates := by
    rename_i value
    cases value with
    | result block index => exact ⟨dominates.1, dominates.2.trans_le le⟩
    | null => exact dominates
    | param i => exact dominates
    | constant inst => trivial
  constant _ _ := trivial
  result less := ⟨rfl, less⟩

omit accepted in
theorem params_length (fits : LlvmFits func) : (llvmEmitFunction func).params.length = func.params.length := by
  rw [llvmEmitFunction, List.length_take, List.length_map]
  exact min_eq_right fits.params_le

/-- The vregs that have a value in the emitter have one that is built, and so have the uses in the code. -/
structure EmittedRight (func : IrFunction) (b i : ℕ) (e : LlvmEmitter) : Prop where
  params : ∀ vreg ∈ func.params, e.values vreg = llvmParamValues func vreg
  values : ∀ vreg, llvmFindHomed func vreg = false → func.Available b i vreg →
    (e.values vreg).Dominates (llvmEmitFunction func).params.length b e.code.length
  uses : UsesGood (fun n value => value.Dominates (llvmEmitFunction func).params.length b n) e.code

theorem emitter_right (fits : LlvmFits func) (atB : func.blocks[b]? = some block) (bound : i ≤ block.insts.length) :
    func.EmittedRight b i (llvmEmitterAt func (b, i)) := by
  have verified := verified_of_irVerifyFunction accepted
  have atStart (c : ℕ) (values : Vreg → LlvmValue)
      (same : ∀ vreg ∈ func.params, values vreg = llvmParamValues func vreg) : ∀ vreg, llvmFindHomed func vreg = false →
      func.Available c 0 vreg → (values vreg).Dominates (llvmEmitFunction func).params.length c 0 := by
    rintro vreg - (param | ⟨j, less, -⟩)
    · obtain ⟨k, atK⟩ := List.getElem?_of_mem param
      rw [same vreg param, verified.llvmParamValues_eq atK, params_length fits]
      exact (List.getElem?_eq_some_iff.mp atK).1
    · omega
  have none (c : ℕ) : UsesGood (fun n value => value.Dominates (llvmEmitFunction func).params.length c n) [] := by
    intro n other atN
    cases atN
  refine llvmEmitterAt_of_induction (motive := func.EmittedRight) ?_ ?_ ?_ atB bound
  · exact ⟨fun _ _ => rfl, atStart 0 _ fun _ _ => rfl, none 0⟩
  · rintro c j other inst e atC atJ ⟨same, values, uses⟩
    have ok := emitOk_of_accepted accepted atC (List.mem_of_getElem? atJ)
    have bound : j ≤ other.insts.length := (List.getElem?_eq_some_iff.mp atJ).1.le
    have operands : ∀ vreg ∈ llvmOperands inst, llvmFindHomed func vreg = false →
        (e.values vreg).Dominates (llvmEmitFunction func).params.length c e.code.length := by
      intro operand read notHomed
      rw [← llvmOperandsAt_inst atC atJ, llvmOperandsAt_eq accepted fits.args_le] at read
      exact values operand notHomed (available_of_operand accepted fits atC bound read notHomed)
    have goodValue := goodValue_dominates (llvmEmitFunction func).params.length c
    refine ⟨fun param isParam => ?_, fun new notHomed available => ?_, llvmEmitInst_uses goodValue ok uses operands⟩
    · rw [values_of_not_set, same param isParam]
      rintro ⟨-, dst⟩
      exact verified.params_not_defined (verified.params_lt param isParam) isParam (p := (c, j)) ⟨other, atC, inst, atJ, dst⟩
    · by_cases isNew : llvmSets inst = true ∧ inst.dst = some new
      · exact llvmEmitInst_good goodValue ok operands isNew.1 isNew.2
      · rw [values_of_not_set isNew]
        refine goodValue.mono (llvmEmitInst_code_le ..) (values new notHomed ?_)
        rcases available with param | ⟨k, less, block', inst', atC', atK, dst, sets⟩
        · exact .inl param
        · refine .inr ⟨k, ?_, block', inst', atC', atK, dst, sets⟩
          rcases Nat.lt_succ_iff_lt_or_eq.mp less with less | rfl
          · exact less
          · cases atC.symm.trans atC'
            cases atJ.symm.trans atK
            exact absurd ⟨sets, dst⟩ isNew
  · rintro c other e atC ⟨same, -, -⟩
    exact ⟨same, atStart (c + 1) _ same, none (c + 1)⟩

end Dominated

end IrFunction

end Saad
