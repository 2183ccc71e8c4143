import Saad.Llvm.FunctionValues

/-! # Which vregs live in allocas

A vreg without an alloca is a parameter, or all of its uses are in the block that defines it. So at the start of
a block that a run gets to, only parameters and vregs with allocas are live.
-/

namespace Saad

open General Relation

namespace IrFunction

variable {globals : List IrGlobal} {func : IrFunction} {vreg : Vreg} {p q : Point}

section Operands

theorem irOperands_subset {inst : IrInst} (member : vreg ∈ irOperands inst) : vreg ∈ irInstUses inst := by
  unfold irOperands at member
  cases op : inst.op <;> simp only [op] at member <;>
    simp only [irInstUses, addrOperands, calleeOperands, op, List.mem_append, List.not_mem_nil] at member ⊢ <;>
    simp_all <;> tauto

theorem termOperands_subset {term : IrTerm} (member : vreg ∈ termOperands func term) : vreg ∈ irTermUses term := by
  cases term with
  | br cond target elseTarget => exact member
  | ret value =>
    rw [termOperands] at member
    split_ifs at member
    · cases member
    · exact member
  | _ => cases member

theorem use_of_mem_operandsAt (member : vreg ∈ func.operandsAt p) : func.flow.Use p vreg := by
  simp only [operandsAt] at member
  split at member
  · cases member
  · next block atB =>
    refine ⟨block, atB, ?_⟩
    split at member
    · next inst atI => exact .inl ⟨inst, atI, irOperands_subset member⟩
    · split_ifs at member with last
      · exact .inr ⟨last, termOperands_subset member⟩
      · cases member

/-- The graph of the function with the operands as its uses. -/
def opFlow (func : IrFunction) : FlowGraph Point Vreg where
  Next := func.flow.Next
  Use p vreg := vreg ∈ func.operandsAt p
  Def := func.flow.Def

theorem liveAt_of_opFlow (live : func.opFlow.LiveAt vreg p) : func.flow.LiveAt vreg p := by
  induction live with
  | use used => exact .use (use_of_mem_operandsAt used)
  | step undefined edge _ ih => exact .step undefined edge ih

end Operands

/-! ## Homes -/

section Homes

theorem foldl_last {α β : Type*} {entries : List α} {test : α → Bool} {index : α → β} {c : β}
    (same : ∀ entry ∈ entries, test entry = true → index entry = c) (start : Option β) :
    entries.foldl (fun found entry => if test entry then some (index entry) else found) start =
      if entries.any test then some c else start := by
  induction entries generalizing start with
  | nil => rfl
  | cons entry rest ih =>
    rw [List.foldl_cons, ih fun other member => same other (List.mem_cons_of_mem _ member), List.any_cons]
    by_cases first : test entry = true
    · simp [first, same entry (List.mem_cons_self ..) first]
    · simp [first]

theorem mem_blocks_zipIdx {block : IrBlock} {b : ℕ} : (block, b) ∈ func.blocks.zipIdx ↔ func.blocks[b]? = some block := by
  simp [List.mem_zipIdx_iff_getElem?]

theorem any_dst_iff {b : ℕ} {block : IrBlock} (atB : func.blocks[b]? = some block) :
    block.insts.any (·.dst == some vreg) = true ↔ ∃ i, func.flow.Def (b, i) vreg := by
  simp only [List.any_eq_true, beq_iff_eq]
  constructor
  · rintro ⟨inst, member, dst⟩
    obtain ⟨i, atI⟩ := List.getElem?_of_mem member
    exact ⟨i, block, atB, inst, atI, dst⟩
  · rintro ⟨i, other, atOther, inst, atI, dst⟩
    cases atB.symm.trans atOther
    exact ⟨inst, List.mem_of_getElem? atI, dst⟩

theorem mem_blockUses_iff {b : ℕ} {block : IrBlock} (atB : func.blocks[b]? = some block) :
    vreg ∈ blockUses block ↔ ∃ i, func.flow.Use (b, i) vreg := by
  simp only [blockUses, List.mem_append, List.mem_flatMap]
  constructor
  · rintro (⟨inst, member, used⟩ | used)
    · obtain ⟨i, atI⟩ := List.getElem?_of_mem member
      exact ⟨i, block, atB, .inl ⟨inst, atI, used⟩⟩
    · exact ⟨block.insts.length, block, atB, .inr ⟨rfl, used⟩⟩
  · rintro ⟨i, other, atOther, ⟨inst, atI, used⟩ | ⟨-, used⟩⟩
    · cases atB.symm.trans atOther
      exact .inl ⟨inst, List.mem_of_getElem? atI, used⟩
    · cases atB.symm.trans atOther
      exact .inr used

/-- A vreg that is defined has one definition. -/
theorem Verified.block_unique (verified : Verified func) (defined : func.flow.Def p vreg) (other : func.flow.Def q vreg)
    (used : ∃ r, func.flow.Use r vreg) : p = q := by
  obtain ⟨r, used⟩ := used
  exact verified.def_unique (verified.lt_of_use used) defined other

theorem Verified.llvmDefinedIn_eq (verified : Verified func) (defined : func.flow.Def p vreg)
    (used : ∃ r, func.flow.Use r vreg) : llvmDefinedIn func vreg = some p.1 := by
  have same : ∀ entry ∈ func.blocks.zipIdx, entry.1.insts.any (·.dst == some vreg) = true → entry.2 = p.1 := by
    intro entry member found
    obtain ⟨i, other⟩ := (any_dst_iff (mem_blocks_zipIdx.mp member)).mp found
    rw [verified.block_unique defined other used]
  obtain ⟨block, atB, rest⟩ := defined
  rw [llvmDefinedIn, foldl_last same, if_pos]
  rw [List.any_eq_true]
  exact ⟨(block, p.1), mem_blocks_zipIdx.mpr atB, (any_dst_iff atB).mpr ⟨p.2, block, atB, rest⟩⟩

theorem exists_def_of_llvmDefinedIn {b : ℕ} (found : llvmDefinedIn func vreg = some b) : ∃ i, func.flow.Def (b, i) vreg := by
  have spec : ∀ (entries : List (IrBlock × ℕ)) (start : Option ℕ), (∀ entry ∈ entries, func.blocks[entry.2]? = some entry.1) →
      (∀ c, start = some c → ∃ i, func.flow.Def (c, i) vreg) →
      ∀ c, entries.foldl (fun found entry => if entry.1.insts.any (·.dst == some vreg) then some entry.2 else found) start =
        some c → ∃ i, func.flow.Def (c, i) vreg := by
    intro entries
    induction entries with
    | nil => exact fun start _ held c same => held c same
    | cons entry rest ih =>
      intro start placed held
      refine ih _ (fun other member => placed other (List.mem_cons_of_mem _ member)) fun c same => ?_
      simp only at same
      split_ifs at same with defines
      · rw [← Option.some.inj same]
        exact (any_dst_iff (placed entry (List.mem_cons_self ..))).mp defines
      · exact held c same
  exact spec _ none (fun entry member => mem_blocks_zipIdx.mp member) (fun c none => by cases none) b found

/-- A vreg has an alloca when it is used in another block than the one of its definition. -/
theorem Verified.llvmFindHomed_iff (verified : Verified func) :
    llvmFindHomed func vreg = true ↔ ∃ p q, func.flow.Def p vreg ∧ func.flow.Use q vreg ∧ q.1 ≠ p.1 := by
  simp only [llvmFindHomed, List.any_eq_true, Bool.and_eq_true, Option.any_eq_true, List.contains_iff_mem]
  constructor
  · rintro ⟨entry, member, ⟨b, found, other⟩, used⟩
    obtain ⟨i, defined⟩ := exists_def_of_llvmDefinedIn found
    obtain ⟨j, used⟩ := (mem_blockUses_iff (mem_blocks_zipIdx.mp member)).mp used
    refine ⟨(b, i), (entry.2, j), defined, used, fun same => ?_⟩
    rw [show entry.2 = b from same] at other
    simp at other
  · rintro ⟨p, q, defined, used, other⟩
    obtain ⟨block, atB, rest⟩ := used
    have inBlock : vreg ∈ blockUses block := (mem_blockUses_iff atB).mpr ⟨q.2, block, atB, rest⟩
    refine ⟨(block, q.1), mem_blocks_zipIdx.mpr atB, ⟨p.1, ?_, by simpa using other.symm⟩, inBlock⟩
    exact verified.llvmDefinedIn_eq defined ⟨q, block, atB, rest⟩

/-- The uses of a vreg without an alloca are in the block of its definition. -/
theorem Verified.use_block (verified : Verified func) (notHomed : llvmFindHomed func vreg = false)
    (defined : func.flow.Def p vreg) (used : func.flow.Use q vreg) : q.1 = p.1 := by
  by_contra other
  rw [verified.llvmFindHomed_iff.mpr ⟨p, q, defined, used, other⟩] at notHomed
  cases notHomed

theorem Verified.params_not_homed (verified : Verified func) (param : vreg ∈ func.params) :
    llvmFindHomed func vreg = false := by
  cases homed : llvmFindHomed func vreg with
  | false => rfl
  | true =>
    obtain ⟨p, q, defined, -, -⟩ := verified.llvmFindHomed_iff.mp homed
    exact absurd defined (verified.params_not_defined (verified.params_lt vreg param) param)

end Homes

/-! ## The start of a block -/

section Starts

theorem Verified.exists_def (verified : Verified func) (used : func.flow.Use q vreg) (notParam : vreg ∉ func.params) :
    ∃ p, func.flow.Def p vreg := by
  have count : irDefCount func vreg ≠ 0 := by
    obtain ⟨block, atB, ⟨inst, atI, member⟩ | ⟨-, member⟩⟩ := used
    · exact (verified.used_defined block (List.mem_of_getElem? atB)).1 inst (List.mem_of_getElem? atI) vreg member
    · exact (verified.used_defined block (List.mem_of_getElem? atB)).2 vreg member
  rw [irDefCount, if_pos (lt_of_irDefCount count), Ne, List.count_eq_zero, not_not] at count
  rcases List.mem_append.mp count with param | defined
  · exact absurd param notParam
  · obtain ⟨block, inBlocks, member⟩ := List.mem_flatMap.mp defined
    obtain ⟨inst, inInsts, dst⟩ := List.mem_filterMap.mp member
    obtain ⟨b, atB⟩ := List.getElem?_of_mem inBlocks
    obtain ⟨i, atI⟩ := List.getElem?_of_mem inInsts
    exact ⟨(b, i), block, atB, inst, atI, dst⟩

/-- An edge into another block leads to its start. -/
theorem start_of_edge (edge : func.flow.Next p q) (other : q.1 ≠ p.1) : q.2 = 0 := by
  obtain ⟨block, -, ⟨-, rfl⟩ | ⟨-, first, -⟩⟩ := edge
  · exact absurd rfl other
  · exact first

/-- Where its block starts, a vreg without an alloca is not live. -/
theorem Verified.not_live_own_start (verified : Verified func) (notParam : vreg ∉ func.params)
    (defined : func.flow.Def p vreg) (used : ∃ r, func.flow.Use r vreg) (reached : func.Reachable (p.1, 0)) :
    ¬func.flow.LiveAt vreg (p.1, 0) := by
  intro live
  -- a path cannot get into the block the first time
  have avoids : ∀ r, func.Reachable r → r.1 ≠ p.1 ∧ (func.flow.LiveAt vreg r → func.flow.LiveAt vreg (0, 0)) := by
    intro r path
    induction path with
    | refl =>
      refine ⟨fun same => notParam (verified.live_entry vreg ?_), id⟩
      rw [show (0, 0) = (p.1, 0) from Prod.ext same rfl]
      exact live
    | @tail r q _ edge ih =>
      obtain ⟨outside, back⟩ := ih
      have undefined : ¬func.flow.Def r vreg := fun defines =>
        outside (congrArg Prod.fst (verified.block_unique defines defined used))
      have behind : func.flow.LiveAt vreg q → func.flow.LiveAt vreg (0, 0) := fun atQ => back (.step undefined edge atQ)
      refine ⟨fun inside => notParam (verified.live_entry vreg (behind ?_)), behind⟩
      have first : q.2 = 0 := start_of_edge edge (by rw [inside]; exact fun same => outside same.symm)
      rw [show q = (p.1, 0) from Prod.ext inside first]
      exact live
  exact (avoids _ reached).1 rfl

/-- At the start of a block, the vregs without allocas that are live are parameters. -/
theorem Verified.param_of_live_start (verified : Verified func) (notHomed : llvmFindHomed func vreg = false) {b : ℕ}
    (reached : func.Reachable (b, 0)) (live : func.flow.LiveAt vreg (b, 0)) : vreg ∈ func.params := by
  by_contra notParam
  obtain ⟨r, used⟩ := exists_use_of_liveAt live
  obtain ⟨p, defined⟩ := verified.exists_def used notParam
  have outside : ∀ s, func.flow.LiveAt vreg s → func.Reachable s → s.1 ≠ p.1 → False := by
    intro s live
    induction live with
    | use used => exact fun _ other => other (verified.use_block notHomed defined used)
    | @step s next undefined edge atNext ih =>
      intro path other
      have pathNext : func.Reachable next := ReflTransGen.tail path edge
      by_cases inside : next.1 = p.1
      · have first : next.2 = 0 := start_of_edge edge (by rw [inside]; exact fun same => other same.symm)
        rw [show next = (p.1, 0) from Prod.ext inside first] at atNext pathNext
        exact verified.not_live_own_start notParam defined ⟨r, used⟩ pathNext atNext
      · exact ih pathNext inside
  by_cases own : b = p.1
  · subst own
    exact verified.not_live_own_start notParam defined ⟨r, used⟩ reached live
  · exact outside _ live reached own

/-- What is live at a point of a block and not defined before it in the block is live at the start. -/
theorem live_start {b i : ℕ} {block : IrBlock} (atB : func.blocks[b]? = some block) (bound : i ≤ block.insts.length)
    (live : func.flow.LiveAt vreg (b, i)) (undefined : ∀ j < i, ¬func.flow.Def (b, j) vreg) :
    func.flow.LiveAt vreg (b, 0) := by
  induction i with
  | zero => exact live
  | succ i ih =>
    refine ih (by omega) (.step (undefined i (Nat.lt_succ_self i)) ⟨block, atB, .inl ⟨Nat.lt_of_succ_le bound, rfl⟩⟩ live) ?_
    exact fun j less => undefined j (by omega)

end Starts

end IrFunction

end Saad
