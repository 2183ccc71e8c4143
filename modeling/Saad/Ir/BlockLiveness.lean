import Saad.Ir.Finalize

/-! # Liveness at the ends of a block

Sets of vregs as bits, and what a block contributes to liveness: the vregs it reads before defining
them, and the ones it defines. Over paths, a vreg is live in front of an instruction when the rest
of the block reads it first, or passes it on to a successor that it is live at (`liveAt_iff`).
-/

namespace Saad

open General

/-! ## Bitsets -/

/-- A set of vregs below `n`, one bit for each. -/
abbrev IrBitset (n : ℕ) := BitVec n

section Bitset

variable {n : ℕ}

def irBitsetGet (set : IrBitset n) (bit : ℕ) : Bool := set.getLsbD bit

def irBitsetSet (set : IrBitset n) (bit : ℕ) : IrBitset n := set ||| BitVec.twoPow n bit

def irBitsetClear (set : IrBitset n) (bit : ℕ) : IrBitset n := set &&& ~~~BitVec.twoPow n bit

/-- The union, and whether it is more than the first set. -/
def irBitsetUnionInto (dst src : IrBitset n) : IrBitset n × Bool :=
  let merged := dst ||| src
  (merged, merged != dst)

@[simp] theorem irBitsetGet_zero (bit : ℕ) : irBitsetGet (0#n) bit = false := by
  simp [irBitsetGet]

theorem irBitsetGet_lt {set : IrBitset n} {bit : ℕ} (get : irBitsetGet set bit = true) : bit < n :=
  BitVec.lt_of_getLsbD get

@[simp] theorem irBitsetGet_set (set : IrBitset n) (bit other : ℕ) :
    irBitsetGet (irBitsetSet set bit) other = true ↔
      irBitsetGet set other = true ∨ (other < n ∧ other = bit) := by
  simp only [irBitsetGet, irBitsetSet, BitVec.getLsbD_or, BitVec.getLsbD_twoPow, Bool.or_eq_true,
    Bool.and_eq_true, decide_eq_true_eq]
  constructor
  · rintro (old | ⟨bound, same⟩)
    · exact .inl old
    · exact .inr ⟨by omega, same.symm⟩
  · rintro (old | ⟨bound, same⟩)
    · exact .inl old
    · exact .inr ⟨by omega, same.symm⟩

@[simp] theorem irBitsetGet_clear (set : IrBitset n) (bit other : ℕ) :
    irBitsetGet (irBitsetClear set bit) other = true ↔ irBitsetGet set other = true ∧ other ≠ bit := by
  simp only [irBitsetGet, irBitsetClear, BitVec.getLsbD_and, BitVec.getLsbD_not,
    BitVec.getLsbD_twoPow, Bool.and_eq_true, Bool.not_eq_true', decide_eq_true_eq,
    Bool.and_eq_false_imp, decide_eq_false_iff_not]
  constructor
  · rintro ⟨get, -, notBit⟩
    exact ⟨get, fun same => notBit (same ▸ BitVec.lt_of_getLsbD get) same.symm⟩
  · rintro ⟨get, other⟩
    exact ⟨get, BitVec.lt_of_getLsbD get, fun _ => Ne.symm other⟩

@[simp] theorem irBitsetGet_or (first second : IrBitset n) (bit : ℕ) :
    irBitsetGet (first ||| second) bit = true ↔
      irBitsetGet first bit = true ∨ irBitsetGet second bit = true := by
  simp [irBitsetGet]

theorem irBitsetGet_diff (first second : IrBitset n) (bit : ℕ) :
    irBitsetGet (first &&& ~~~second) bit = true ↔
      irBitsetGet first bit = true ∧ ¬ irBitsetGet second bit = true := by
  simp only [irBitsetGet, BitVec.getLsbD_and, BitVec.getLsbD_not, Bool.and_eq_true,
    decide_eq_true_eq, Bool.not_eq_true', Bool.not_eq_true]
  exact ⟨fun h => ⟨h.1, h.2.2⟩, fun h => ⟨h.1, BitVec.lt_of_getLsbD h.1, h.2⟩⟩

theorem irBitset_ext {first second : IrBitset n}
    (same : ∀ bit, irBitsetGet first bit = true ↔ irBitsetGet second bit = true) :
    first = second :=
  BitVec.eq_of_getLsbD_eq fun bit _ => Bool.eq_iff_iff.mpr (same bit)

end Bitset

/-! ## The vregs that a block reads and defines -/

section Block

variable {n : ℕ}

/-- Adds the vregs that are read and not yet defined. -/
def addUses (uses defs : IrBitset n) (vregs : List Vreg) : IrBitset n :=
  vregs.foldl (fun uses vreg => if irBitsetGet defs vreg then uses else irBitsetSet uses vreg) uses

def addInst (state : IrBitset n × IrBitset n) (inst : IrInst) : IrBitset n × IrBitset n :=
  let (uses, defs) := state
  (addUses uses defs (irInstUses inst),
    match inst.dst with
    | none => defs
    | some dst => irBitsetSet defs dst)

/-- What the block reads before it defines it, and what it defines. -/
def blockUsesDefs (n : ℕ) (block : IrBlock) : IrBitset n × IrBitset n :=
  let (uses, defs) := block.insts.foldl addInst (0, 0)
  (addUses uses defs (irTermUses block.term), defs)

/-- The instructions and then the terminator read the vreg before the instructions define it. -/
def Exposed (term : IrTerm) (v : Vreg) : List IrInst → Prop
  | [] => v ∈ irTermUses term
  | inst :: rest => v ∈ irInstUses inst ∨ (inst.dst ≠ some v ∧ Exposed term v rest)

/-- One of the instructions defines the vreg. -/
def Defines (v : Vreg) : List IrInst → Prop
  | [] => False
  | inst :: rest => inst.dst = some v ∨ Defines v rest

theorem get_addUses (uses defs : IrBitset n) (vregs : List Vreg) (v : Vreg) :
    irBitsetGet (addUses uses defs vregs) v = true ↔
      irBitsetGet uses v = true ∨ (v < n ∧ v ∈ vregs ∧ ¬ irBitsetGet defs v = true) := by
  induction vregs generalizing uses with
  | nil => simp [addUses]
  | cons vreg rest ih =>
    have unfolded : addUses uses defs (vreg :: rest) =
        addUses (if irBitsetGet defs vreg then uses else irBitsetSet uses vreg) defs rest := rfl
    rw [unfolded, ih]
    by_cases same : v = vreg
    · subst same
      split <;> simp_all
    · split <;> simp [same]

theorem get_addInst_defs (state : IrBitset n × IrBitset n) (inst : IrInst) (v : Vreg) :
    irBitsetGet (addInst state inst).2 v = true ↔
      irBitsetGet state.2 v = true ∨ (v < n ∧ inst.dst = some v) := by
  simp only [addInst]
  cases inst.dst with
  | none => simp
  | some dst => simp [@eq_comm _ v dst]

theorem get_foldl_addInst (insts : List IrInst) (state : IrBitset n × IrBitset n) (term : IrTerm)
    {v : Vreg} (bound : v < n) :
    (irBitsetGet (insts.foldl addInst state).2 v = true ↔
      irBitsetGet state.2 v = true ∨ Defines v insts) ∧
    (irBitsetGet (addUses (insts.foldl addInst state).1 (insts.foldl addInst state).2
        (irTermUses term)) v = true ↔
      irBitsetGet state.1 v = true ∨ (¬ irBitsetGet state.2 v = true ∧ Exposed term v insts)) := by
  induction insts generalizing state with
  | nil => simp [Defines, Exposed, get_addUses, bound, and_comm]
  | cons inst rest ih =>
    obtain ⟨defs, uses⟩ := ih (addInst state inst)
    simp only [List.foldl_cons, defs, uses, get_addInst_defs, Defines, Exposed, bound, true_and,
      or_assoc, not_or, ne_eq]
    simp only [addInst, get_addUses, bound, true_and]
    tauto

theorem get_blockUsesDefs (block : IrBlock) {v : Vreg} (bound : v < n) :
    (irBitsetGet (blockUsesDefs n block).1 v = true ↔ Exposed block.term v block.insts) ∧
    (irBitsetGet (blockUsesDefs n block).2 v = true ↔ Defines v block.insts) := by
  obtain ⟨defs, uses⟩ := get_foldl_addInst block.insts (0, 0) block.term bound
  simp only [BitVec.ofNat_eq_ofNat, irBitsetGet_zero, Bool.false_eq_true, not_false_eq_true, false_or, true_and] at defs uses
  exact ⟨uses, defs⟩

end Block

/-! ## Liveness over paths, block by block -/

namespace IrFunction

variable {func : IrFunction} {b : ℕ} {block : IrBlock} {v : Vreg}

/-- The vreg is live where a successor of the block starts. -/
def LiveOut (func : IrFunction) (v : Vreg) (b : ℕ) : Prop :=
  ∃ block, func.blocks[b]? = some block ∧ ∃ next, func.Jumps block next ∧
    func.flow.LiveAt v (next, 0)

/-- Liveness inside a block: the rest of the block reads the vreg first, or passes it on. -/
theorem liveAt_iff (atB : func.blocks[b]? = some block) {i : ℕ} (bound : i ≤ block.insts.length) :
    func.flow.LiveAt v (b, i) ↔ Exposed block.term v (block.insts.drop i) ∨
      (¬ Defines v (block.insts.drop i) ∧ func.LiveOut v b) := by
  induction h : block.insts.length - i generalizing i with
  | zero =>
    have last : i = block.insts.length := by omega
    subst last
    simp only [List.drop_length, Exposed, Defines, not_false_eq_true, true_and]
    constructor
    · intro live
      by_cases used : v ∈ irTermUses block.term
      · exact .inl used
      · obtain ⟨-, ⟨next, j⟩, ⟨other, found, edge⟩, rest⟩ := live.cases_of_not_use (by
          rintro ⟨other, found, uses⟩
          cases found.symm.trans atB
          rcases uses with ⟨inst, atI, -⟩ | ⟨-, mem⟩
          · simp at atI
          · exact used mem)
        cases found.symm.trans atB
        rcases edge with ⟨inside, -⟩ | ⟨-, rfl, jumps⟩
        · exact absurd inside (lt_irrefl _)
        · exact .inr ⟨block, atB, next, jumps, rest⟩
    · rintro (used | ⟨other, found, next, jumps, live⟩)
      · exact .use ⟨block, atB, .inr ⟨rfl, used⟩⟩
      · cases found.symm.trans atB
        refine .step ?_ (q := (next, 0)) ⟨block, atB, .inr ⟨rfl, rfl, jumps⟩⟩ live
        rintro ⟨other, found, inst, atI, -⟩
        cases found.symm.trans atB
        simp at atI
  | succ left ih =>
    have inside : i < block.insts.length := by omega
    have next := ih (i := i + 1) (by omega) (by omega)
    have atI : block.insts[i]? = some block.insts[i] := List.getElem?_eq_getElem inside
    rw [List.drop_eq_getElem_cons inside]
    simp only [Exposed, Defines]
    constructor
    · intro live
      by_cases used : v ∈ irInstUses block.insts[i]
      · exact .inl (.inl used)
      · obtain ⟨undefined, ⟨c, j⟩, ⟨other, found, edge⟩, rest⟩ := live.cases_of_not_use (by
          rintro ⟨other, found, uses⟩
          cases found.symm.trans atB
          rcases uses with ⟨inst, atI', mem⟩ | ⟨last, -⟩
          · cases atI'.symm.trans atI
            exact used mem
          · exact absurd last (by simpa using inside.ne))
        cases found.symm.trans atB
        have notDef : block.insts[i].dst ≠ some v :=
          fun defines => undefined ⟨block, atB, _, atI, defines⟩
        rcases edge with ⟨-, same⟩ | ⟨last, -⟩
        · cases same
          rcases next.mp rest with exposed | ⟨notLater, out⟩
          · exact .inl (.inr ⟨notDef, exposed⟩)
          · exact .inr ⟨not_or.mpr ⟨notDef, notLater⟩, out⟩
        · exact absurd last inside.ne
    · have forward (notDef : block.insts[i].dst ≠ some v) (live : func.flow.LiveAt v (b, i + 1)) :
          func.flow.LiveAt v (b, i) := by
        refine .step ?_ (q := (b, i + 1)) ⟨block, atB, .inl ⟨inside, rfl⟩⟩ live
        rintro ⟨other, found, inst, atI', defines⟩
        cases found.symm.trans atB
        cases atI'.symm.trans atI
        exact notDef defines
      rintro ((used | ⟨notDef, exposed⟩) | ⟨notDefined, out⟩)
      · exact .use ⟨block, atB, .inl ⟨_, atI, used⟩⟩
      · exact forward notDef (next.mpr (.inl exposed))
      · rw [not_or] at notDefined
        exact forward notDefined.1 (next.mpr (.inr ⟨notDefined.2, out⟩))

/-- Through targets that are placed and indexed, jumps follow the block pointers. -/
theorem jumps_iff (indexed : func.Indexed) (placed : func.TargetsPlaced) (mem : block ∈ func.blocks)
    {next : ℕ} : func.Jumps block next ↔
      ∃ target ∈ irBlockSuccessors block, ∃ succ, target.bind func.deref = some succ ∧
        succ.index = next := by
  constructor
  · rintro ⟨target, leads, succ, atNext, rfl⟩
    exact ⟨some succ.id, leads, succ, deref_placed atNext, indexed _ _ atNext⟩
  · rintro ⟨target, leads, succ, derefs, rfl⟩
    obtain ⟨id, rfl, found⟩ := Option.bind_eq_some_iff.mp derefs
    obtain ⟨c, other, atC, rfl⟩ := isPlaced_iff.mp (placed block mem _ leads)
    cases (deref_placed atC).symm.trans found
    exact ⟨_, leads, succ, indexed c succ atC ▸ atC, rfl⟩

end IrFunction

end Saad
