import Saad.General.Explore
import Saad.General.FlowGraph
import Saad.Ir.Basic

/-! # Dropping unreachable blocks, and the paths of a function

`irFunctionFinalize` keeps the blocks that a jump sequence from the entry block reaches, in their
layout order, and numbers them. The flow graph of a function has a point for each instruction and
one for each terminator; its paths are the runs of the function with every branch left open.
-/

namespace Saad

open General Relation

namespace IrFunction

variable (func : IrFunction)

/-- The ids of the blocks that the block with the id goes on to. A `NULL` target is none. -/
def successorIds (id : ℕ) : List ℕ :=
  match func.deref id with
  | none => []
  | some block => (irBlockSuccessors block).filterMap fun target =>
      (target.bind func.deref).map IrBlock.id

/-- The point before instruction `i` of the block at layout position `b`, or before its terminator. -/
abbrev Point := ℕ × ℕ

/-- The terminator of the block leads to the block at layout position `next`. -/
def Jumps (block : IrBlock) (next : ℕ) : Prop :=
  ∃ target, some target ∈ irBlockSuccessors block ∧
    ∃ succ, func.blocks[next]? = some succ ∧ succ.id = target

/-- The control flow graph of the placed blocks, instruction by instruction. -/
def flow : FlowGraph Point Vreg where
  Next p q := ∃ block, func.blocks[p.1]? = some block ∧
    ((p.2 < block.insts.length ∧ q = (p.1, p.2 + 1)) ∨
      (p.2 = block.insts.length ∧ q.2 = 0 ∧ func.Jumps block q.1))
  Use p v := ∃ block, func.blocks[p.1]? = some block ∧
    ((∃ inst, block.insts[p.2]? = some inst ∧ v ∈ irInstUses inst) ∨
      (p.2 = block.insts.length ∧ v ∈ irTermUses block.term))
  Def p v := ∃ block, func.blocks[p.1]? = some block ∧
    ∃ inst, block.insts[p.2]? = some inst ∧ inst.dst = some v

/-- A path from the entry of the function leads to the point. -/
def Reachable (p : Point) : Prop := func.flow.Path (0, 0) p

/-- Every block knows its layout position. -/
def Indexed : Prop := ∀ (b : ℕ) (block : IrBlock), func.blocks[b]? = some block → block.index = b

end IrFunction

/-- Drops the blocks that the entry block does not reach and numbers the kept ones. -/
def irFunctionFinalize (func : IrFunction) : IrFunction :=
  match func.blocks with
  | [] => func
  | entry :: _ =>
    let reachable := explore func.successorIds (func.blocks ++ func.unplaced).length
      [entry.id] [entry.id]
    let kept := func.blocks.filter (fun block => decide (block.id ∈ reachable))
    { func with
      blocks := kept.mapIdx fun index block => { block with index := index }
      ids_nodup := by
        have ids : (kept.mapIdx fun index block => { block with index := index }).map IrBlock.id =
            kept.map IrBlock.id := by
          apply List.ext_getElem <;> simp
        rw [List.map_append, ids, ← List.map_append]
        exact func.ids_nodup.sublist
          ((List.filter_sublist.append (List.Sublist.refl _)).map IrBlock.id) }

namespace IrFunction

variable {func : IrFunction}

theorem getElem?_unique {b c : ℕ} {block other : IrBlock} (atB : func.blocks[b]? = some block)
    (atC : func.blocks[c]? = some other) (same : block.id = other.id) : b = c := by
  obtain ⟨boundB, rfl⟩ := List.getElem?_eq_some_iff.mp atB
  obtain ⟨boundC, rfl⟩ := List.getElem?_eq_some_iff.mp atC
  have nodup : (func.blocks.map IrBlock.id).Nodup := by
    have := func.ids_nodup
    rw [List.map_append] at this
    exact this.of_append_left
  refine (List.getElem?_inj (by simpa using boundB) nodup).mp ?_
  rw [List.getElem?_map, List.getElem?_map, atB, atC, Option.map_some, Option.map_some, same]

theorem deref_placed {b : ℕ} {block : IrBlock} (atB : func.blocks[b]? = some block) :
    func.deref block.id = some block :=
  func.deref_of_mem (List.mem_append_left _ (List.mem_of_getElem? atB))

theorem mem_successorIds {id target : ℕ} :
    target ∈ func.successorIds id ↔ ∃ block, func.deref id = some block ∧
      some target ∈ irBlockSuccessors block ∧ (func.deref target).isSome := by
  unfold successorIds
  cases found : func.deref id with
  | none => simp
  | some block =>
    simp only [List.mem_filterMap, Option.map_eq_some_iff, Option.some.injEq, exists_eq_left']
    constructor
    · rintro ⟨pointer, mem, other, leads, rfl⟩
      obtain ⟨known, rfl, derefs⟩ := Option.bind_eq_some_iff.mp leads
      obtain ⟨-, rfl⟩ := func.mem_of_deref derefs
      exact ⟨mem, by simp [derefs]⟩
    · rintro ⟨mem, placed⟩
      obtain ⟨other, derefs⟩ := Option.isSome_iff_exists.mp placed
      exact ⟨some target, mem, other, derefs, (func.mem_of_deref derefs).2⟩

/-! ## The kept blocks -/

section Finalize

variable {entry : IrBlock} {rest : List IrBlock}

/-- A block is marked exactly when jumps lead to it from the entry block. -/
theorem mem_explore_successorIds (blocks : func.blocks = entry :: rest) (id : ℕ) :
    id ∈ explore func.successorIds (func.blocks ++ func.unplaced).length [entry.id] [entry.id] ↔
      ReflTransGen (Edge func.successorIds) entry.id id := by
  apply mem_explore_iff ((func.blocks ++ func.unplaced).map IrBlock.id).toFinset
  · intro node path
    rw [List.mem_toFinset]
    rcases ReflTransGen.cases_tail path with rfl | ⟨before, -, edge⟩
    · simp [blocks]
    · obtain ⟨_, _, _, known⟩ := mem_successorIds.mp edge
      obtain ⟨block, derefs⟩ := Option.isSome_iff_exists.mp known
      obtain ⟨mem, rfl⟩ := func.mem_of_deref derefs
      exact List.mem_map_of_mem mem
  · exact (List.toFinset_card_le _).trans (by simp)

theorem finalize_blocks (blocks : func.blocks = entry :: rest) :
    (irFunctionFinalize func).blocks = (func.blocks.filter fun block =>
      decide (block.id ∈ explore func.successorIds (func.blocks ++ func.unplaced).length
        [entry.id] [entry.id])).mapIdx fun index block => { block with index := index } := by
  unfold irFunctionFinalize
  split
  · simp_all
  · next other tail same =>
    obtain ⟨rfl, rfl⟩ := List.cons.inj (same.symm.trans blocks)
    rfl

/-- A kept block is a block of the function that the entry reaches, with its index updated. -/
theorem finalize_getElem? (blocks : func.blocks = entry :: rest) {b : ℕ} {block : IrBlock}
    (atB : (irFunctionFinalize func).blocks[b]? = some block) :
    block.index = b ∧ ReflTransGen (Edge func.successorIds) entry.id block.id ∧
      ∃ source ∈ func.blocks, source.id = block.id ∧ source.insts = block.insts ∧
        source.term = block.term := by
  rw [finalize_blocks blocks, List.getElem?_mapIdx] at atB
  obtain ⟨source, found, rfl⟩ := Option.map_eq_some_iff.mp atB
  obtain ⟨mem, reached⟩ := List.mem_filter.mp (List.mem_of_getElem? found)
  exact ⟨rfl, (mem_explore_successorIds blocks _).mp (by simpa using reached), source, mem, rfl,
    rfl, rfl⟩

theorem finalize_entry (blocks : func.blocks = entry :: rest) :
    ∃ block, (irFunctionFinalize func).blocks[0]? = some block ∧ block.id = entry.id := by
  rw [finalize_blocks blocks, blocks, List.filter_cons_of_pos, List.mapIdx_cons]
  · exact ⟨_, rfl, rfl⟩
  · exact decide_eq_true (by rw [← blocks]; exact (mem_explore_successorIds blocks _).mpr .refl)

end Finalize

/-! ## Paths -/

/-- No terminator leads to `NULL` or to a block outside of the layout. -/
def TargetsPlaced (func : IrFunction) : Prop :=
  ∀ block ∈ func.blocks, ∀ target ∈ irBlockSuccessors block, func.isPlaced target = true

theorem isPlaced_iff {id : ℕ} : func.isPlaced (some id) = true ↔
    ∃ (b : ℕ) (block : IrBlock), func.blocks[b]? = some block ∧ block.id = id := by
  simp only [isPlaced, Option.any_some, List.any_eq_true, beq_iff_eq]
  constructor
  · rintro ⟨block, mem, same⟩
    obtain ⟨b, atB⟩ := List.getElem?_of_mem mem
    exact ⟨b, block, atB, same⟩
  · rintro ⟨b, block, atB, same⟩
    exact ⟨block, List.mem_of_getElem? atB, same⟩

/-- Control runs through a block from one instruction to a later one. -/
theorem path_within {b i j : ℕ} {block : IrBlock} (atB : func.blocks[b]? = some block)
    (order : i ≤ j) (bound : j ≤ block.insts.length) : func.flow.Path (b, i) (b, j) := by
  induction j, order using Nat.le_induction with
  | base => exact .refl
  | succ j _ ih => exact (ih (by omega)).tail ⟨block, atB, .inl ⟨Nat.lt_of_succ_le bound, rfl⟩⟩

theorem path_jump {b next : ℕ} {block : IrBlock} (atB : func.blocks[b]? = some block)
    (jumps : func.Jumps block next) : func.flow.Path (b, 0) (next, 0) :=
  (path_within atB (Nat.zero_le _) le_rfl).tail ⟨block, atB, .inr ⟨rfl, rfl, jumps⟩⟩

/-- When the kept blocks only lead to kept blocks, every one of them is reached by a run. -/
theorem finalize_reachable (placed : (irFunctionFinalize func).TargetsPlaced) {b : ℕ}
    {block : IrBlock} (atB : (irFunctionFinalize func).blocks[b]? = some block) :
    (irFunctionFinalize func).Reachable (b, 0) := by
  cases blocks : func.blocks with
  | nil =>
    unfold irFunctionFinalize at atB
    split at atB <;> simp_all
  | cons entry rest =>
    have kept : ∀ id, ReflTransGen (Edge func.successorIds) entry.id id →
        ∃ (b : ℕ) (block : IrBlock), (irFunctionFinalize func).blocks[b]? = some block ∧
          block.id = id ∧
          (irFunctionFinalize func).Reachable (b, 0) := by
      intro id path
      induction path with
      | refl =>
        obtain ⟨first, atZero, same⟩ := finalize_entry blocks
        exact ⟨0, first, atZero, same, .refl⟩
      | @tail id target _ edge ih =>
        obtain ⟨b, block, atB, rfl, reached⟩ := ih
        obtain ⟨_, _, original, member, ids, _, terms⟩ := finalize_getElem? blocks atB
        obtain ⟨known, derefs, leads, _⟩ := mem_successorIds.mp edge
        rw [← ids, func.deref_of_mem (List.mem_append_left _ member)] at derefs
        cases derefs
        have leads : some target ∈ irBlockSuccessors block := by
          simpa only [irBlockSuccessors, terms] using leads
        obtain ⟨next, succ, atNext, same⟩ :=
          isPlaced_iff.mp (placed block (List.mem_of_getElem? atB) _ leads)
        exact ⟨next, succ, atNext, same,
          reached.trans (path_jump atB ⟨target, leads, succ, atNext, same⟩)⟩
    obtain ⟨c, other, atC, same, reached⟩ := kept block.id (finalize_getElem? blocks atB).2.1
    exact getElem?_unique atB atC same.symm ▸ reached

end IrFunction

end Saad
