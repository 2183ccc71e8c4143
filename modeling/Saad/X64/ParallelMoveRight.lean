import Saad.X64.ParallelMove

/-! # Parallel moves are parallel

Every pending move still reads the value that its destination is to get, and every move that is done
has brought it there. A round that emits nothing leaves a permutation, so the scratch register is
free when a cycle is broken.
-/

namespace Saad

open General

namespace X64MoveState

def place (state : X64MoveState) : MovePlace → BitVec 64
  | .reg reg => state.regs reg
  | .mem base offset => readMem state.mem (state.address base offset) 8

def operand (state : X64MoveState) : MoveOperand → BitVec 64
  | .place place => state.place place
  | .imm imm => imm

/-- A run has changed nothing but a register. -/
structure OnlyReg (dst : X64Reg) (state last : X64MoveState) : Prop where
  regs : ∀ reg ≠ dst, last.regs reg = state.regs reg
  upper : ∀ reg ≠ dst, last.upper reg = state.upper reg
  mem : last.mem = state.mem

theorem onlyReg_refl (dst : X64Reg) (state : X64MoveState) : OnlyReg dst state state :=
  ⟨fun _ _ => rfl, fun _ _ => rfl, rfl⟩

theorem onlyReg_write (state : X64MoveState) (dst : X64Reg) (low high : BitVec 64) :
    OnlyReg dst state (state.write dst low high) :=
  ⟨fun _ ne => Function.update_of_ne ne _ _, fun _ ne => Function.update_of_ne ne _ _, rfl⟩

theorem write_regs_self (state : X64MoveState) (dst : X64Reg) (low high : BitVec 64) :
    (state.write dst low high).regs dst = low := Function.update_self ..

end X64MoveState

open X64MoveState

/-! ## The instructions of a move -/

section Instructions

variable {state : X64MoveState} {dst src base : X64Reg} {offset : ℤ}

/-- An instruction that writes a register. -/
theorem runs_write {inst : X64MoveInst} (dst : X64Reg) (low high : BitVec 64)
    (step : inst.exec state = some (state.write dst low high)) :
    Runs X64MoveInst.exec [inst] state fun last => last.regs dst = low ∧ OnlyReg dst state last :=
  Runs.single step ⟨write_regs_self .., onlyReg_write ..⟩

theorem runs_x64MoveAnyReg (dst src : X64Reg) (state : X64MoveState) :
    Runs X64MoveInst.exec (x64MoveAnyReg dst src) state fun last =>
      last.regs dst = state.regs src ∧ OnlyReg dst state last := by
  rw [x64MoveAnyReg]
  split_ifs with same both toXmm fromXmm
  · subst same
    exact Runs.nil ⟨rfl, onlyReg_refl _ _⟩
  · apply runs_write dst (state.regs src) (state.upper src)
    simp only [X64MoveInst.exec, both, if_true]
  · apply runs_write dst (state.regs src) 0
    simp only [X64MoveInst.exec, toXmm, if_true]
  · apply runs_write dst (state.regs src) (state.upper dst)
    simp only [X64MoveInst.exec, toXmm, fromXmm, if_true, if_false, Bool.false_eq_true]
  · apply runs_write dst (state.regs src) (state.upper dst)
    simp only [X64MoveInst.exec, toXmm, fromXmm, Bool.or_self, Bool.false_eq_true, if_false]

/-- The source can be loaded: memory has a general register as its base, and a number does not go
into an xmm register. -/
structure Loads (dst : X64Reg) (src : MoveOperand) : Prop where
  base : ∀ base offset, src = .place (.mem base offset) → base.isXmm = false
  number : ∀ imm, src = .imm imm → dst.isXmm = false

theorem runs_x64MoveIntoReg {src : MoveOperand} (loads : Loads dst src) (state : X64MoveState) :
    Runs X64MoveInst.exec (x64MoveIntoReg dst src) state fun last =>
      last.regs dst = state.operand src ∧ OnlyReg dst state last := by
  cases src with
  | place place =>
    cases place with
    | reg src => exact runs_x64MoveAnyReg dst src state
    | mem base offset =>
      have gpr := loads.base base offset rfl
      rw [x64MoveIntoReg]
      split_ifs with toXmm
      · apply runs_write dst (readMem state.mem (state.address base offset) 8) 0
        simp only [X64MoveInst.exec, toXmm, gpr, Bool.not_false, Bool.and_self, if_true]
      · apply runs_write dst (readMem state.mem (state.address base offset) 8) (state.upper dst)
        simp only [X64MoveInst.exec, toXmm, gpr, Bool.or_self, Bool.false_eq_true, if_false]
  | imm imm =>
    have gpr := loads.number imm rfl
    apply runs_write dst imm (state.upper dst)
    simp only [X64MoveInst.exec, gpr, Bool.false_eq_true, if_false]

theorem runs_x64MoveIntoMem (gpr : base.isXmm = false) (offset : ℤ) (src : X64Reg) (state : X64MoveState) :
    Runs X64MoveInst.exec (x64MoveIntoMem base offset src) state fun last =>
      last = { state with mem := writeMem state.mem (state.address base offset) 8 (state.regs src) } := by
  rw [x64MoveIntoMem]
  split_ifs with fromXmm
  · refine Runs.single ?_ rfl
    simp only [X64MoveInst.exec, fromXmm, gpr, Bool.not_false, Bool.and_self, if_true]
  · refine Runs.single ?_ rfl
    simp only [X64MoveInst.exec, fromXmm, gpr, Bool.or_self, Bool.false_eq_true, if_false]

/-- A run has stored a value, and changed no register but r11. -/
structure Stored (base : X64Reg) (offset : ℤ) (value : BitVec 64) (state last : X64MoveState) : Prop where
  mem : last.mem = writeMem state.mem (state.address base offset) 8 value
  regs : ∀ reg ≠ .r11, last.regs reg = state.regs reg
  upper : ∀ reg ≠ .r11, last.upper reg = state.upper reg

theorem runs_x64EmitMove_mem {src : MoveOperand} (gpr : base.isXmm = false) (notScratch : base ≠ .r11)
    (loads : Loads .r11 src) (offset : ℤ) (state : X64MoveState) :
    Runs X64MoveInst.exec (x64EmitMove (.mem base offset) src) state
      fun last => Stored base offset (state.operand src) state last := by
  have through : Runs X64MoveInst.exec (x64MoveIntoReg .r11 src ++ x64MoveIntoMem base offset .r11) state
      fun last => Stored base offset (state.operand src) state last := by
    apply Runs.append
    refine (runs_x64MoveIntoReg loads state).mono fun middle loaded => ?_
    refine (runs_x64MoveIntoMem gpr offset .r11 middle).mono fun last stored => ?_
    obtain ⟨value, only⟩ := loaded
    subst stored
    refine ⟨?_, only.regs, only.upper⟩
    simp only [value, only.mem, address, only.regs base notScratch]
  cases src with
  | place place =>
    cases place with
    | reg src =>
      refine (runs_x64MoveIntoMem gpr offset src state).mono fun last stored => ?_
      subst stored
      exact ⟨rfl, fun _ _ => rfl, fun _ _ => rfl⟩
    | mem srcBase srcOffset => exact through
  | imm imm => exact through

end Instructions

/-! ## The moves while they are pending -/

/-- What the list of moves keeps: the destinations differ, pending ones are registers, and no register
that is a scratch or a base is one. -/
structure MoveShape (moves : List Move) : Prop where
  distinct : (moves.map Move.dst).Nodup
  pending : ∀ move ∈ moves, move.done = false → ∃ reg, move.dst = .reg reg
  scratch : ∀ move ∈ moves, ∀ reg, move.dst = .reg reg → reg ≠ .r11 ∧ reg ≠ .xmm15
  bases : ∀ move ∈ moves, ∀ base offset, move.src = .place (.mem base offset) ∨ move.dst = .mem base offset →
    base.isXmm = false ∧ base ≠ .r11 ∧ ∀ other ∈ moves, other.dst ≠ .reg base
  numbers : ∀ move ∈ moves, ∀ imm reg, move.src = .imm imm → move.dst = .reg reg → reg.isXmm = false

/-- Where the moves stand: the done ones have brought their values, the pending ones still read them. -/
structure Underway (start : X64MoveState) (mem : Memory) (goal : MovePlace → BitVec 64) (moves : List Move)
    (state : X64MoveState) : Prop where
  reached : ∀ move ∈ moves, move.done = true → state.place move.dst = goal move.dst
  waiting : ∀ move ∈ moves, move.done = false → state.operand move.src = goal move.dst
  others : ∀ reg, (∀ move ∈ moves, move.dst ≠ .reg reg) → reg ≠ .r11 → reg ≠ .xmm15 →
    state.regs reg = start.regs reg ∧ state.upper reg = start.upper reg
  mem_eq : state.mem = mem

/-- The number of moves that are still to be done. -/
def pendingCount (moves : List Move) : ℕ := moves.countP fun move => !move.done

/-- The move with its flag set. -/
def Move.finish (move : Move) : Move := { move with done := true }

section Pending

variable {start state last : X64MoveState} {mem : Memory} {goal : MovePlace → BitVec 64}
  {moves before after : List Move} {move : Move}
variable {other : Move} {reg : X64Reg} {rest : List Move}

/-- A list whose moves have the destinations of another, and its sources or registers. -/
theorem MoveShape.of_same {others : List Move} (shape : MoveShape moves)
    (dsts : others.map Move.dst = moves.map Move.dst)
    (each : ∀ other ∈ others, ∃ move ∈ moves, other.dst = move.dst ∧
      (other.src = move.src ∨ ∃ reg, other.src = .place (.reg reg)) ∧ (other.done = false → move.done = false)) :
    MoveShape others := by
  refine ⟨?_, ?_, ?_, ?_, ?_⟩
  · rw [dsts]
    exact shape.distinct
  · intro other member notDone
    obtain ⟨move, found, dst, -, done⟩ := each other member
    rw [dst]
    exact shape.pending move found (done notDone)
  · intro other member
    obtain ⟨move, found, dst, -, -⟩ := each other member
    rw [dst]
    exact shape.scratch move found
  · intro other member base offset which
    obtain ⟨move, found, dst, src, -⟩ := each other member
    have ofMove : move.src = .place (.mem base offset) ∨ move.dst = .mem base offset := by
      rcases which with read | written
      · rcases src with same | ⟨reg, toReg⟩
        · exact .inl (same.symm.trans read)
        · rw [toReg] at read
          cases read
      · exact .inr (dst.symm.trans written)
    obtain ⟨gpr, notScratch, free⟩ := shape.bases move found base offset ofMove
    refine ⟨gpr, notScratch, fun third member' => ?_⟩
    obtain ⟨original, found', dst', -, -⟩ := each third member'
    rw [dst']
    exact free original found'
  · intro other member imm reg number toReg
    obtain ⟨move, found, dst, src, -⟩ := each other member
    rcases src with same | ⟨reg', fromReg⟩
    · exact shape.numbers move found imm reg (same.symm.trans number) (dst.symm.trans toReg)
    · rw [fromReg] at number
      cases number

theorem map_dst_finish : (before ++ move.finish :: after).map Move.dst = (before ++ move :: after).map Move.dst := by
  simp only [List.map_append, List.map_cons, Move.finish]

theorem mem_finish (member : other ∈ before ++ move.finish :: after) :
    other = move.finish ∨ other ∈ before ++ after := by
  simp only [List.mem_append, List.mem_cons] at member ⊢
  tauto

theorem mem_of_rest (member : other ∈ before ++ after) : other ∈ before ++ move :: after := by
  simp only [List.mem_append, List.mem_cons] at member ⊢
  tauto

theorem mem_self : move ∈ before ++ move :: after := by simp

theorem MoveShape.finish (shape : MoveShape (before ++ move :: after)) :
    MoveShape (before ++ move.finish :: after) := by
  apply shape.of_same map_dst_finish
  intro other member
  rcases mem_finish member with rfl | rest
  · exact ⟨move, mem_self, rfl, .inl rfl, fun notDone => by cases notDone⟩
  · exact ⟨other, mem_of_rest rest, rfl, .inl rfl, id⟩

/-- The other moves have other destinations. -/
theorem MoveShape.dst_ne (shape : MoveShape (before ++ move :: after))
    (member : other ∈ before ++ after) :
    other.dst ≠ move.dst := by
  have nodup := shape.distinct
  rw [List.map_append, List.map_cons, List.nodup_middle, List.nodup_cons, ← List.map_append] at nodup
  exact fun same => nodup.1 (List.mem_map.mpr ⟨other, member, same⟩)

/-- A place keeps its value when only a register is written that is neither it nor its base. -/
theorem place_of_onlyReg {dst : X64Reg} {place : MovePlace} (only : OnlyReg dst state last)
    (free : place.register ≠ dst) : last.place place = state.place place := by
  cases place with
  | reg reg => exact only.regs reg free
  | mem base offset =>
    have same := only.regs base free
    simp only [X64MoveState.place, X64MoveState.address, only.mem, same]

/-- The register of a destination, or its base, is no other destination. -/
theorem MoveShape.register_ne (shape : MoveShape moves) (inside : move ∈ moves)
    (toReg : move.dst = .reg reg) (member : other ∈ moves) (ne : other.dst ≠ move.dst) :
    other.dst.register ≠ reg := by
  cases place : other.dst with
  | reg dst =>
    rintro rfl
    exact ne (place.trans toReg.symm)
  | mem base offset =>
    rintro rfl
    exact (shape.bases other member _ _ (.inr place)).2.2 move inside toReg

/-- A move that is not read by another pending one is emitted. -/
theorem Underway.emit {dst : X64Reg} (underway : Underway start mem goal (before ++ move :: after) state)
    (shape : MoveShape (before ++ move :: after)) (notDone : move.done = false) (toReg : move.dst = .reg dst)
    (ready : ∀ other ∈ before ++ after, other.done = false → other.src ≠ .place (.reg dst))
    (value : last.regs dst = state.operand move.src) (only : OnlyReg dst state last) :
    Underway start mem goal (before ++ move.finish :: after) last := by
  refine ⟨?_, ?_, ?_, only.mem.trans underway.mem_eq⟩
  · intro other member done
    rcases mem_finish member with rfl | rest
    · have goal_eq := underway.waiting move mem_self notDone
      rw [Move.finish, ← goal_eq, ← value, toReg]
      rfl
    · rw [place_of_onlyReg only (shape.register_ne mem_self toReg (mem_of_rest rest) (shape.dst_ne rest))]
      exact underway.reached other (mem_of_rest rest) done
  · intro other member pending
    rcases mem_finish member with rfl | rest
    · cases pending
    · rw [← underway.waiting other (mem_of_rest rest) pending]
      cases src : other.src with
      | imm imm => rfl
      | place place =>
        apply place_of_onlyReg only
        cases place with
        | reg reg =>
          rintro rfl
          exact ready other rest pending src
        | mem base offset =>
          rintro rfl
          exact (shape.bases other (mem_of_rest rest) _ _ (.inl src)).2.2 move mem_self toReg
  · intro reg free notR11 notXmm15
    have ne : reg ≠ dst := by
      rintro rfl
      exact free move.finish mem_self toReg
    rw [only.regs reg ne, only.upper reg ne]
    apply underway.others reg _ notR11 notXmm15
    intro other member
    simp only [List.mem_append, List.mem_cons] at member
    rcases member with first | rfl | second
    · exact free other (by simp [first])
    · exact free other.finish mem_self
    · exact free other (by simp [second])

/-- A move of a register to itself is done at once. -/
theorem Underway.same {dst : X64Reg} (underway : Underway start mem goal (before ++ move :: after) state)
    (notDone : move.done = false) (toReg : move.dst = .reg dst) (src : move.src = .place (.reg dst)) :
    Underway start mem goal (before ++ move.finish :: after) state := by
  have goal_eq := underway.waiting move mem_self notDone
  refine ⟨?_, ?_, ?_, underway.mem_eq⟩
  · intro other member done
    rcases mem_finish member with rfl | rest
    · rw [src] at goal_eq
      rw [Move.finish, ← goal_eq, toReg]
      rfl
    · exact underway.reached other (mem_of_rest rest) done
  · intro other member pending
    rcases mem_finish member with rfl | rest
    · cases pending
    · exact underway.waiting other (mem_of_rest rest) pending
  · intro reg free
    apply underway.others reg
    intro other member
    simp only [List.mem_append, List.mem_cons] at member
    rcases member with first | rfl | second
    · exact free other (by simp [first])
    · exact free other.finish mem_self
    · exact free other (by simp [second])

theorem pendingCount_finish (notDone : move.done = false) :
    pendingCount (before ++ move :: after) = pendingCount (before ++ move.finish :: after) + 1 := by
  simp only [pendingCount, List.countP_append, List.countP_cons, notDone, Move.finish, Bool.not_false, Bool.not_true,
    if_true, Bool.false_eq_true, if_false]
  omega

theorem append_cons_eq : before ++ [move] ++ after = before ++ move :: after := by simp

theorem not_blocked (free : ¬move.blocked (before ++ after) = true) {dst : X64Reg} (toReg : move.dst = .reg dst) :
    ∀ other ∈ before ++ after, other.done = false → other.src ≠ .place (.reg dst) := by
  intro other member pending reads
  apply free
  rw [Move.blocked, List.any_eq_true]
  refine ⟨other, member, ?_⟩
  rw [pending, toReg]
  exact decide_eq_true reads

/-! ### A round -/

/-- The four cases of a round: a move that is done, one of a register to itself, a blocked one and one that is
emitted. -/
theorem x64MoveRound_cases (before : List Move) (move : Move) (after : List Move) :
    (move.done = true ∧ x64MoveRound before (move :: after) = x64MoveRound (before ++ [move]) after) ∨
    (move.done = false ∧ move.src = .place (.reg move.dst.register) ∧
      x64MoveRound before (move :: after) = x64MoveRound (before ++ [move.finish]) after) ∨
    (move.done = false ∧ move.src ≠ .place (.reg move.dst.register) ∧ move.blocked (before ++ after) = true ∧
      x64MoveRound before (move :: after) = { x64MoveRound (before ++ [move]) after with pending := true }) ∨
    (move.done = false ∧ ¬move.blocked (before ++ after) = true ∧
      x64MoveRound before (move :: after) =
        { code := x64EmitMove move.dst move.src ++ (x64MoveRound (before ++ [move.finish]) after).code
          moves := (x64MoveRound (before ++ [move.finish]) after).moves
          pending := true
          progress := true }) := by
  rw [x64MoveRound]
  split_ifs with done self blocked
  · exact .inl ⟨done, rfl⟩
  · exact .inr (.inl ⟨Bool.eq_false_iff.mpr done, of_decide_eq_true self, rfl⟩)
  · exact .inr (.inr (.inl ⟨Bool.eq_false_iff.mpr done, fun same => self (decide_eq_true same), blocked, rfl⟩))
  · exact .inr (.inr (.inr ⟨Bool.eq_false_iff.mpr done, blocked, rfl⟩))

theorem x64MoveRound_shape (before rest : List Move) (shape : MoveShape (before ++ rest)) :
    MoveShape (x64MoveRound before rest).moves ∧
      (x64MoveRound before rest).moves.map Move.dst = (before ++ rest).map Move.dst := by
  induction rest generalizing before with
  | nil => simpa [x64MoveRound] using shape
  | cons move after ih =>
    have unchanged := @ih (before ++ [move])
    have finished := @ih (before ++ [move.finish])
    rw [append_cons_eq] at unchanged finished
    rw [map_dst_finish] at finished
    rcases x64MoveRound_cases before move after with ⟨-, eq⟩ | ⟨-, -, eq⟩ | ⟨-, -, -, eq⟩ | ⟨-, -, eq⟩
    · rw [eq]
      exact unchanged shape
    · rw [eq]
      exact finished shape.finish
    · rw [eq]
      exact unchanged shape
    · rw [eq]
      exact finished shape.finish

/-- Every emitted move takes one off the moves that are pending. -/
theorem x64MoveRound_count (before rest : List Move) :
    pendingCount (x64MoveRound before rest).moves ≤ pendingCount (before ++ rest) ∧
      ((x64MoveRound before rest).progress = true →
        pendingCount (x64MoveRound before rest).moves < pendingCount (before ++ rest)) := by
  induction rest generalizing before with
  | nil => simp [x64MoveRound]
  | cons move after ih =>
    rcases x64MoveRound_cases before move after with ⟨-, eq⟩ | ⟨notDone, -, eq⟩ | ⟨-, -, -, eq⟩ | ⟨notDone, -, eq⟩
    · rw [eq]
      simpa only [append_cons_eq] using ih (before ++ [move])
    · rw [eq, pendingCount_finish notDone]
      have rest := ih (before ++ [move.finish])
      rw [append_cons_eq] at rest
      exact ⟨by omega, fun progress => by have := rest.2 progress; omega⟩
    · rw [eq]
      simpa only [append_cons_eq] using ih (before ++ [move])
    · rw [eq, pendingCount_finish notDone]
      have rest := ih (before ++ [move.finish])
      rw [append_cons_eq] at rest
      exact ⟨by simp only; omega, fun _ => by simp only; omega⟩

/-- Without a pending move, everything is done. -/
theorem x64MoveRound_done (first : ∀ move ∈ before, move.done = true)
    (none : (x64MoveRound before rest).pending = false) :
    ∀ move ∈ (x64MoveRound before rest).moves, move.done = true := by
  induction rest generalizing before with
  | nil => exact first
  | cons move after ih =>
    rcases x64MoveRound_cases before move after with ⟨done, eq⟩ | ⟨-, -, eq⟩ | ⟨-, -, -, eq⟩ | ⟨-, -, eq⟩
    · rw [eq] at none ⊢
      apply ih _ none
      intro other member
      rcases List.mem_append.mp member with early | last
      · exact first other early
      · rwa [List.mem_singleton.mp last]
    · rw [eq] at none ⊢
      apply ih _ none
      intro other member
      rcases List.mem_append.mp member with early | last
      · exact first other early
      · rw [List.mem_singleton.mp last]
        rfl
    · rw [eq] at none
      cases none
    · rw [eq] at none
      cases none

theorem loads_of_shape (shape : MoveShape moves) (member : move ∈ moves)
    (toReg : move.dst = .reg reg) :
    Loads reg move.src :=
  ⟨fun base offset src => (shape.bases move member base offset (.inl src)).1,
    fun imm src => shape.numbers move member imm reg src toReg⟩

/-- The code of a round brings the moves that it finishes. -/
theorem x64MoveRound_runs (before rest : List Move) (shape : MoveShape (before ++ rest))
    (underway : Underway start mem goal (before ++ rest) state) :
    Runs X64MoveInst.exec (x64MoveRound before rest).code state
      fun last => Underway start mem goal (x64MoveRound before rest).moves last := by
  induction rest generalizing before state with
  | nil => exact Runs.nil (by simpa [x64MoveRound] using underway)
  | cons move after ih =>
    rcases x64MoveRound_cases before move after with ⟨-, eq⟩ | ⟨notDone, src, eq⟩ | ⟨-, -, -, eq⟩ | ⟨notDone, free, eq⟩
    · rw [eq]
      exact ih _ (by rwa [append_cons_eq]) (by rwa [append_cons_eq])
    · rw [eq]
      obtain ⟨dst, toReg⟩ := shape.pending move mem_self notDone
      rw [toReg] at src
      apply ih
      · rw [append_cons_eq]
        exact shape.finish
      · rw [append_cons_eq]
        exact underway.same notDone toReg src
    · rw [eq]
      exact ih _ (by rwa [append_cons_eq]) (by rwa [append_cons_eq])
    · rw [eq]
      obtain ⟨dst, toReg⟩ := shape.pending move mem_self notDone
      apply Runs.append
      have loads := loads_of_shape shape mem_self toReg
      rw [toReg]
      refine (runs_x64MoveIntoReg loads state).mono fun middle moved => ?_
      apply ih
      · rw [append_cons_eq]
        exact shape.finish
      · rw [append_cons_eq]
        exact underway.emit shape notDone toReg (not_blocked free toReg) moved.1 moved.2

/-- After a round without progress, every pending move is blocked by another pending one. -/
theorem x64MoveRound_stuck (before rest : List Move) (shape : MoveShape (before ++ rest))
    (stuck : (x64MoveRound before rest).progress = false) :
    ∃ settled, (x64MoveRound before rest).moves = before ++ settled ∧
      (∀ other ∈ before ++ settled, other.done = false → other ∈ before ++ rest) ∧
      (∀ other ∈ before ++ rest, other.done = false → other.src ≠ .place (.reg other.dst.register) →
        other ∈ before ++ settled) ∧
      ∀ other ∈ settled, other.done = false → ∃ blocker ∈ before ++ settled, blocker.done = false ∧
        blocker.src = .place (.reg other.dst.register) := by
  induction rest generalizing before with
  | nil => exact ⟨[], by simp [x64MoveRound], fun _ member _ => member, fun _ member _ _ => member, by simp⟩
  | cons move after ih =>
    have unchanged := @ih (before ++ [move])
    have finished := @ih (before ++ [move.finish])
    rw [append_cons_eq] at unchanged finished
    rcases x64MoveRound_cases before move after with ⟨done, eq⟩ | ⟨notDone, src, eq⟩ | ⟨notDone, -, blocked, eq⟩ | ⟨-, -, eq⟩
    · rw [eq] at stuck ⊢
      obtain ⟨settled, moves, fewer, kept, blocks⟩ := unchanged shape stuck
      rw [append_cons_eq] at moves fewer kept blocks
      refine ⟨move :: settled, moves, fewer, kept, ?_⟩
      intro other member pending
      rcases List.mem_cons.mp member with rfl | member
      · rw [done] at pending
        cases pending
      · exact blocks other member pending
    · rw [eq] at stuck ⊢
      obtain ⟨settled, moves, fewer, kept, blocks⟩ := finished shape.finish stuck
      rw [append_cons_eq] at moves fewer kept blocks
      refine ⟨move.finish :: settled, moves, ?_, ?_, ?_⟩
      · intro other member pending
        rcases mem_finish (fewer other member pending) with rfl | rest
        · cases pending
        · exact mem_of_rest rest
      · intro other member pending notSelf
        apply kept other _ pending notSelf
        simp only [List.mem_append, List.mem_cons] at member ⊢
        rcases member with first | rfl | second
        · exact .inl first
        · exact absurd src notSelf
        · exact .inr (.inr second)
      · intro other member pending
        rcases List.mem_cons.mp member with rfl | member
        · cases pending
        · exact blocks other member pending
    · rw [eq] at stuck ⊢
      obtain ⟨settled, moves, fewer, kept, blocks⟩ := unchanged shape stuck
      rw [append_cons_eq] at moves fewer kept blocks
      refine ⟨move :: settled, moves, fewer, kept, ?_⟩
      intro other member pending
      rcases List.mem_cons.mp member with rfl | member
      · rw [Move.blocked, List.any_eq_true] at blocked
        obtain ⟨blocker, inside, reads⟩ := blocked
        simp only [Bool.and_eq_true, Bool.not_eq_true'] at reads
        have src : blocker.src = .place (.reg other.dst.register) := of_decide_eq_true reads.2
        refine ⟨blocker, kept blocker (mem_of_rest inside) reads.1 ?_, reads.1, src⟩
        obtain ⟨dst, toReg⟩ := shape.pending other mem_self notDone
        obtain ⟨blockerDst, blockerReg⟩ := shape.pending blocker (mem_of_rest inside) reads.1
        rw [src, toReg, blockerReg]
        intro same
        have ne := shape.dst_ne inside
        rw [toReg, blockerReg] at ne
        cases same
        exact ne rfl
      · exact blocks other member pending
    · rw [eq] at stuck
      cases stuck

/-- A round keeps the moves before it. -/
theorem x64MoveRound_before (rest : List Move) : ∀ move ∈ before, move ∈ (x64MoveRound before rest).moves := by
  induction rest generalizing before with
  | nil => exact fun move member => member
  | cons move after ih =>
    intro other member
    rcases x64MoveRound_cases before move after with ⟨-, eq⟩ | ⟨-, -, eq⟩ | ⟨-, -, -, eq⟩ | ⟨-, -, eq⟩ <;> rw [eq] <;>
      exact ih other (List.mem_append_left _ member)

theorem x64MoveRound_pending (pending : (x64MoveRound before rest).pending = true)
    (stuck : (x64MoveRound before rest).progress = false) :
    ∃ move ∈ (x64MoveRound before rest).moves, move.done = false := by
  induction rest generalizing before with
  | nil => cases pending
  | cons move after ih =>
    rcases x64MoveRound_cases before move after with ⟨-, eq⟩ | ⟨-, -, eq⟩ | ⟨notDone, -, -, eq⟩ | ⟨-, -, eq⟩
    · rw [eq] at pending stuck ⊢
      exact ih pending stuck
    · rw [eq] at pending stuck ⊢
      exact ih pending stuck
    · rw [eq]
      exact ⟨move, x64MoveRound_before after move (by simp), notDone⟩
    · rw [eq] at stuck
      cases stuck

/-! ### Breaking a cycle -/

/-- Every pending move is blocked by one that reads its destination. -/
def AllBlocked (moves : List Move) : Prop :=
  ∀ move ∈ moves, move.done = false → ∃ blocker ∈ moves, blocker.done = false ∧
    blocker.src = .place (.reg move.dst.register)

/-- When all are blocked, the sources are the destinations in another order: every pending move reads the
destination of a pending one. -/
theorem source_is_destination (shape : MoveShape moves) (blocked : AllBlocked moves) (member : move ∈ moves)
    (pending : move.done = false) :
    ∃ other ∈ moves, other.done = false ∧ ∃ reg, other.dst = .reg reg ∧ move.src = .place (.reg reg) := by
  have split : ∀ other, other ∈ moves.filter (fun move => !move.done) ↔ other ∈ moves ∧ other.done = false := by
    intro other
    rw [List.mem_filter, Bool.not_eq_true']
  have nodup : ((moves.filter fun move => !move.done).map fun move => MoveOperand.place move.dst).Nodup := by
    have dsts := (List.filter_sublist (p := fun move : Move => !move.done) (l := moves)).map Move.dst
    have places := (shape.distinct.sublist dsts).map (f := MoveOperand.place) fun _ _ same => MoveOperand.place.inj same
    rwa [List.map_map] at places
  have inside : ((moves.filter fun move => !move.done).map fun move => MoveOperand.place move.dst) ⊆
      (moves.filter fun move => !move.done).map Move.src := by
    intro operand found
    obtain ⟨other, filtered, rfl⟩ := List.mem_map.mp found
    obtain ⟨inMoves, notDone⟩ := (split other).mp filtered
    obtain ⟨reg, toReg⟩ := shape.pending other inMoves notDone
    obtain ⟨blocker, inMoves', notDone', reads⟩ := blocked other inMoves notDone
    refine List.mem_map.mpr ⟨blocker, (split blocker).mpr ⟨inMoves', notDone'⟩, ?_⟩
    rw [reads, toReg]
    rfl
  have same := (nodup.subperm inside).perm_of_length_le (by rw [List.length_map, List.length_map])
  have source := same.mem_iff.mpr (List.mem_map.mpr ⟨move, (split move).mpr ⟨member, pending⟩, rfl⟩)
  obtain ⟨other, filtered, place⟩ := List.mem_map.mp source
  obtain ⟨inMoves, notDone⟩ := (split other).mp filtered
  obtain ⟨reg, toReg⟩ := shape.pending other inMoves notDone
  exact ⟨other, inMoves, notDone, reg, toReg, by rw [← place, toReg]⟩

theorem moveScratch_cases (reg : X64Reg) : moveScratch reg = .r11 ∨ moveScratch reg = .xmm15 := by
  rw [moveScratch]
  split_ifs
  · exact .inr rfl
  · exact .inl rfl

/-- No destination is the scratch register, or has it as its base. -/
theorem MoveShape.register_ne_scratch (shape : MoveShape moves) (member : move ∈ moves) (reg : X64Reg) :
    move.dst.register ≠ moveScratch reg := by
  cases place : move.dst with
  | reg dst =>
    obtain ⟨notR11, notXmm15⟩ := shape.scratch move member dst place
    rcases moveScratch_cases reg with same | same <;> rw [same]
    · exact notR11
    · exact notXmm15
  | mem base offset =>
    obtain ⟨gpr, notR11, -⟩ := shape.bases move member base offset (.inr place)
    rcases moveScratch_cases reg with same | same <;> rw [same]
    · exact notR11
    · rintro rfl
      cases gpr

/-- A redirected move is the old one, or a pending one whose source is now the scratch register. -/
theorem mem_moveRedirect (member : other ∈ moveRedirect reg moves) :
    ∃ move ∈ moves, other.dst = move.dst ∧ other.done = move.done ∧
      (other.src = move.src ∧ (move.done = false → move.src ≠ .place (.reg reg)) ∨
        move.done = false ∧ move.src = .place (.reg reg) ∧ other.src = .place (.reg (moveScratch reg))) := by
  obtain ⟨move, found, rfl⟩ := List.mem_map.mp member
  refine ⟨move, found, ?_⟩
  split_ifs with redirected
  · rw [Bool.and_eq_true, Bool.not_eq_true'] at redirected
    exact ⟨rfl, rfl, .inr ⟨redirected.1, of_decide_eq_true redirected.2, rfl⟩⟩
  · refine ⟨rfl, rfl, .inl ⟨rfl, fun pending reads => redirected ?_⟩⟩
    rw [pending, moveReadsReg, decide_eq_true reads]
    rfl

theorem map_dst_moveRedirect (reg : X64Reg) (moves : List Move) :
    (moveRedirect reg moves).map Move.dst = moves.map Move.dst := by
  rw [moveRedirect, List.map_map]
  apply List.map_congr_left
  intro move _
  simp only [Function.comp_apply]
  split_ifs <;> rfl

theorem pendingCount_moveRedirect (reg : X64Reg) (moves : List Move) :
    pendingCount (moveRedirect reg moves) = pendingCount moves := by
  rw [pendingCount, moveRedirect, List.countP_map, pendingCount]
  congr 1
  funext move
  simp only [Function.comp_apply]
  split_ifs <;> rfl

theorem MoveShape.redirect (shape : MoveShape moves) (reg : X64Reg) : MoveShape (moveRedirect reg moves) := by
  apply shape.of_same (map_dst_moveRedirect reg moves)
  intro other member
  obtain ⟨move, found, dst, done, src⟩ := mem_moveRedirect member
  refine ⟨move, found, dst, ?_, fun notDone => done.symm.trans notDone⟩
  rcases src with ⟨same, -⟩ | ⟨-, -, scratch⟩
  · exact .inl same
  · exact .inr ⟨_, scratch⟩

/-- The scratch register holds the value for the moves that read it now. -/
theorem Underway.redirect {reg : X64Reg} (underway : Underway start mem goal moves state) (shape : MoveShape moves)
    (blocked : AllBlocked moves) (value : last.regs (moveScratch reg) = state.regs reg)
    (only : OnlyReg (moveScratch reg) state last) : Underway start mem goal (moveRedirect reg moves) last := by
  refine ⟨?_, ?_, ?_, only.mem.trans underway.mem_eq⟩
  · intro other member done
    obtain ⟨move, found, dst, same, -⟩ := mem_moveRedirect member
    rw [dst, place_of_onlyReg only (shape.register_ne_scratch found reg)]
    exact underway.reached move found (same.symm.trans done)
  · intro other member pending
    obtain ⟨move, found, dst, same, src⟩ := mem_moveRedirect member
    have notDone := same.symm.trans pending
    rw [dst, ← underway.waiting move found notDone]
    rcases src with ⟨src, -⟩ | ⟨-, read, scratch⟩
    · obtain ⟨target, inMoves, -, source, toReg, reads⟩ := source_is_destination shape blocked found notDone
      have free := shape.register_ne_scratch inMoves reg
      rw [toReg] at free
      rw [src, reads]
      exact only.regs source free
    · rw [scratch, read]
      exact value
  · intro free notDst notR11 notXmm15
    have ne : free ≠ moveScratch reg := by
      rcases moveScratch_cases reg with same | same <;> rw [same]
      · exact notR11
      · exact notXmm15
    rw [only.regs free ne, only.upper free ne]
    refine underway.others free (fun move found toFree => ?_) notR11 notXmm15
    have inside : move.dst ∈ (moveRedirect reg moves).map Move.dst := by
      rw [map_dst_moveRedirect]
      exact List.mem_map.mpr ⟨move, found, rfl⟩
    obtain ⟨other, member, same⟩ := List.mem_map.mp inside
    exact notDst other member (same.trans toFree)

/-- Once a destination's readers are redirected, the move into it goes ahead. -/
theorem progress_of_redirect (shape : MoveShape moves) (member : move ∈ moves)
    (pending : move.done = false) (toReg : move.dst = .reg reg) :
    (x64MoveRound [] (moveRedirect reg moves)).progress = true := by
  by_contra stuck
  have stuck := Bool.eq_false_iff.mpr stuck
  have scratch : moveScratch reg ≠ reg := by
    have free := shape.register_ne_scratch member reg
    rw [toReg] at free
    exact free.symm
  obtain ⟨settled, -, fewer, kept, blocks⟩ :=
    x64MoveRound_stuck [] (moveRedirect reg moves) (shape.redirect reg) stuck
  rw [List.nil_append, List.nil_append] at fewer kept
  rw [List.nil_append] at blocks
  have noReader : ∀ other ∈ moveRedirect reg moves, other.done = false → other.src ≠ .place (.reg reg) := by
    intro other inside notDone
    obtain ⟨old, -, -, same, src⟩ := mem_moveRedirect inside
    rcases src with ⟨src, free⟩ | ⟨-, -, src⟩
    · rw [src]
      exact free (same.symm.trans notDone)
    · rw [src]
      exact fun same => scratch (MovePlace.reg.inj (MoveOperand.place.inj same))
  have inside : move.dst ∈ (moveRedirect reg moves).map Move.dst := by
    rw [map_dst_moveRedirect]
    exact List.mem_map.mpr ⟨move, member, rfl⟩
  obtain ⟨target, targetInside, targetDst⟩ := List.mem_map.mp inside
  have targetPending : target.done = false := by
    obtain ⟨old, found, dst, same, -⟩ := mem_moveRedirect targetInside
    have unique : old = move :=
      List.inj_on_of_nodup_map shape.distinct found member (dst.symm.trans targetDst)
    rw [same, unique]
    exact pending
  have register : target.dst.register = reg := by
    rw [targetDst, toReg]
    rfl
  have targetSettled := kept target targetInside targetPending (by
    rw [register]
    exact noReader target targetInside targetPending)
  obtain ⟨blocker, inSettled, notDone, reads⟩ := blocks target targetSettled targetPending
  rw [register] at reads
  exact noReader blocker (fewer blocker inSettled notDone) notDone reads

/-! ### All rounds -/

/-- The rounds end, with code that finishes all moves. -/
def RoundsFinish (start : X64MoveState) (mem : Memory) (goal : MovePlace → BitVec 64) (moves : List Move)
    (state : X64MoveState) : Prop :=
  ∃ code, Gives (fun fuel => x64MoveRounds fuel moves) code ∧
    Runs X64MoveInst.exec code state fun last => ∃ finished, Underway start mem goal finished last ∧
      (∀ move ∈ finished, move.done = true) ∧ finished.map Move.dst = moves.map Move.dst

/-- A round that ends or makes progress leaves fewer moves to be done. -/
theorem roundsFinish_of_progress (shape : MoveShape moves) (underway : Underway start mem goal moves state)
    (goesOn : (x64MoveRound [] moves).pending = false ∨ (x64MoveRound [] moves).progress = true)
    (fewer : ∀ others state, pendingCount others < pendingCount moves → MoveShape others →
      Underway start mem goal others state → RoundsFinish start mem goal others state) :
    RoundsFinish start mem goal moves state := by
  obtain ⟨shape', dsts⟩ := x64MoveRound_shape [] moves shape
  have runs := x64MoveRound_runs [] moves shape underway
  cases pending : (x64MoveRound [] moves).pending with
  | false =>
    refine ⟨(x64MoveRound [] moves).code, ⟨1, fun fuel le => ?_⟩, runs.mono fun last finished => ?_⟩
    · obtain ⟨less, rfl⟩ : ∃ less, fuel = less + 1 := ⟨fuel - 1, by omega⟩
      simp only [x64MoveRounds, pending, Bool.not_false, if_true]
    · exact ⟨_, finished, x64MoveRound_done (by simp) pending, dsts⟩
  | true =>
    have progress : (x64MoveRound [] moves).progress = true := by
      rcases goesOn with none | progress
      · rw [pending] at none
        cases none
      · exact progress
    have count := (x64MoveRound_count [] moves).2 progress
    obtain ⟨middle, ran, underway'⟩ := runs
    obtain ⟨code, gives, last, ran', finished, underway'', all, dsts'⟩ := fewer _ middle count shape' underway'
    refine ⟨(x64MoveRound [] moves).code ++ code, ?_, ?_⟩
    · refine (gives.map ((x64MoveRound [] moves).code ++ ·)).step fun fuel => ?_
      simp only [x64MoveRounds, pending, progress, Bool.not_true, Bool.false_eq_true, if_false, if_true]
    · exact Runs.append ⟨middle, ran, last, ran', finished, underway'', all, dsts'.trans dsts⟩

theorem roundsFinish (shape : MoveShape moves) (underway : Underway start mem goal moves state) :
    RoundsFinish start mem goal moves state := by
  -- every move that is emitted takes one off the number of pending ones
  induction count : pendingCount moves using Nat.strongRecOn generalizing moves state with
  | ind n ih =>
    have fewer : ∀ others state, pendingCount others < pendingCount moves → MoveShape others →
        Underway start mem goal others state → RoundsFinish start mem goal others state :=
      fun others state less shape underway => ih _ (count ▸ less) shape underway rfl
    by_cases goesOn : (x64MoveRound [] moves).pending = false ∨ (x64MoveRound [] moves).progress = true
    · exact roundsFinish_of_progress shape underway goesOn fewer
    · rw [not_or, Bool.not_eq_false, Bool.not_eq_true] at goesOn
      obtain ⟨pending, stuck⟩ := goesOn
      -- nothing was emitted: every pending move is blocked, and a cycle is broken
      obtain ⟨shape', dsts⟩ := x64MoveRound_shape [] moves shape
      have less := (x64MoveRound_count [] moves).1
      obtain ⟨settled, result, -, -, blocks⟩ := x64MoveRound_stuck [] moves shape stuck
      rw [List.nil_append] at result blocks less
      have blocked : AllBlocked (x64MoveRound [] moves).moves := by
        rw [result]
        exact blocks
      obtain ⟨middle, ran, underway'⟩ := x64MoveRound_runs [] moves shape underway
      cases found : (x64MoveRound [] moves).moves.find? fun move => !move.done with
      | none =>
        obtain ⟨move, member, notDone⟩ := x64MoveRound_pending pending stuck
        have done := List.find?_eq_none.mp found move member
        simp [notDone] at done
      | some move =>
        have member := List.mem_of_find?_eq_some found
        have notDone : move.done = false := by simpa using List.find?_some found
        obtain ⟨target, inMoves, targetPending, reg, toReg, reads⟩ :=
          source_is_destination shape' blocked member notDone
        have breaks : x64BreakCycle (x64MoveRound [] moves).moves =
            some (x64MoveAnyReg (moveScratch reg) reg, moveRedirect reg (x64MoveRound [] moves).moves) := by
          rw [x64BreakCycle, found]
          simp only [reads]
          rfl
        obtain ⟨saved, ran', value, only⟩ := runs_x64MoveAnyReg (moveScratch reg) reg middle
        have redirected := underway'.redirect shape' blocked value only
        have goesOn := progress_of_redirect shape' inMoves targetPending toReg
        have again : RoundsFinish start mem goal (moveRedirect reg (x64MoveRound [] moves).moves) saved := by
          refine roundsFinish_of_progress (shape'.redirect reg) redirected (.inr goesOn) ?_
          intro others state fewerThan
          rw [pendingCount_moveRedirect] at fewerThan
          exact fewer others state (by omega)
        obtain ⟨code, gives, last, ran'', finished, done, all, dsts'⟩ := again
        refine ⟨(x64MoveRound [] moves).code ++ x64MoveAnyReg (moveScratch reg) reg ++ code, ?_, ?_⟩
        · refine (gives.map ((x64MoveRound [] moves).code ++ x64MoveAnyReg (moveScratch reg) reg ++ ·)).step fun fuel => ?_
          simp only [x64MoveRounds, pending, stuck, breaks, Bool.not_true, Bool.false_eq_true, if_false]
        · apply Runs.append
          apply Runs.append
          refine ⟨middle, ran, saved, ran', last, ran'', finished, done, all, ?_⟩
          rw [dsts', map_dst_moveRedirect, dsts, List.nil_append]

end Pending

/-! ## From the first instruction to the last -/

/-- The eight bytes of two memory places have nothing in common. -/
def MemApart (state : X64MoveState) (base : X64Reg) (offset : ℤ) (other : X64Reg) (otherOffset : ℤ) : Prop :=
  ∀ at', Inside (state.address base offset) 8 at' → ¬Inside (state.address other otherOffset) 8 at'

/-- Destinations differ and do not overlap, memory destinations and sources do not overlap, and the scratch
registers are neither a source nor a destination. -/
structure MovesApart (start : X64MoveState) (moves : List Move) : Prop where
  fresh : ∀ move ∈ moves, move.done = false
  distinct : (moves.map Move.dst).Nodup
  targets : moves.Pairwise fun move other => ∀ base offset other' offset', move.dst = .mem base offset →
    other.dst = .mem other' offset' → MemApart start base offset other' offset'
  sources : ∀ move ∈ moves, ∀ other ∈ moves, ∀ base offset other' offset', move.dst = .mem base offset →
    other.src = .place (.mem other' offset') → MemApart start base offset other' offset'
  dstScratch : ∀ move ∈ moves, move.dst.register ≠ .r11 ∧ move.dst.register ≠ .xmm15
  srcScratch : ∀ move ∈ moves, ∀ place, move.src = .place place → place.register ≠ .r11 ∧ place.register ≠ .xmm15

/-- The base of memory is a general register that is no destination (`rbp` or `rsp`), and a number goes into
a general register or memory. -/
structure MovesFramed (moves : List Move) : Prop where
  bases : ∀ move ∈ moves, ∀ base offset, move.src = .place (.mem base offset) ∨ move.dst = .mem base offset →
    base.isXmm = false ∧ ∀ other ∈ moves, other.dst ≠ .reg base
  numbers : ∀ move ∈ moves, ∀ imm reg, move.src = .imm imm → move.dst = .reg reg → reg.isXmm = false

/-- All moves have happened at once, and nothing else. -/
structure AllAtOnce (start : X64MoveState) (moves : List Move) (last : X64MoveState) : Prop where
  reached : ∀ move ∈ moves, last.place move.dst = start.operand move.src
  others : ∀ reg, (∀ move ∈ moves, move.dst ≠ .reg reg) → reg ≠ .r11 → reg ≠ .xmm15 →
    last.regs reg = start.regs reg ∧ last.upper reg = start.upper reg
  memory : ∀ at', (∀ move ∈ moves, ∀ base offset, move.dst = .mem base offset →
    ¬Inside (start.address base offset) 8 at') → last.mem at' = start.mem at'

section Stores

variable {start state : X64MoveState} {moves : List Move} {move : Move}

theorem MovesApart.tail (apart : MovesApart start (move :: moves)) : MovesApart start moves where
  fresh := fun other member => apart.fresh other (List.mem_cons_of_mem _ member)
  distinct := (List.nodup_cons.mp apart.distinct).2
  targets := (List.pairwise_cons.mp apart.targets).2
  sources := fun first member second member' =>
    apart.sources first (List.mem_cons_of_mem _ member) second (List.mem_cons_of_mem _ member')
  dstScratch := fun other member => apart.dstScratch other (List.mem_cons_of_mem _ member)
  srcScratch := fun other member => apart.srcScratch other (List.mem_cons_of_mem _ member)

theorem MovesFramed.tail (framed : MovesFramed (move :: moves)) : MovesFramed moves where
  bases := fun other member base offset which =>
    ⟨(framed.bases other (List.mem_cons_of_mem _ member) base offset which).1, fun third member' =>
      (framed.bases other (List.mem_cons_of_mem _ member) base offset which).2 third (List.mem_cons_of_mem _ member')⟩
  numbers := fun other member => framed.numbers other (List.mem_cons_of_mem _ member)

/-- An operand keeps its value when the registers but r11 do, and the bytes that it reads. -/
theorem operand_same {other : X64MoveState} {src : MoveOperand}
    (notScratch : ∀ place, src = .place place → place.register ≠ .r11)
    (regs : ∀ reg ≠ .r11, other.regs reg = state.regs reg)
    (bytes : ∀ base offset, src = .place (.mem base offset) → ∀ at', Inside (state.address base offset) 8 at' →
      other.mem at' = state.mem at') : other.operand src = state.operand src := by
  cases src with
  | imm imm => rfl
  | place place =>
    have free := notScratch place rfl
    cases place with
    | reg reg => exact regs reg free
    | mem base offset =>
      have same : other.address base offset = state.address base offset := by
        rw [X64MoveState.address, X64MoveState.address, regs base free]
      simp only [X64MoveState.operand, X64MoveState.place, same]
      exact readMem_congr (bytes base offset rfl)

/-- After the moves into memory: their values are there, and only r11 and their bytes have changed. -/
structure StoresDone (start state : X64MoveState) (moves : List Move) (last : X64MoveState) : Prop where
  reached : ∀ move ∈ moves, ∀ base offset, move.dst = .mem base offset →
    readMem last.mem (start.address base offset) 8 = state.operand move.src
  regs : ∀ reg ≠ .r11, last.regs reg = start.regs reg
  upper : ∀ reg ≠ .r11, last.upper reg = start.upper reg
  memory : ∀ at', (∀ move ∈ moves, ∀ base offset, move.dst = .mem base offset →
    ¬Inside (start.address base offset) 8 at') → last.mem at' = state.mem at'

theorem x64StoreMoves_runs (apart : MovesApart start moves) (framed : MovesFramed moves)
    (regs : ∀ reg ≠ .r11, state.regs reg = start.regs reg) (upper : ∀ reg ≠ .r11, state.upper reg = start.upper reg) :
    Runs X64MoveInst.exec (x64StoreMoves moves).1 state (StoresDone start state moves) := by
  induction moves generalizing state with
  | nil => exact Runs.nil ⟨by simp, regs, upper, fun _ _ => rfl⟩
  | cons move moves ih =>
    have first : move ∈ move :: moves := List.mem_cons_self ..
    rw [x64StoreMoves]
    cases place : move.dst with
    | reg dst =>
      rw [if_neg (by rw [MovePlace.isMem]; decide)]
      refine (ih apart.tail framed.tail regs upper).mono fun last done => ⟨?_, done.regs, done.upper, ?_⟩
      · intro other member base offset toMem
        rcases List.mem_cons.mp member with rfl | member
        · rw [place] at toMem
          cases toMem
        · exact done.reached other member base offset toMem
      · intro at' outside
        exact done.memory at' fun other member => outside other (List.mem_cons_of_mem _ member)
    | mem base offset =>
      rw [if_pos (show (MovePlace.mem base offset).isMem = true from rfl)]
      have gpr := (framed.bases move first base offset (.inr place)).1
      have notScratch : base ≠ .r11 := by
        have free := (apart.dstScratch move first).1
        rwa [place] at free
      have loads : Loads .r11 move.src :=
        ⟨fun base' offset' src => (framed.bases move first base' offset' (.inl src)).1, fun _ _ => rfl⟩
      have here : state.address base offset = start.address base offset := by
        rw [X64MoveState.address, X64MoveState.address, regs base notScratch]
      apply Runs.append
      refine (runs_x64EmitMove_mem gpr notScratch loads offset state).mono fun middle stored => ?_
      have regs' : ∀ reg ≠ .r11, middle.regs reg = start.regs reg :=
        fun reg ne => (stored.regs reg ne).trans (regs reg ne)
      have upper' : ∀ reg ≠ .r11, middle.upper reg = start.upper reg :=
        fun reg ne => (stored.upper reg ne).trans (upper reg ne)
      have elsewhere : ∀ at', ¬Inside (start.address base offset) 8 at' → middle.mem at' = state.mem at' := by
        intro at' outside
        rw [stored.mem, here]
        exact writeMem_of_outside outside
      refine (ih apart.tail framed.tail regs' upper').mono fun last done => ⟨?_, done.regs, done.upper, ?_⟩
      · intro other member base' offset' toMem
        rcases List.mem_cons.mp member with rfl | member
        · -- the later stores leave the bytes of this one
          rw [place] at toMem
          cases toMem
          have kept : readMem last.mem (start.address base offset) 8 = readMem middle.mem (start.address base offset) 8 := by
            apply readMem_congr
            intro at' inside
            apply done.memory
            intro third member base'' offset'' toMem'
            exact (List.pairwise_cons.mp apart.targets).1 third member _ _ _ _ place toMem' at' inside
          rw [kept, stored.mem, here]
          exact readMem_writeMem _ (by decide)
        · rw [done.reached other member base' offset' toMem]
          apply operand_same
          · exact fun place src => (apart.srcScratch other (List.mem_cons_of_mem _ member) place src).1
          · exact stored.regs
          · intro base'' offset'' src at' inside
            apply elsewhere
            intro both
            have notScratch'' := (apart.srcScratch other (List.mem_cons_of_mem _ member) _ src).1
            have there : state.address base'' offset'' = start.address base'' offset'' := by
              rw [X64MoveState.address, X64MoveState.address, regs base'' notScratch'']
            rw [there] at inside
            exact apart.sources move first other (List.mem_cons_of_mem _ member) _ _ _ _ place src at' both inside
      · intro at' outside
        rw [done.memory at' fun other member => outside other (List.mem_cons_of_mem _ member)]
        exact elsewhere at' (outside move first base offset place)

theorem x64StoreMoves_moves (moves : List Move) :
    (x64StoreMoves moves).2 = moves.map fun move => if move.dst.isMem then move.finish else move := by
  induction moves with
  | nil => rfl
  | cons move moves ih =>
    rw [x64StoreMoves, List.map_cons, ← ih]
    split_ifs <;> rfl

/-- What a destination is to get. -/
def goalOf (start : X64MoveState) (moves : List Move) (place : MovePlace) : BitVec 64 :=
  (moves.find? fun move => decide (move.dst = place)).elim 0 fun move => start.operand move.src

theorem goalOf_dst (distinct : (moves.map Move.dst).Nodup) (member : move ∈ moves) :
    goalOf start moves move.dst = start.operand move.src := by
  rw [goalOf]
  cases found : moves.find? fun other => decide (other.dst = move.dst) with
  | none => exact absurd (List.find?_eq_none.mp found move member) (by simp)
  | some other =>
    have same : other.dst = move.dst := by simpa using List.find?_some found
    obtain rfl := List.inj_on_of_nodup_map distinct (List.mem_of_find?_eq_some found) member same
    rfl

/-- The moves after the ones into memory. -/
theorem mem_storeMoves {other : Move} (member : other ∈ (x64StoreMoves moves).2) :
    ∃ move ∈ moves, other.dst = move.dst ∧ other.src = move.src ∧ (move.done = false → other.done = move.dst.isMem) := by
  rw [x64StoreMoves_moves] at member
  obtain ⟨move, found, rfl⟩ := List.mem_map.mp member
  refine ⟨move, found, ?_⟩
  split_ifs with toMem
  · exact ⟨rfl, rfl, fun _ => toMem.symm⟩
  · exact ⟨rfl, rfl, fun notDone => notDone.trans (Bool.eq_false_iff.mpr toMem).symm⟩

theorem map_dst_storeMoves (moves : List Move) : (x64StoreMoves moves).2.map Move.dst = moves.map Move.dst := by
  rw [x64StoreMoves_moves, List.map_map]
  apply List.map_congr_left
  intro move _
  simp only [Function.comp_apply]
  split_ifs <;> rfl

theorem reg_of_not_mem {place : MovePlace} (notMem : place.isMem = false) : ∃ reg, place = .reg reg := by
  cases place with
  | reg reg => exact ⟨reg, rfl⟩
  | mem base offset => cases notMem

theorem shape_of_movesApart (apart : MovesApart start moves) (framed : MovesFramed moves) :
    MoveShape (x64StoreMoves moves).2 := by
  refine ⟨?_, ?_, ?_, ?_, ?_⟩
  · rw [map_dst_storeMoves]
    exact apart.distinct
  · intro other member notDone
    obtain ⟨move, found, dst, -, done⟩ := mem_storeMoves member
    rw [dst]
    exact reg_of_not_mem ((done (apart.fresh move found)).symm.trans notDone)
  · intro other member reg toReg
    obtain ⟨move, found, dst, -, -⟩ := mem_storeMoves member
    have free := apart.dstScratch move found
    rw [dst] at toReg
    rwa [toReg] at free
  · intro other member base offset which
    obtain ⟨move, found, dst, src, -⟩ := mem_storeMoves member
    rw [dst, src] at which
    obtain ⟨gpr, free⟩ := framed.bases move found base offset which
    refine ⟨gpr, ?_, ?_⟩
    · rcases which with read | written
      · exact (apart.srcScratch move found _ read).1
      · have notScratch := (apart.dstScratch move found).1
        rwa [written] at notScratch
    · intro third member'
      obtain ⟨original, found', dst', -, -⟩ := mem_storeMoves member'
      rw [dst']
      exact free original found'
  · intro other member imm reg number toReg
    obtain ⟨move, found, dst, src, -⟩ := mem_storeMoves member
    exact framed.numbers move found imm reg (src.symm.trans number) (dst.symm.trans toReg)

/-- After the moves into memory, the others are underway. -/
theorem underway_of_stores {middle : X64MoveState} (apart : MovesApart start moves)
    (done : StoresDone start start moves middle) :
    Underway start middle.mem (goalOf start moves) (x64StoreMoves moves).2 middle := by
  refine ⟨?_, ?_, fun reg _ notR11 _ => ⟨done.regs reg notR11, done.upper reg notR11⟩, rfl⟩
  · intro other member isDone
    obtain ⟨move, found, dst, -, flag⟩ := mem_storeMoves member
    have toMem : move.dst.isMem = true := (flag (apart.fresh move found)).symm.trans isDone
    rw [dst, goalOf_dst apart.distinct found]
    cases place : move.dst with
    | reg reg =>
      rw [place] at toMem
      cases toMem
    | mem base offset =>
      have notScratch := (apart.dstScratch move found).1
      rw [place] at notScratch
      have here : middle.address base offset = start.address base offset := by
        rw [X64MoveState.address, X64MoveState.address, done.regs base notScratch]
      rw [X64MoveState.place, here]
      exact done.reached move found base offset place
  · intro other member notDone
    obtain ⟨move, found, dst, src, -⟩ := mem_storeMoves member
    rw [dst, src, goalOf_dst apart.distinct found]
    apply operand_same
    · exact fun place src => (apart.srcScratch move found place src).1
    · exact done.regs
    · intro base offset reads at' inside
      apply done.memory
      intro target member' base' offset' toMem both
      exact apart.sources target member' move found _ _ _ _ toMem reads at' both inside

theorem x64ParallelMove_allAtOnce (start : X64MoveState) (moves : List Move) (apart : MovesApart start moves)
    (framed : MovesFramed moves) :
    ∃ code, Gives (fun fuel => x64ParallelMove fuel moves) code ∧
      Runs X64MoveInst.exec code start (AllAtOnce start moves) := by
  obtain ⟨middle, ran, done⟩ := x64StoreMoves_runs apart framed (fun _ _ => rfl) (fun _ _ => rfl)
  have shape := shape_of_movesApart apart framed
  obtain ⟨code, gives, last, ran', finished, underway, all, dsts⟩ :=
    roundsFinish shape (underway_of_stores apart done)
  rw [map_dst_storeMoves] at dsts
  have target : ∀ move ∈ moves, ∃ other ∈ finished, other.dst = move.dst := by
    intro move member
    have inside : move.dst ∈ finished.map Move.dst := dsts ▸ List.mem_map.mpr ⟨move, member, rfl⟩
    exact List.mem_map.mp inside
  have origin : ∀ other ∈ finished, ∃ move ∈ moves, move.dst = other.dst := by
    intro other member
    have inside : other.dst ∈ moves.map Move.dst := dsts ▸ List.mem_map.mpr ⟨other, member, rfl⟩
    exact List.mem_map.mp inside
  refine ⟨(x64StoreMoves moves).1 ++ code, gives.map ((x64StoreMoves moves).1 ++ ·),
    Runs.append ⟨middle, ran, last, ran', ?_, ?_, ?_⟩⟩
  · intro move member
    obtain ⟨other, found, same⟩ := target move member
    rw [← goalOf_dst apart.distinct member, ← same]
    exact underway.reached other found (all other found)
  · intro reg free
    apply underway.others reg
    intro other member toReg
    obtain ⟨move, found, same⟩ := origin other member
    exact free move found (same.trans toReg)
  · intro at' outside
    rw [underway.mem_eq]
    exact done.memory at' outside

end Stores

/-- Two registers change places, and a number goes to the stack. -/
def swapMoves : List Move :=
  [{ dst := .reg .rcx, src := .place (.reg .rdx) }, { dst := .reg .rdx, src := .place (.reg .rcx) },
    { dst := .mem .rsp 32, src := .imm 7 }]

theorem x64ParallelMove_allAtOnce_swap : ∃ start code, Gives (fun fuel => x64ParallelMove fuel swapMoves) code ∧
    Runs X64MoveInst.exec code start (AllAtOnce start swapMoves) := by
  have apart : MovesApart { regs := fun _ => 0, upper := fun _ => 0, mem := fun _ => 0 } swapMoves :=
    ⟨by simp [swapMoves], by decide, by simp [swapMoves], by simp [swapMoves],
      by simp [swapMoves, MovePlace.register], by simp [swapMoves, MovePlace.register]⟩
  have framed : MovesFramed swapMoves := ⟨by simp [swapMoves, X64Reg.isXmm], by simp [swapMoves]⟩
  exact ⟨_, x64ParallelMove_allAtOnce _ _ apart framed⟩

/-- The frame pointer is moved, and a value read from the frame behind it. -/
def frameMoves : List Move :=
  [{ dst := .reg .rbp, src := .place (.reg .rax) }, { dst := .reg .rcx, src := .place (.mem .rbp (-8)) }]

/-- Every byte is the low byte of its address. -/
def frameStart : X64MoveState where
  regs := fun reg => if reg = .rax then 16 else 8
  upper := fun _ => 0
  mem := fun at' => at'.setWidth 8

/-- A move into a base register is not held back by the moves that read memory there. -/
theorem frameMoves_not_allAtOnce : MovesApart frameStart frameMoves ∧
    Gives (fun fuel => x64ParallelMove fuel frameMoves) [.mov .rbp .rax, .movLoad .rcx .rbp (-8)] ∧
    Runs X64MoveInst.exec [.mov .rbp .rax, .movLoad .rcx .rbp (-8)] frameStart fun last =>
      last.place (.reg .rcx) ≠ frameStart.operand (.place (.mem .rbp (-8))) := by
  refine ⟨?_, ⟨2, fun fuel le => ?_⟩, ?_⟩
  · exact ⟨by simp [frameMoves], by decide, by simp [frameMoves], by simp [frameMoves],
      by simp [frameMoves, MovePlace.register], by simp [frameMoves, MovePlace.register]⟩
  · obtain ⟨less, rfl⟩ : ∃ less, fuel = less + 2 := ⟨fuel - 2, by omega⟩
    rfl
  · have first : X64MoveInst.exec (.mov .rbp .rax) frameStart = some (frameStart.write .rbp 16 0) := rfl
    refine Runs.cons first (Runs.single rfl ?_)
    decide

end Saad
