import Saad.X64.Frame

/-! # Operand access

A spilled operand is loaded into a scratch register first, and a spilled destination is computed in a
scratch register and stored behind the instruction. The scratch registers are never allocated, so
loading an operand disturbs no other one (`use_ok`, `useTwo_ok`), and `def_ok` completes the code of
any instruction that leaves its result in the register of `x64Def`.
-/

namespace Saad

open General

/-- Reserved for scratch, division, shift counts and calls. -/
def x64Scratch : List X64Reg := [.rax, .rcx, .rdx, .r10, .r11]

/-- The register that holds the vreg, and the code that loads it into `scratch` if it is spilled. -/
def x64Use (x : X64Emitter) (vreg : Vreg) (scratch : X64Reg) : X64Reg × List X64Inst :=
  match x.ra.locations vreg with
  | .reg number => (.ofNumber number, [])
  | .spill slot => (scratch, [.load 8 scratch (.base .rbp (x64SpillOffset x slot))])
  | .none => (scratch, [])

/-- The register that an instruction writes the vreg to. `x64FinishDef` comes behind it. -/
def x64Def (x : X64Emitter) (vreg : Vreg) (scratch : X64Reg) : X64Reg :=
  match x.ra.locations vreg with
  | .reg number => .ofNumber number
  | _ => scratch

def x64FinishDef (x : X64Emitter) (vreg : Vreg) (reg : X64Reg) : List X64Inst :=
  match x.ra.locations vreg with
  | .spill slot => [.store 8 (.base .rbp (x64SpillOffset x slot)) reg]
  | _ => []

/-- A copy of the whole register. -/
def x64MoveReg (dst src : X64Reg) : List X64Inst := if dst = src then [] else [.mov 8 dst src]

namespace X64Emitter

variable (x : X64Emitter)

/-- The vreg is in an allocatable general register or in a spill slot of the frame. -/
def Located (vreg : Vreg) : Prop :=
  (∃ reg ∈ x64AllocatableGprs, x.ra.locations vreg = .reg reg.number) ∨
  ∃ slot < x.ra.spillSlotCount, x.ra.locations vreg = .spill slot

def spillAddress (state : X64State) (slot : ℕ) : BitVec 64 :=
  state.regs .rbp + BitVec.ofInt 64 (x64SpillOffset x slot)

/-- What the location of a vreg holds. -/
def contents (state : X64State) (vreg : Vreg) : BitVec 64 :=
  match x.ra.locations vreg with
  | .reg number => state.regs (.ofNumber number)
  | .spill slot => readMem state.mem (x.spillAddress state slot) 8
  | .none => 0

/-- The bytes of the spill slot of the vreg, if it is spilled. -/
def InSpill (state : X64State) (vreg : Vreg) (at' : BitVec 64) : Prop :=
  ∃ slot, x.ra.locations vreg = .spill slot ∧ Inside (x.spillAddress state slot) 8 at'

end X64Emitter

/-- Only the listed registers may differ. -/
structure Keeps (changed : List X64Reg) (before after : X64State) : Prop where
  regs : ∀ reg ∉ changed, after.regs reg = before.regs reg
  mem : after.mem = before.mem

namespace Keeps

variable {changed more : List X64Reg} {before after : X64State}

theorem refl (state : X64State) : Keeps changed state state := ⟨fun _ _ => rfl, rfl⟩

theorem trans {middle : X64State} (first : Keeps changed before middle) (second : Keeps changed middle after) :
    Keeps changed before after :=
  ⟨fun reg notMem => (second.regs reg notMem).trans (first.regs reg notMem),
    second.mem.trans first.mem⟩

theorem mono (keeps : Keeps changed before after) (subset : changed ⊆ more) :
    Keeps more before after :=
  ⟨fun reg notMem => keeps.regs reg fun mem => notMem (subset mem), keeps.mem⟩

theorem setReg (state : X64State) (reg : X64Reg) (value : BitVec 64) (mem : reg ∈ changed) :
    Keeps changed state (state.setReg reg value) :=
  ⟨fun _ notMem => X64State.setReg_regs_of_ne state _ fun same => notMem (same ▸ mem), rfl⟩

theorem setLow (state : X64State) {width : ℕ} (reg : X64Reg) (value : BitVec (8 * width))
    (mem : reg ∈ changed) : Keeps changed state (state.setLow width reg value) :=
  setReg state reg _ mem

theorem flags (keeps : Keeps changed before after) (flags : Option X64Flags) :
    Keeps changed before { after with flags := flags } := ⟨keeps.regs, keeps.mem⟩

end Keeps

/-- The code runs from the state to one with the property. -/
abbrev X64Runs (symbolAddress : List (BitVec 8) → BitVec 64) (code : List X64Inst) (state : X64State)
    (post : X64State → Prop) : Prop :=
  Runs (X64Inst.exec symbolAddress) code state post

section Access

variable {x : X64Emitter} {symbolAddress : List (BitVec 8) → BitVec 64} {vreg other : Vreg}
  {scratch : X64Reg} {state after : X64State}

/-- No reserved register is allocatable. -/
theorem allocatable_not_scratch :
    ∀ reg ∈ x64AllocatableGprs, reg ∉ x64Scratch ∧ reg ≠ .rbp := by decide

theorem contents_keeps (located : x.Located vreg) (keeps : Keeps x64Scratch state after) :
    x.contents after vreg = x.contents state vreg := by
  have frame : after.regs .rbp = state.regs .rbp := keeps.regs _ (by decide)
  unfold X64Emitter.contents X64Emitter.spillAddress
  rcases located with ⟨reg, pooled, at'⟩ | ⟨slot, -, at'⟩
  · simp only [at', X64Reg.ofNumber_number]
    exact keeps.regs reg (allocatable_not_scratch reg pooled).1
  · simp only [at', keeps.mem, frame]

variable (scratch) in
/-- The register of an operand: its own one, or the scratch register. -/
theorem mem_use (located : x.Located vreg) :
    (x64Use x vreg scratch).1 = scratch ∨ (x64Use x vreg scratch).1 ∈ x64AllocatableGprs := by
  unfold x64Use
  rcases located with ⟨reg, pooled, at'⟩ | ⟨slot, -, at'⟩
  · exact .inr (by simpa only [at', X64Reg.ofNumber_number] using pooled)
  · exact .inl (by simp only [at'])

variable (scratch) in
theorem mem_def (located : x.Located vreg) :
    x64Def x vreg scratch = scratch ∨ x64Def x vreg scratch ∈ x64AllocatableGprs := by
  unfold x64Def
  rcases located with ⟨reg, pooled, at'⟩ | ⟨slot, -, at'⟩
  · exact .inr (by simpa only [at', X64Reg.ofNumber_number] using pooled)
  · exact .inl (by simp only [at'])

/-- An operand is in its register, and nothing but the scratch register changed. -/
theorem use_ok (located : x.Located vreg) :
    X64Runs symbolAddress (x64Use x vreg scratch).2 state fun after =>
      after.regs (x64Use x vreg scratch).1 = x.contents state vreg ∧ Keeps [scratch] state after := by
  unfold x64Use X64Emitter.contents
  rcases located with ⟨reg, pooled, at'⟩ | ⟨slot, -, at'⟩
  · simp only [at']
    exact .nil ⟨rfl, .refl state⟩
  · simp only [at']
    refine .single rfl ⟨?_, .setLow state scratch _ List.mem_cons_self⟩
    rw [X64State.setLow_regs_self _ _ (by decide)]
    exact BitVec.setWidth_eq _

/-- Two operands with different scratch registers do not disturb each other. -/
theorem useTwo_ok (locatedA : x.Located vreg) (locatedB : x.Located other) :
    X64Runs symbolAddress ((x64Use x vreg .r10).2 ++ (x64Use x other .r11).2) state fun after =>
      after.regs (x64Use x vreg .r10).1 = x.contents state vreg ∧
      after.regs (x64Use x other .r11).1 = x.contents state other ∧
      Keeps [.r10, .r11] state after := by
  refine .append ((use_ok locatedA).mono fun middle first => ?_)
  refine (use_ok locatedB).mono fun after second => ?_
  have apart : (x64Use x vreg .r10).1 ≠ .r11 := by
    rcases mem_use .r10 locatedA with same | pooled
    · rw [same]
      decide
    · exact fun same => (allocatable_not_scratch _ pooled).1 (same ▸ by decide)
  refine ⟨?_, ?_, ?_⟩
  · rw [second.2.regs _ (by simpa using apart), first.1]
  · rw [second.1, contents_keeps locatedB (first.2.mono (by decide))]
  · exact (first.2.mono (by decide)).trans (second.2.mono (by decide))

/-- Operands in different locations than the destination are in different registers. -/
theorem def_ne_use (locatedD : x.Located vreg) (locatedB : x.Located other)
    (apart : x.ra.locations other ≠ x.ra.locations vreg) :
    x64Def x vreg .r10 ≠ (x64Use x other .r11).1 := by
  unfold x64Def x64Use
  rcases locatedD with ⟨regD, pooledD, atD⟩ | ⟨slotD, -, atD⟩ <;>
    rcases locatedB with ⟨regB, pooledB, atB⟩ | ⟨slotB, -, atB⟩
  · simp only [atD, atB, X64Reg.ofNumber_number]
    rintro rfl
    exact apart (atB.trans atD.symm)
  · simp only [atD, atB, X64Reg.ofNumber_number]
    exact fun same => (allocatable_not_scratch _ pooledD).1 (same ▸ by decide)
  · simp only [atD, atB, X64Reg.ofNumber_number]
    exact fun same => (allocatable_not_scratch _ pooledB).1 (same ▸ by decide)
  · simp only [atD, atB]
    decide

/-- What the code of an instruction did: the destination holds the value; other registers that are
not scratch and bytes outside of the destination's spill slot are as before. -/
structure Defined (x : X64Emitter) (vreg : Vreg) (value : BitVec 64 → Prop)
    (before after : X64State) : Prop where
  value : value (x.contents after vreg)
  regs : ∀ reg ∉ x64Scratch, x.ra.locations vreg ≠ .reg reg.number →
    after.regs reg = before.regs reg
  mem : ∀ at', ¬ x.InSpill before vreg at' → after.mem at' = before.mem at'

/-- Code that leaves the value in the register of the destination, followed by the store. -/
theorem def_ok {body : List X64Inst} {value : BitVec 64 → Prop} (located : x.Located vreg)
    (runs : X64Runs symbolAddress body state fun after =>
      value (after.regs (x64Def x vreg .r10)) ∧ Keeps (x64Def x vreg .r10 :: x64Scratch) state after) :
    X64Runs symbolAddress (body ++ x64FinishDef x vreg (x64Def x vreg .r10)) state
      (Defined x vreg value state) := by
  refine .append (runs.mono fun middle result => ?_)
  obtain ⟨holds, keeps⟩ := result
  rcases located with ⟨reg, pooled, at'⟩ | ⟨slot, -, at'⟩
  · simp only [x64Def, x64FinishDef, at', X64Reg.ofNumber_number] at holds keeps ⊢
    refine .nil ⟨by simpa only [X64Emitter.contents, at', X64Reg.ofNumber_number] using holds, ?_, ?_⟩
    · intro other unreserved elsewhere
      refine keeps.regs other ?_
      rw [List.mem_cons, not_or]
      exact ⟨fun same => elsewhere (same ▸ at'), unreserved⟩
    · exact fun _ _ => congrFun keeps.mem _
  · simp only [x64Def, x64FinishDef, at'] at holds keeps ⊢
    have kept : ∀ other ∉ x64Scratch, middle.regs other = state.regs other := by
      intro other unreserved
      refine keeps.regs other ?_
      rw [List.mem_cons, not_or]
      exact ⟨fun same => unreserved (same ▸ by decide), unreserved⟩
    have frame := kept .rbp (by decide)
    refine .single rfl ⟨?_, fun other unreserved _ => kept other unreserved, ?_⟩
    · simp only [X64Emitter.contents, at', X64Emitter.spillAddress]
      rw [readMem_writeMem _ (by decide)]
      simpa only [X64State.low, BitVec.setWidth_eq] using holds
    · intro address outside
      refine (writeMem_of_outside ?_).trans (congrFun keeps.mem _)
      rw [frame]
      exact fun inside => outside ⟨slot, at', inside⟩

end Access

/-! ## What the frame keeps apart -/

section Apart

variable {x : X64Emitter} {vreg : Vreg} {value : BitVec 64 → Prop} {before after : X64State}

theorem Defined.frame (defined : Defined x vreg value before after) (located : x.Located vreg) :
    after.regs .rbp = before.regs .rbp := by
  refine defined.regs _ (by decide) ?_
  rcases located with ⟨reg, pooled, at'⟩ | ⟨own, -, at'⟩
  · rw [at']
    intro same
    obtain rfl := X64Reg.number_injective (Location.reg.inj same)
    exact (allocatable_not_scratch _ pooled).2 rfl
  · simp [at']

theorem spill_lt (located : x.Located vreg) {slot : ℕ} (owned : x.ra.locations vreg = .spill slot) :
    slot < x.ra.spillSlotCount := by
  rcases located with ⟨reg, -, at'⟩ | ⟨own, bound, at'⟩
  · exact absurd (owned.symm.trans at') (by simp)
  · cases owned.symm.trans at'
    exact bound

/-- The other spill slots hold what they held. -/
theorem Defined.other_spill (defined : Defined x vreg value before after)
    (located : x.Located vreg) {slot : ℕ} (inFrame : slot < x.ra.spillSlotCount) (other : x.ra.locations vreg ≠ .spill slot) :
    readMem after.mem (x.spillAddress after slot) 8 =
      readMem before.mem (x.spillAddress before slot) 8 := by
  simp only [X64Emitter.spillAddress, defined.frame located]
  refine readMem_congr fun at' inside => defined.mem at' ?_
  rintro ⟨own, owned, hit⟩
  have ne : own ≠ slot := by
    rintro rfl
    exact other owned
  have ownInFrame := spill_lt located owned
  have size := (spillDepth_le (x := x)).trans_lt x.fits
  refine not_inside_of_apart ?_ ?_ ?_ ?_ ?_ inside hit <;>
    simp only [spillOffset_eq] <;> omega

/-- The slots of the program hold what they held. -/
theorem Defined.slot (defined : Defined x vreg value before after)
    (located : x.Located vreg) {i : ℕ} {slot : IrSlot} {offset : ℤ} (atI : x.func.slots[i]? = some slot) (placed : x.frame.slotOffsets[i]? = some offset)
    {at' : BitVec 64} (inside : Inside (before.regs .rbp + BitVec.ofInt 64 offset) slot.size at') :
    after.mem at' = before.mem at' := by
  refine defined.mem at' ?_
  rintro ⟨own, owned, hit⟩
  have ownInFrame := spill_lt located owned
  have size := (spillDepth_le (x := x)).trans_lt x.fits
  have bounds := slotOffset_bounds atI placed
  have here := spillOffset_eq (x := x) own
  refine not_inside_of_apart ?_ ?_ ?_ ?_ ?_ inside hit <;> omega

end Apart

end Saad
