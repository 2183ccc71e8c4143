import Saad.X64.EmitCorrect

/-! # Every integer instruction

The code of each integer, pointer, load, store, shift, compare and conversion instruction that the
verifier accepts is correct for every placement of its vregs, as long as the text of the address of
a global fits the buffer of the emitter (`emitsCorrectly_iff`).
-/

namespace Saad

open General X64State

/-- Where the slots and the globals of a function are while it runs. -/
def X64Emitter.places (x : X64Emitter) (symbolAddress : List (BitVec 8) → BitVec 64)
    (state : X64State) : IrPlaces where
  slot i := state.regs .rbp + BitVec.ofInt 64 (x.frame.slotOffsets.getD i 0)
  global g := symbolAddress (x64Symbol x g)

/-- The locations hold the values in the low bits of their types. -/
def X64Emitter.Holds (x : X64Emitter) (state : X64State) (vals : Vreg → BitVec 64)
    (vregs : List Vreg) : Prop :=
  ∀ v ∈ vregs, (x.contents state v).setWidth (irTypeBits (irVregType x.func (some v))) =
    (vals v).setWidth (irTypeBits (irVregType x.func (some v)))

/-- The spill slots of other vregs and the IR slots are as before. -/
structure KeepsFrame (x : X64Emitter) (vreg : Vreg) (before after : X64State) : Prop where
  spill : ∀ slot < x.ra.spillSlotCount, x.ra.locations vreg ≠ .spill slot →
    readMem after.mem (x.spillAddress after slot) 8 =
      readMem before.mem (x.spillAddress before slot) 8
  slot : ∀ (i : ℕ) (slot : IrSlot) (offset : ℤ), x.func.slots[i]? = some slot →
    x.frame.slotOffsets[i]? = some offset →
    ∀ at', Inside (before.regs .rbp + BitVec.ofInt 64 offset) slot.size at' →
      after.mem at' = before.mem at'

/-- The code leaves the result of the instruction in its place and changes nothing else. -/
def EmitsCorrectly (x : X64Emitter) (inst : IrInst) : Prop :=
  ∃ code, x64EmitInst x inst = some code ∧
    ∀ (symbolAddress : List (BitVec 8) → BitVec 64) (state : X64State) (vals : Vreg → BitVec 64),
      x.Holds state vals (irInstUses inst) →
      if inst.op = .store then
        X64Runs symbolAddress code state fun after =>
          after.mem = irStore (x.places symbolAddress state) state.mem vals inst ∧
          ∀ reg ∉ x64Scratch, after.regs reg = state.regs reg
      else ∀ result, irEval x.func (x.places symbolAddress state) state.mem vals inst = some result →
        X64Runs symbolAddress code state fun after =>
          Defined x (vregOf inst.dst) (fun value =>
            value.setWidth (irTypeBits (irResultType inst)) =
              result.setWidth (irTypeBits (irResultType inst))) state after ∧
          KeepsFrame x (vregOf inst.dst) state after

/-- The text of the address of a global fits the buffer that it is written to. -/
def AddressFits (x : X64Emitter) (inst : IrInst) : Prop :=
  (inst.op = .load ∨ inst.op = .store) → inst.addr.kind = .global →
    (x64RelText x inst.addr.base inst.addr.offset).length < 128

/-! ## What the verifier knows about the operands -/

section Operands

variable {x : X64Emitter} {inst : IrInst} {state : X64State} {vals : Vreg → BitVec 64}
  {symbolAddress : List (BitVec 8) → BitVec 64}

/-- An operand that the verifier has checked: it is read, it has a location, and the location holds
its value at the width of the type. -/
structure OperandOk (x : X64Emitter) (state : X64State) (vals : Vreg → BitVec 64) (type : IrType)
    (vreg : Option Vreg) : Prop where
  located : x.Located (vregOf vreg)
  type_eq : irVregType x.func vreg = type
  holds : (x.contents state (vregOf vreg)).setWidth (irTypeBits type) = irOperand vals type vreg

theorem operandOk_of_verify {vreg : Option Vreg} {type : IrType} {what : String}
    (accepted : irVerifyOperand x.func vreg type what = []) (typed : type ≠ .void)
    (located : ∀ v, vreg = some v → x.Located v)
    (holds : ∀ v, vreg = some v →
      (x.contents state v).setWidth (irTypeBits (irVregType x.func (some v))) =
        (vals v).setWidth (irTypeBits (irVregType x.func (some v)))) :
    OperandOk x state vals type vreg := by
  cases vreg with
  | none => simp [irVerifyOperand] at accepted
  | some v =>
    simp only [irVerifyOperand] at accepted
    split_ifs at accepted with above wrong
    have same : irVregType x.func (some v) = type := by
      by_contra other
      exact wrong ⟨typed, other⟩
    exact ⟨located v rfl, same, same ▸ holds v rfl⟩

theorem exists_of_verify {vreg : Option Vreg} {what : String}
    (accepted : irVerifyOperand x.func vreg .void what = []) : ∃ v, vreg = some v := by
  cases vreg with
  | none => simp [irVerifyOperand] at accepted
  | some v => exact ⟨v, rfl⟩

theorem Defined.keepsFrame {vreg : Vreg} {value : BitVec 64 → Prop} {before after : X64State}
    (defined : Defined x vreg value before after) (located : x.Located vreg) :
    KeepsFrame x vreg before after where
  spill _ inFrame other := defined.other_spill located inFrame other
  slot _ _ _ atI placed _ inside := defined.slot located atI placed inside

/-- An instruction as the claims of the backend take it: the verifier accepts it, and its vregs are
placed with the destination apart from the operands. -/
structure Placement (x : X64Emitter) (inst : IrInst) : Prop where
  accepted : irVerifyInst x.globals x.func inst = []
  integer : irIsIntegerInst x.func inst = true
  uses : ∀ v ∈ irInstUses inst, x.Located v
  dst : ∀ v, inst.dst = some v → x.Located v
  apart : ∀ d, inst.dst = some d → ∀ v ∈ irInstUses inst, x.ra.locations v ≠ x.ra.locations d

/-- An instruction whose vregs are all in registers. -/
theorem placement_of_registers {d : Vreg} (accepted : irVerifyInst x.globals x.func inst = [])
    (integer : irIsIntegerInst x.func inst = true) (dst : inst.dst = some d)
    (registers : ∀ v ∈ d :: irInstUses inst, ∃ reg ∈ x64AllocatableGprs, x.ra.locations v = .reg reg.number)
    (apart : ∀ v ∈ irInstUses inst, x.ra.locations v ≠ x.ra.locations d) : Placement x inst where
  accepted
  integer
  uses v used := .inl (registers v (List.mem_cons_of_mem _ used))
  dst v same := Option.some.inj (dst.symm.trans same) ▸ .inl (registers d List.mem_cons_self)
  apart v same := Option.some.inj (dst.symm.trans same) ▸ apart

theorem mem_uses_a {v : Vreg} (same : inst.a = some v) : v ∈ irInstUses inst := by
  simp [irInstUses, same]

theorem mem_uses_b {v : Vreg} (same : inst.b = some v) : v ∈ irInstUses inst := by
  simp [irInstUses, same]

theorem mem_uses_base (access : inst.op = .load ∨ inst.op = .store)
    (kind : inst.addr.kind = .vreg) : inst.addr.base ∈ irInstUses inst := by
  simp [irInstUses, access, kind]

namespace Placement

variable (placed : Placement x inst) (holds : x.Holds state vals (irInstUses inst))

include placed

/-- All but stores have a destination. -/
theorem exists_dst (notStore : inst.op ≠ .store) : ∃ d, inst.dst = some d := by
  cases dst : inst.dst with
  | some d => exact ⟨d, rfl⟩
  | none =>
    have integer := placed.integer
    refine absurd dst ((irVerifyInst_eq_nil placed.accepted).2 ?_)
    cases op : inst.op <;> simp_all [irIsIntegerInst]

theorem located_dst (notStore : inst.op ≠ .store) : x.Located (vregOf inst.dst) := by
  obtain ⟨d, same⟩ := placed.exists_dst notStore
  rw [same]
  exact placed.dst d same

theorem apart_dst (notStore : inst.op ≠ .store) {v : Vreg} (used : v ∈ irInstUses inst) :
    x.ra.locations v ≠ x.ra.locations (vregOf inst.dst) := by
  obtain ⟨d, same⟩ := placed.exists_dst notStore
  rw [same]
  exact placed.apart d same v used

theorem accepted_operation : irVerifyOperation x.globals x.func inst = [] :=
  (irVerifyInst_eq_nil placed.accepted).1

include holds in
theorem operandA {type : IrType} {what : String} (typed : type ≠ .void)
    (accepted : irVerifyOperand x.func inst.a type what = []) : OperandOk x state vals type inst.a :=
  operandOk_of_verify accepted typed (fun _ same => placed.uses _ (mem_uses_a same))
    fun v same => holds v (mem_uses_a same)

include holds in
theorem operandB {type : IrType} {what : String} (typed : type ≠ .void)
    (accepted : irVerifyOperand x.func inst.b type what = []) : OperandOk x state vals type inst.b :=
  operandOk_of_verify accepted typed (fun _ same => placed.uses _ (mem_uses_b same))
    fun v same => holds v (mem_uses_b same)

end Placement

end Operands

/-! ## One case for each operation -/

section Cases

variable {x : X64Emitter} {inst : IrInst} {state : X64State} {vals : Vreg → BitVec 64}
  {symbolAddress : List (BitVec 8) → BitVec 64}

/-- The code leaves every value that the IR gives in the destination. -/
def Computes (x : X64Emitter) (symbolAddress : List (BitVec 8) → BitVec 64) (state : X64State)
    (vals : Vreg → BitVec 64) (inst : IrInst) (code : List X64Inst) : Prop :=
  ∀ result, irEval x.func (x.places symbolAddress state) state.mem vals inst = some result →
    X64Runs symbolAddress code state (Defined x (vregOf inst.dst) (fun value =>
      value.setWidth (irTypeBits (irResultType inst)) =
        result.setWidth (irTypeBits (irResultType inst))) state)

theorem ne_void_of_integer {type : IrType} (integer : irTypeIsIntOrPtr type = true) :
    type ≠ .void := by
  rintro rfl
  exact absurd integer (by decide)

theorem irTypeIsIntOrPtr_of_int {type : IrType} (integer : irTypeIsInt type = true) :
    irTypeIsIntOrPtr type = true := by
  simp [irTypeIsIntOrPtr, integer]

theorem bits_le (type : IrType) : irTypeBits type ≤ 64 := by cases type <;> decide

/-- Widening to 64 bits does not change the low bits. -/
theorem setWidth_widen {n : ℕ} (value : BitVec n) (small : n ≤ 64) :
    (value.setWidth 64).setWidth n = value :=
  (BitVec.setWidth_setWidth_of_le _ small).trans (BitVec.setWidth_eq _)

/-- What the verifier knows about an operation on two integers. -/
structure BinaryOk (x : X64Emitter) (state : X64State) (vals : Vreg → BitVec 64) (inst : IrInst) :
    Prop where
  integer : irTypeIsIntOrPtr inst.type = true
  a : OperandOk x state vals inst.type inst.a
  b : OperandOk x state vals inst.type inst.b
  located : x.Located (vregOf inst.dst)
  apart : x.ra.locations (vregOf inst.b) ≠ x.ra.locations (vregOf inst.dst)
  resultType : irResultType inst = inst.type
  eval : ∀ places mem, irEval x.func places mem vals inst =
    (irBinary inst.op (irOperand vals inst.type inst.a) (irOperand vals inst.type inst.b)).map
      (BitVec.setWidth 64)

def irBinaryOps : List IrOp :=
  [.add, .sub, .mul, .sdiv, .udiv, .srem, .urem, .and, .or, .xor, .shl, .lshr, .ashr]

variable (placed : Placement x inst) (holds : x.Holds state vals (irInstUses inst))

include placed holds

theorem binaryOk (isBinary : inst.op ∈ irBinaryOps) : BinaryOk x state vals inst := by
  have checks : irTypeIsInt inst.type = true ∧
      irVerifyOperand x.func inst.a inst.type "left" = [] ∧
      irVerifyOperand x.func inst.b inst.type "right" = [] := by
    have accepted := placed.accepted_operation
    cases op : inst.op <;> first
      | exact absurd isBinary (by rw [op]; decide)
      | simp only [irVerifyOperation, op, List.append_eq_nil_iff, irVerifyCheck_eq_nil] at accepted
        exact ⟨accepted.1.1, accepted.1.2, accepted.2⟩
  obtain ⟨isInt, checkA, checkB⟩ := checks
  have integer := irTypeIsIntOrPtr_of_int isInt
  have notStore : inst.op ≠ .store := fun isStore => absurd isBinary (by rw [isStore]; decide)
  obtain ⟨b, sameB⟩ : ∃ b, inst.b = some b := by
    cases found : inst.b with
    | none => simp [found, irVerifyOperand] at checkB
    | some b => exact ⟨b, rfl⟩
  refine
    { integer
      a := placed.operandA holds (ne_void_of_integer integer) checkA
      b := placed.operandB holds (ne_void_of_integer integer) checkB
      located := placed.located_dst notStore
      apart := by
        rw [sameB]
        exact placed.apart_dst notStore (mem_uses_b sameB)
      resultType := if_neg fun isIcmp => absurd isBinary (by rw [isIcmp]; decide)
      eval := fun places mem => ?_ }
  cases op : inst.op <;> first
    | exact absurd isBinary (by rw [op]; decide)
    | simp only [irEval, op]

theorem computes_binop {op : X64Alu}
    (isOp : (inst.op = .add ∧ op = .add) ∨ (inst.op = .sub ∧ op = .sub) ∨
      (inst.op = .mul ∧ op = .imul) ∨ (inst.op = .and ∧ op = .and) ∨ (inst.op = .or ∧ op = .or) ∨
      (inst.op = .xor ∧ op = .xor)) :
    Computes x symbolAddress state vals inst (x64EmitIntBinop x op inst) := by
  intro result evaluates
  have ok := binaryOk placed holds (by
    rcases isOp with ⟨is, -⟩ | ⟨is, -⟩ | ⟨is, -⟩ | ⟨is, -⟩ | ⟨is, -⟩ | ⟨is, -⟩ <;> rw [is] <;> decide)
  have same : result = (op.eval (irOperand vals inst.type inst.a)
      (irOperand vals inst.type inst.b)).setWidth 64 := by
    rw [ok.eval] at evaluates
    rcases isOp with ⟨is, rfl⟩ | ⟨is, rfl⟩ | ⟨is, rfl⟩ | ⟨is, rfl⟩ | ⟨is, rfl⟩ | ⟨is, rfl⟩ <;>
    · rw [is] at evaluates
      exact (Option.some.inj evaluates).symm
  refine (intBinop_ok ok.located ok.a.located ok.b.located ok.apart op
    (isWidth_irTypeSize ok.integer) (x64Width_eq ok.integer)).mono fun after defined =>
      defined.mono fun value same' => ?_
  rw [ok.resultType, same, setWidth_widen _ (bits_le _), ← ok.a.holds, ← ok.b.holds]
  exact same'

theorem computes_divide
    (isOp : inst.op = .sdiv ∨ inst.op = .udiv ∨ inst.op = .srem ∨ inst.op = .urem) :
    Computes x symbolAddress state vals inst (x64EmitDivide x inst) := by
  intro result evaluates
  have ok := binaryOk placed holds (by
    rcases isOp with is | is | is | is <;> rw [is] <;> decide)
  rw [ok.eval, Option.map_eq_some_iff] at evaluates
  obtain ⟨quotient, defined, rfl⟩ := evaluates
  rw [← ok.a.holds, ← ok.b.holds] at defined
  refine (divide_ok ok.located ok.a.located ok.b.located (isWidth_irTypeSize ok.integer)
    (x64Width_eq ok.integer) isOp defined).mono fun after done => done.mono fun value same => ?_
  rw [ok.resultType, setWidth_widen _ (bits_le _)]
  exact same

theorem computes_shift (isOp : inst.op = .shl ∨ inst.op = .lshr ∨ inst.op = .ashr) :
    Computes x symbolAddress state vals inst (x64EmitShift x inst) := by
  intro result evaluates
  have ok := binaryOk placed holds (by rcases isOp with is | is | is <;> rw [is] <;> decide)
  rw [ok.eval, Option.map_eq_some_iff] at evaluates
  obtain ⟨shifted, defined, rfl⟩ := evaluates
  obtain ⟨inWidth, same⟩ : (irOperand vals inst.type inst.b).toNat < irTypeBits inst.type ∧
      shifted = (x64ShiftOpOf inst.op).shiftBy (irOperand vals inst.type inst.a)
        (irOperand vals inst.type inst.b).toNat := by
    rcases isOp with is | is | is <;>
    · rw [is] at defined ⊢
      simp only [irBinary] at defined
      split_ifs at defined with inWidth
      exact ⟨inWidth, (Option.some.inj defined).symm⟩
  refine (shift_ok ok.located ok.a.located ok.b.located (isWidth_irTypeSize ok.integer)
    (x64Width_eq ok.integer) isOp).mono fun after done => done.mono fun value same' => ?_
  rw [ok.resultType, setWidth_widen _ (bits_le _), same, ← ok.a.holds, ← ok.b.holds]
  rw [← ok.b.holds] at inWidth
  have count : ((x.contents state (vregOf inst.b)).setWidth (8 * irTypeSize inst.type)).toNat %
      (if irTypeSize inst.type = 8 then 64 else 32) =
        ((x.contents state (vregOf inst.b)).setWidth (irTypeBits inst.type)).toNat := by
    refine Nat.mod_eq_of_lt (inWidth.trans_le ?_)
    rcases isWidth_irTypeSize ok.integer with size | size | size | size <;> simp [irTypeBits, size]
  rw [← count]
  exact same'

theorem computes_unary {op : X64Unary}
    (isOp : (inst.op = .neg ∧ op = .neg) ∨ (inst.op = .not ∧ op = .not)) :
    Computes x symbolAddress state vals inst (x64EmitUnary x op inst) := by
  intro result evaluates
  have checks : irTypeIsInt inst.type = true ∧
      irVerifyOperand x.func inst.a inst.type "operand" = [] := by
    have accepted := placed.accepted_operation
    rcases isOp with ⟨is, -⟩ | ⟨is, -⟩ <;>
    · simp only [irVerifyOperation, is, List.append_eq_nil_iff, irVerifyCheck_eq_nil] at accepted
      exact accepted
  obtain ⟨isInt, checkA⟩ := checks
  have integer := irTypeIsIntOrPtr_of_int isInt
  have okA := placed.operandA holds (ne_void_of_integer integer) checkA
  have notStore : inst.op ≠ .store := by
    rcases isOp with ⟨is, -⟩ | ⟨is, -⟩ <;> simp [is]
  have same : result = (op.eval (irOperand vals inst.type inst.a)).setWidth 64 := by
    rcases isOp with ⟨is, rfl⟩ | ⟨is, rfl⟩ <;>
    · simp only [irEval, is, Option.some.injEq] at evaluates
      exact evaluates.symm
  have resultType : irResultType inst = inst.type := by
    rcases isOp with ⟨is, -⟩ | ⟨is, -⟩ <;> simp [irResultType, is]
  refine (unary_ok (placed.located_dst notStore) okA.located op (isWidth_irTypeSize integer)
    (x64Width_eq integer)).mono fun after defined => defined.mono fun value same' => ?_
  rw [resultType, same, setWidth_widen _ (bits_le _), ← okA.holds]
  exact same'

theorem computes_icmp (is : inst.op = .icmp) :
    Computes x symbolAddress state vals inst (x64EmitIcmp x inst) := by
  intro result evaluates
  have accepted := placed.accepted_operation
  simp only [irVerifyOperation, is, List.append_eq_nil_iff, irVerifyCheck_eq_nil] at accepted
  obtain ⟨⟨⟨⟨integerCmp, integer⟩, -⟩, checkA⟩, checkB⟩ := accepted
  have okA := placed.operandA holds (ne_void_of_integer integer) checkA
  have okB := placed.operandB holds (ne_void_of_integer integer) checkB
  have notStore : inst.op ≠ .store := by simp [is]
  simp only [irEval, is, Option.some.injEq] at evaluates
  refine (icmp_ok (placed.located_dst notStore) okA.located okB.located (x64Width_eq integer)
    integerCmp).mono fun after defined => defined.mono fun value same => ?_
  have resultType : irResultType inst = .i8 := if_pos is
  rw [resultType, ← evaluates, ← okA.holds, ← okB.holds]
  have widths : ∀ c : Bool, (if c then (1 : BitVec 8) else 0) =
      (if c then (1 : BitVec 64) else 0).setWidth (irTypeBits .i8) := by
    intro c
    cases c <;> rfl
  exact same.trans (widths _)

omit holds in
theorem computes_const (is : inst.op = .const) :
    Computes x symbolAddress state vals inst (x64EmitConst x inst) := by
  intro result evaluates
  have accepted := placed.accepted_operation
  simp only [irVerifyOperation, is, irVerifyCheck_eq_nil] at accepted
  simp only [irEval, is, Option.some.injEq] at evaluates
  have resultType : irResultType inst = inst.type := by simp [irResultType, is]
  rw [resultType, ← evaluates]
  exact const_ok (placed.located_dst (by simp [is])) (isWidth_irTypeSize accepted)
    (x64Width_eq accepted)

theorem computes_copy (is : inst.op = .copy) :
    Computes x symbolAddress state vals inst (x64EmitCopy x inst) := by
  intro result evaluates
  have accepted := placed.accepted_operation
  simp only [irVerifyOperation, is] at accepted
  have integer : irTypeIsIntOrPtr inst.type = true := by
    simpa only [irIsIntegerInst, is] using placed.integer
  have okA := placed.operandA holds (ne_void_of_integer integer) accepted
  simp only [irEval, is, Option.some.injEq] at evaluates
  have resultType : irResultType inst = inst.type := by simp [irResultType, is]
  refine (copy_ok (placed.located_dst (by simp [is])) okA.located).mono fun after defined =>
    defined.mono fun value same => ?_
  rw [resultType, ← evaluates, setWidth_widen _ (bits_le _), same, okA.holds]

theorem computes_ptrAdd (is : inst.op = .ptrAdd) :
    Computes x symbolAddress state vals inst (x64EmitPtrAdd x inst) := by
  intro result evaluates
  have accepted := placed.accepted_operation
  simp only [irVerifyOperation, is, List.append_eq_nil_iff, irVerifyCheck_eq_nil] at accepted
  obtain ⟨⟨isPtr, checkA⟩, checkB⟩ := accepted
  have okA := placed.operandA holds (by decide) checkA
  have okB := placed.operandB holds (by decide) checkB
  have holdsA : x.contents state (vregOf inst.a) = vals (vregOf inst.a) := by
    simpa [irOperand, irTypeBits, irTypeSize] using okA.holds
  have holdsB : x.contents state (vregOf inst.b) = vals (vregOf inst.b) := by
    simpa [irOperand, irTypeBits, irTypeSize] using okB.holds
  simp only [irEval, is, Option.some.injEq] at evaluates
  refine (ptrAdd_ok (placed.located_dst (by simp [is])) okA.located okB.located).mono
    fun after defined => defined.mono fun value same => ?_
  rw [same, holdsA, holdsB, evaluates]

/-- The operand of a conversion, at its own type. -/
theorem operand_conversion
    (isOp : inst.op = .sext ∨ inst.op = .zext ∨ inst.op = .trunc ∨ inst.op = .bitcast) :
    x.Located (vregOf inst.a) ∧
      (x.contents state (vregOf inst.a)).setWidth (irTypeBits (irVregType x.func inst.a)) =
        irOperand vals (irVregType x.func inst.a) inst.a ∧
      irConversionOk inst.op (irVregType x.func inst.a) inst.type = true := by
  have checks : irVerifyOperand x.func inst.a .void "source" = [] ∧
      irConversionOk inst.op (irVregType x.func inst.a) inst.type = true := by
    have accepted := placed.accepted_operation
    rcases isOp with is | is | is | is <;>
    · simp only [irVerifyOperation, is, List.append_eq_nil_iff, irVerifyCheck_eq_nil] at accepted
      rwa [is]
  obtain ⟨a, same⟩ := exists_of_verify checks.1
  refine ⟨?_, ?_, checks.2⟩
  · rw [same]
    exact placed.uses a (mem_uses_a same)
  · rw [same]
    exact holds a (mem_uses_a same)

theorem computes_extend (isOp : inst.op = .sext ∨ inst.op = .zext) :
    Computes x symbolAddress state vals inst (x64EmitConversion x inst) := by
  intro result evaluates
  obtain ⟨locatedA, holdsA, converts⟩ := operand_conversion placed holds
    (isOp.elim .inl fun is => .inr (.inl is))
  have ok : irTypeIsInt (irVregType x.func inst.a) = true ∧ irTypeIsInt inst.type = true ∧
      irTypeSize (irVregType x.func inst.a) < irTypeSize inst.type := by
    rcases isOp with is | is <;>
    · simp only [irConversionOk, is, Bool.and_eq_true, decide_eq_true_eq] at converts
      exact ⟨converts.1.1, converts.1.2, converts.2⟩
  obtain ⟨isIntA, isInt, wider⟩ := ok
  have integerA := irTypeIsIntOrPtr_of_int isIntA
  have integer := irTypeIsIntOrPtr_of_int isInt
  have locatedD := placed.located_dst (by rcases isOp with is | is <;> simp [is])
  have resultType : irResultType inst = inst.type := by
    rcases isOp with is | is <;> simp [irResultType, is]
  rw [resultType]
  rcases isOp with is | is <;> simp only [irEval, is, Option.some.injEq] at evaluates
  · rw [← evaluates, setWidth_widen _ (bits_le _), ← holdsA]
    exact sext_ok locatedD locatedA is (isWidth_irTypeSize integer) (x64Width_eq integer)
      (x64Width_eq integerA) wider
  · rw [← evaluates, setWidth_widen _ (bits_le _), ← holdsA]
    exact zext_ok locatedD locatedA is (isWidth_irTypeSize integerA) (isWidth_irTypeSize integer)
      (x64Width_eq integerA) wider

theorem computes_trunc (is : inst.op = .trunc) :
    Computes x symbolAddress state vals inst (x64EmitConversion x inst) := by
  intro result evaluates
  obtain ⟨locatedA, holdsA, converts⟩ := operand_conversion placed holds (.inr (.inr (.inl is)))
  simp only [irConversionOk, is, Bool.and_eq_true, decide_eq_true_eq] at converts
  obtain ⟨⟨isIntA, isInt⟩, narrower⟩ := converts
  have integerA := irTypeIsIntOrPtr_of_int isIntA
  have integer := irTypeIsIntOrPtr_of_int isInt
  have resultType : irResultType inst = inst.type := by simp [irResultType, is]
  simp only [irEval, is, Option.some.injEq] at evaluates
  rw [resultType, ← evaluates, setWidth_widen _ (bits_le _), ← holdsA,
    BitVec.setWidth_setWidth_of_le _ (by unfold irTypeBits; omega)]
  exact trunc_ok (placed.located_dst (by simp [is])) locatedA is (isWidth_irTypeSize integerA)
    (isWidth_irTypeSize integer) narrower

theorem computes_bitcast (is : inst.op = .bitcast) :
    Computes x symbolAddress state vals inst (x64EmitConversion x inst) := by
  intro result evaluates
  obtain ⟨locatedA, holdsA, converts⟩ :=
    operand_conversion placed holds (.inr (.inr (.inr is)))
  simp only [irConversionOk, is, Bool.and_eq_true, beq_iff_eq, bne_iff_ne] at converts
  have resultType : irResultType inst = inst.type := by simp [irResultType, is]
  simp only [irEval, is, Option.some.injEq] at evaluates
  refine (bitcast_ok (placed.located_dst (by simp [is])) locatedA is).mono fun after defined =>
    defined.mono fun value same => ?_
  have sameBits : irTypeBits (irVregType x.func inst.a) = irTypeBits inst.type := by
    rw [irTypeBits, irTypeBits, converts.1]
  rw [resultType, ← evaluates, setWidth_widen _ (bits_le _), ← same]
  rw [irOperand, sameBits] at holdsA
  exact holdsA

omit holds in
theorem computes_slotAddr (is : inst.op = .slotAddr) :
    Computes x symbolAddress state vals inst
      (x64EmitAddr x inst (.base .rbp (x.frame.slotOffsets.getD inst.imm.toNat 0))) := by
  intro result evaluates
  simp only [irEval, is, Option.some.injEq] at evaluates
  refine (addr_ok (placed.located_dst (by simp [is])) rfl).mono fun after defined =>
    defined.mono fun value same => ?_
  rw [same, ← evaluates]
  rfl

omit holds in
theorem computes_globalAddr (is : inst.op = .globalAddr) :
    Computes x symbolAddress state vals inst
      (x64EmitAddr x inst (.rel (x64Symbol x inst.imm.toNat) 0)) := by
  intro result evaluates
  simp only [irEval, is, Option.some.injEq] at evaluates
  refine (addr_ok (placed.located_dst (by simp [is])) rfl).mono fun after defined =>
    defined.mono fun value same => ?_
  have zero : symbolAddress (x64Symbol x inst.imm.toNat) + BitVec.ofInt 64 0 =
      symbolAddress (x64Symbol x inst.imm.toNat) := BitVec.add_zero _
  rw [same, ← evaluates, zero]
  rfl

/-- The memory operand leads to the address that the IR gives. -/
theorem address_runs {before : X64State} (access : inst.op = .load ∨ inst.op = .store)
    (fits : AddressFits x inst) (frame : before.regs .rbp = state.regs .rbp)
    (kept : ∀ v, x.Located v → x.contents before v = x.contents state v) :
    X64Runs symbolAddress (x64Address x inst.addr .r11).2 before fun after =>
      (x64Address x inst.addr .r11).1.address symbolAddress after =
        some (irAddress (x.places symbolAddress state) vals inst.addr) ∧
      Keeps [.r11] before after := by
  have checked : irVerifyAddr x.globals x.func inst.addr = [] := by
    have accepted := placed.accepted_operation
    rcases access with is | is
    · simp only [irVerifyOperation, is, List.append_eq_nil_iff] at accepted
      exact accepted.2
    · simp only [irVerifyOperation, is, List.append_eq_nil_iff] at accepted
      exact accepted.2
  cases kind : inst.addr.kind with
  | none => simp [irVerifyAddr, kind] at checked
  | slot =>
    simp only [x64Address, kind, irAddress]
    refine .nil ⟨?_, .refl before⟩
    rw [X64Mem.address, frame, BitVec.ofInt_add, ← BitVec.add_assoc]
    rfl
  | global =>
    simp only [x64Address, kind, irAddress, if_pos (fits access kind)]
    exact .nil ⟨rfl, .refl before⟩
  | vreg =>
    simp only [irVerifyAddr, kind] at checked
    have used := mem_uses_base access kind
    have ok : OperandOk x state vals .ptr (some inst.addr.base) :=
      operandOk_of_verify checked (by decide)
        (by rintro _ ⟨⟩; exact placed.uses _ used) (by rintro _ ⟨⟩; exact holds _ used)
    have base : x.contents state inst.addr.base = vals inst.addr.base := by
      simpa [irOperand, irTypeBits, irTypeSize, vregOf] using ok.holds
    simp only [x64Address, kind, irAddress]
    have located : x.Located inst.addr.base := ok.located
    refine (use_ok located).mono fun after loaded => ⟨?_, loaded.2⟩
    rw [X64Mem.address, loaded.1, kept _ located]
    exact congrArg (fun address => some (address + _)) base

theorem computes_load (is : inst.op = .load) (fits : AddressFits x inst) :
    Computes x symbolAddress state vals inst (x64EmitLoad x inst) := by
  intro result evaluates
  have integer : irTypeIsIntOrPtr inst.type = true := by
    simpa only [irIsIntegerInst, is] using placed.integer
  have resultType : irResultType inst = inst.type := by simp [irResultType, is]
  simp only [irEval, is, Option.some.injEq] at evaluates
  rw [resultType, ← evaluates]
  unfold x64EmitLoad
  rw [x64Width_eq integer]
  refine def_ok (placed.located_dst (by simp [is])) (.append ?_)
  refine (address_runs placed holds (.inl is) fits rfl fun _ _ => rfl).mono fun s1 loaded => ?_
  obtain ⟨leads, keeps⟩ := loaded
  set at' := irAddress (x.places symbolAddress state) vals inst.addr
  have bits : readMem s1.mem at' (irTypeSize inst.type) = readMem state.mem at' _ := by
    rw [keeps.mem]
  split_ifs with narrow
  · refine .single (by rw [X64Inst.exec, leads, Option.map_some]) ⟨?_, ?_⟩
    · rw [setLow_regs_self _ _ (by decide), bits]
      refine congrArg (BitVec.setWidth _) (BitVec.setWidth_setWidth ?_)
      omega
    · exact (keeps_def keeps (by decide)).trans (.setLow s1 _ _ List.mem_cons_self)
  · refine .single (by rw [X64Inst.exec, leads, Option.map_some]) ⟨?_, ?_⟩
    · rw [setLow_regs_self _ _ (by omega), bits]
    · exact (keeps_def keeps (by decide)).trans (.setLow s1 _ _ List.mem_cons_self)

/-- A store writes its value and keeps the registers that are not scratch. -/
theorem store_runs (is : inst.op = .store) (fits : AddressFits x inst) :
    X64Runs symbolAddress (x64EmitStore x inst) state fun after =>
      after.mem = irStore (x.places symbolAddress state) state.mem vals inst ∧
      ∀ reg ∉ x64Scratch, after.regs reg = state.regs reg := by
  have accepted := placed.accepted_operation
  simp only [irVerifyOperation, is, List.append_eq_nil_iff, irVerifyCheck_eq_nil] at accepted
  have integer : irTypeIsIntOrPtr inst.type = true := by
    simpa only [irIsIntegerInst, is] using placed.integer
  have okA := placed.operandA holds (ne_void_of_integer integer) accepted.1.2
  unfold x64EmitStore
  rw [x64Width_eq integer]
  refine .append (.append ((use_ok okA.located).mono fun s1 used => ?_))
  have keeps1 : Keeps x64Scratch state s1 := used.2.mono (by decide)
  refine (address_runs placed holds (.inr is) fits (keeps1.regs _ (by decide))
    fun v located => contents_keeps located keeps1).mono fun s2 loaded => ?_
  obtain ⟨leads, keeps2⟩ := loaded
  refine .single (by rw [X64Inst.exec, leads, Option.map_some]) ⟨?_, ?_⟩
  · have notR11 : (x64Use x (vregOf inst.a) .r10).1 ≠ .r11 := by
      rcases mem_use .r10 okA.located with isScratch | pooled
      · rw [isScratch]
        decide
      · exact fun isR11 => (allocatable_not_scratch _ pooled).1 (isR11 ▸ by decide)
    have value : s2.low (irTypeSize inst.type) (x64Use x (vregOf inst.a) .r10).1 =
        (vals (vregOf inst.a)).setWidth _ := by
      rw [X64State.low, keeps2.regs _ (by simpa using notR11), used.1]
      exact okA.holds
    change writeMem s2.mem _ _ (s2.low _ _) = _
    rw [value, keeps2.mem, used.2.mem]
    rfl
  · intro reg unreserved
    refine (keeps2.regs reg fun mem => unreserved ?_).trans (keeps1.regs reg unreserved)
    exact List.mem_singleton.mp mem ▸ by decide

end Cases

section Whole

variable {x : X64Emitter} {inst : IrInst}

/-- The code of every instruction but a store computes its value. -/
theorem exists_computes (placed : Placement x inst) (notStore : inst.op ≠ .store)
    (fits : AddressFits x inst) : ∃ code, x64EmitInst x inst = some code ∧
      ∀ (symbolAddress : List (BitVec 8) → BitVec 64) (state : X64State) (vals : Vreg → BitVec 64),
        x.Holds state vals (irInstUses inst) → Computes x symbolAddress state vals inst code := by
  cases op : inst.op with
  | const => exact ⟨_, by simp only [x64EmitInst, op], fun _ _ _ _ => computes_const placed op⟩
  | copy => exact ⟨_, by simp only [x64EmitInst, op], fun _ _ _ holds => computes_copy placed holds op⟩
  | slotAddr => exact ⟨_, by simp only [x64EmitInst, op], fun _ _ _ _ => computes_slotAddr placed op⟩
  | globalAddr =>
    exact ⟨_, by simp only [x64EmitInst, op], fun _ _ _ _ => computes_globalAddr placed op⟩
  | load =>
    exact ⟨_, by simp only [x64EmitInst, op], fun _ _ _ holds => computes_load placed holds op fits⟩
  | ptrAdd =>
    exact ⟨_, by simp only [x64EmitInst, op], fun _ _ _ holds => computes_ptrAdd placed holds op⟩
  | add | sub | mul | and | or | xor =>
    refine ⟨_, by simp only [x64EmitInst, op]; rfl, fun _ _ _ holds => ?_⟩
    exact computes_binop placed holds (by simp [op])
  | sdiv | udiv | srem | urem =>
    refine ⟨x64EmitDivide x inst, by simp only [x64EmitInst, op], fun _ _ _ holds => ?_⟩
    exact computes_divide placed holds (by simp [op])
  | shl | lshr | ashr =>
    refine ⟨x64EmitShift x inst, by simp only [x64EmitInst, op], fun _ _ _ holds => ?_⟩
    exact computes_shift placed holds (by simp [op])
  | neg | not =>
    refine ⟨_, by simp only [x64EmitInst, op]; rfl, fun _ _ _ holds => ?_⟩
    exact computes_unary placed holds (by simp [op])
  | icmp => exact ⟨_, by simp only [x64EmitInst, op], fun _ _ _ holds => computes_icmp placed holds op⟩
  | sext | zext =>
    refine ⟨x64EmitConversion x inst, by simp only [x64EmitInst, op], fun _ _ _ holds => ?_⟩
    exact computes_extend placed holds (by simp [op])
  | trunc =>
    exact ⟨_, by simp only [x64EmitInst, op], fun _ _ _ holds => computes_trunc placed holds op⟩
  | bitcast =>
    exact ⟨_, by simp only [x64EmitInst, op], fun _ _ _ holds => computes_bitcast placed holds op⟩
  | store => exact absurd op notStore
  | nop | constFloat | memcpy | memset | fadd | fsub | fmul | fdiv | fneg | fcmp | sitofp | uitofp
  | fptosi | fptoui | fpext | fptrunc | call =>
    have integer := placed.integer
    simp [irIsIntegerInst, op] at integer

theorem address_cut {addr : IrAddr} (kind : addr.kind = .global)
    (long : ¬ (x64RelText x addr.base addr.offset).length < 128) :
    x64Address x addr .r11 = (.cut, []) := by
  simp only [x64Address, kind, if_neg long]

/-- A load or store of a global is not emitted correctly when its address is cut. -/
theorem addressFits_of_emitsCorrectly (correct : EmitsCorrectly x inst) : AddressFits x inst := by
  obtain ⟨code, emitted, correct⟩ := correct
  intro access kind
  by_contra long
  have cut := address_cut kind long
  let state : X64State := { regs := fun _ => 0, mem := fun _ => 0 }
  have runs := correct (fun _ => 0) state (x.contents state) fun _ _ => rfl
  rcases access with is | is
  · simp only [x64EmitInst, is, Option.some.injEq] at emitted
    simp only [is, reduceCtorEq, if_false] at runs
    have run := runs _ (by simp only [irEval, is]; rfl)
    rw [← emitted, x64EmitLoad] at run
    simp only [cut] at run
    refine Runs.not_of_stuck (fun middle => ?_) run
    split_ifs <;> rfl
  · simp only [x64EmitInst, is, Option.some.injEq] at emitted
    rw [if_pos is, ← emitted, x64EmitStore] at runs
    simp only [cut] at runs
    rw [← List.append_nil (_ ++ [_])] at runs
    exact Runs.not_of_stuck (fun _ => rfl) runs

/-- Every other instruction is emitted correctly. -/
theorem emitsCorrectly_of_addressFits (placed : Placement x inst) (fits : AddressFits x inst) :
    EmitsCorrectly x inst := by
  by_cases isStore : inst.op = .store
  · refine ⟨x64EmitStore x inst, by simp only [x64EmitInst, isStore], ?_⟩
    intro symbolAddress state vals holds
    rw [if_pos isStore]
    exact store_runs placed holds isStore fits
  · obtain ⟨code, emitted, computes⟩ := exists_computes placed isStore fits
    refine ⟨code, emitted, fun symbolAddress state vals holds => ?_⟩
    rw [if_neg isStore]
    intro result evaluates
    exact (computes symbolAddress state vals holds result evaluates).mono fun after defined =>
      ⟨defined, defined.keepsFrame (placed.located_dst isStore)⟩

end Whole

/-- Every integer, pointer, load and store instruction is emitted correctly, but for a load or store
of a global whose address text does not fit. -/
theorem emitsCorrectly_iff (x : X64Emitter) (inst : IrInst) (placed : Placement x inst) :
    EmitsCorrectly x inst ↔ AddressFits x inst :=
  ⟨addressFits_of_emitsCorrectly, emitsCorrectly_of_addressFits placed⟩

def loadGlobal : IrInst := { op := .load, type := .i32, dst := some 0, addr := { kind := .global } }

/-- Returns an `i32` of a global. -/
def loadFunction : IrFunction where
  returnType := .i32
  vregTypes := [.i32]
  blocks := [{ id := 0, insts := [loadGlobal], term := .ret (some 0) }]

/-- The function in a module where the name of the global has the given length. -/
def loadEmitter (nameLength : ℕ) : X64Emitter where
  globals := [{ kind := .data, name := List.replicate nameLength 97, data := List.replicate 4 0 }]
  func := loadFunction
  ra := regallocFunction loadFunction x64Target
  fits := by decide

theorem loadGlobal_placement (nameLength : ℕ) : Placement (loadEmitter nameLength) loadGlobal where
  accepted := rfl
  integer := rfl
  uses := by simp [irInstUses, loadGlobal]
  dst d same := by
    obtain rfl : 0 = d := by simpa [loadGlobal] using same
    have placed : ∃ reg ∈ x64AllocatableGprs,
        (regallocFunction loadFunction x64Target).locations 0 = .reg reg.number := by decide
    exact .inl placed
  apart := by simp [irInstUses, loadGlobal]

theorem emitsCorrectly_iff_loadGlobal : EmitsCorrectly (loadEmitter 5) loadGlobal ↔
    AddressFits (loadEmitter 5) loadGlobal :=
  emitsCorrectly_iff _ _ (loadGlobal_placement 5)

/-- The text of the address has 128 characters, one more than the buffer holds. -/
theorem loadGlobal_not_emitsCorrectly : Placement (loadEmitter 121) loadGlobal ∧
    ¬ EmitsCorrectly (loadEmitter 121) loadGlobal :=
  ⟨loadGlobal_placement 121, fun correct =>
    absurd (addressFits_of_emitsCorrectly correct (.inl rfl) rfl) (by decide +kernel)⟩

end Saad
