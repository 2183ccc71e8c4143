import Saad.General.Memory
import Saad.Ir.Verify

/-! # The meaning of the integer instructions

Integers wrap to their width, and pointers are 64-bit integers. A value is given in 64 bits of which
only the low ones, as many as its type has, matter. What the IR leaves open has no value: a division
by zero or with a quotient that does not fit, and a shift by the width or more.
-/

namespace Saad

open General

def irTypeBits (type : IrType) : ℕ := 8 * irTypeSize type

section Operators

variable {w : ℕ}

/-- The signed quotient fits. -/
def SignedQuotientFits (x y : BitVec w) : Prop := ¬ (x = BitVec.intMin w ∧ y = -1#w)

instance (x y : BitVec w) : Decidable (SignedQuotientFits x y) :=
  inferInstanceAs (Decidable (¬ _))

def irBinary (op : IrOp) (x y : BitVec w) : Option (BitVec w) :=
  match op with
  | .add => some (x + y)
  | .sub => some (x - y)
  | .mul => some (x * y)
  | .and => some (x &&& y)
  | .or => some (x ||| y)
  | .xor => some (x ^^^ y)
  | .sdiv => if y ≠ 0 ∧ SignedQuotientFits x y then some (x.sdiv y) else none
  | .srem => if y ≠ 0 ∧ SignedQuotientFits x y then some (x.srem y) else none
  | .udiv => if y ≠ 0 then some (x / y) else none
  | .urem => if y ≠ 0 then some (x % y) else none
  | .shl => if y.toNat < w then some (x <<< y.toNat) else none
  | .lshr => if y.toNat < w then some (x >>> y.toNat) else none
  | .ashr => if y.toNat < w then some (x.sshiftRight y.toNat) else none
  | _ => none

def irCompare (cmp : IrCmp) (x y : BitVec w) : Bool :=
  match cmp with
  | .eq => x == y
  | .ne => x != y
  | .slt => x.slt y
  | .sle => x.sle y
  | .sgt => y.slt x
  | .sge => y.sle x
  | .ult => x.ult y
  | .ule => x.ule y
  | .ugt => y.ult x
  | .uge => y.ule x
  | _ => false

end Operators

/-- Where the slots and the globals are. -/
structure IrPlaces where
  slot : ℕ → BitVec 64
  global : ℕ → BitVec 64

def irAddress (places : IrPlaces) (vals : Vreg → BitVec 64) (addr : IrAddr) : BitVec 64 :=
  let base := match addr.kind with
    | .vreg => vals addr.base
    | .slot => places.slot addr.base
    | .global => places.global addr.base
    | .none => 0
  base + BitVec.ofInt 64 addr.offset

/-- An operand or destination that the verifier has checked to be there. -/
def vregOf (vreg : Option Vreg) : Vreg := vreg.getD 0

/-- Integer and pointer instructions; floats, calls and block copies are left out. -/
def irIsIntegerInst (func : IrFunction) (inst : IrInst) : Bool :=
  match inst.op with
  | .const | .slotAddr | .globalAddr | .ptrAdd | .icmp | .sext | .zext | .trunc
  | .add | .sub | .mul | .sdiv | .udiv | .srem | .urem | .and | .or | .xor | .shl | .lshr | .ashr
  | .neg | .not => true
  | .copy | .load | .store => irTypeIsIntOrPtr inst.type
  | .bitcast => irTypeIsIntOrPtr inst.type && irTypeIsIntOrPtr (irVregType func inst.a)
  | _ => false

/-- The type of the value that the instruction defines. -/
def irResultType (inst : IrInst) : IrType := if inst.op = .icmp then .i8 else inst.type

section Eval

variable (func : IrFunction) (places : IrPlaces) (mem : Memory) (vals : Vreg → BitVec 64)

/-- The operand at the width of a type. -/
def irOperand (type : IrType) (vreg : Option Vreg) : BitVec (irTypeBits type) :=
  (vals (vregOf vreg)).setWidth _

/-- The value that an integer instruction defines, in the low bits of its type. -/
def irEval (inst : IrInst) : Option (BitVec 64) :=
  let type := inst.type
  match inst.op with
  | .const => some inst.imm
  | .copy | .bitcast => some ((irOperand vals type inst.a).setWidth 64)
  | .slotAddr => some (places.slot inst.imm.toNat)
  | .globalAddr => some (places.global inst.imm.toNat)
  | .load => some ((readMem mem (irAddress places vals inst.addr) (irTypeSize type)).setWidth 64)
  | .ptrAdd => some (vals (vregOf inst.a) + vals (vregOf inst.b))
  | .neg => some ((-irOperand vals type inst.a).setWidth 64)
  | .not => some ((~~~irOperand vals type inst.a).setWidth 64)
  | .icmp =>
    some (if irCompare inst.cmp (irOperand vals type inst.a) (irOperand vals type inst.b) then 1 else 0)
  | .sext => some (((irOperand vals (irVregType func inst.a) inst.a).signExtend
      (irTypeBits type)).setWidth 64)
  | .zext | .trunc => some (((irOperand vals (irVregType func inst.a) inst.a).setWidth
      (irTypeBits type)).setWidth 64)
  | op => (irBinary op (irOperand vals type inst.a) (irOperand vals type inst.b)).map
      (BitVec.setWidth 64)

/-- The memory behind a store. -/
def irStore (inst : IrInst) : Memory :=
  writeMem mem (irAddress places vals inst.addr) (irTypeSize inst.type)
    ((vals (vregOf inst.a)).setWidth _)

end Eval

end Saad

/-! # Running a function

What an instruction does with the values that it reads is left to `IrSemantics`; which values those
are, where the result goes and where control goes next is not. So a run can be taken on vregs or,
through `Program.rename`, on the locations that a register allocation gives them.
-/

namespace Saad

open General

/-- The meaning of the instructions: from the values read, in the order of `irInstUses`, and the
world to the value defined and the world after. `truth` decides a branch. -/
structure IrSemantics (Val W : Type) where
  inst : IrInst → List Val → W → Val → W → Prop
  truth : Val → Bool

namespace IrFunction

variable (func : IrFunction)

/-- The vregs that are read at a point. -/
def readsAt (p : Point) : List Vreg :=
  match func.blocks[p.1]? with
  | none => []
  | some block =>
    match block.insts[p.2]? with
    | some inst => irInstUses inst
    | none => if p.2 = block.insts.length then irTermUses block.term else []

/-- The vreg that is defined at a point. -/
def writesAt (p : Point) : Option Vreg :=
  (func.blocks[p.1]?.bind fun block => block.insts[p.2]?).bind IrInst.dst

variable {Val W : Type} (sem : IrSemantics Val W)

/-- The block that a terminator goes on to, from the values that it reads. -/
def taken : IrTerm → List Val → Option ℕ
  | .jmp target, _ => target
  | .br _ target elseTarget, [cond] => if sem.truth cond then target else elseTarget
  | _, _ => none

/-- The function as a program over its vregs. A run ends at a `ret`. -/
def program : Program Point Vreg Val W where
  reads := func.readsAt
  writes := func.writesAt
  act p values world value world' q := ∃ block, func.blocks[p.1]? = some block ∧
    ((∃ inst, block.insts[p.2]? = some inst ∧ sem.inst inst values world value world' ∧
        q = (p.1, p.2 + 1)) ∨
      (p.2 = block.insts.length ∧ world' = world ∧ q.2 = 0 ∧
        ∃ succ, func.blocks[q.1]? = some succ ∧ taken sem block.term values = some succ.id))

/-- Stores arguments in the places of their parameters, one after the other. -/
def storeArgs {V : Type*} [DecidableEq V] (place : Vreg → V) (store : V → Val)
    (stored : List (Vreg × Val)) : V → Val :=
  stored.foldl (fun store (param, arg) => Function.update store (place param) arg) store

/-- The store where the function starts: the arguments are in the places of the parameters. -/
def enter {V : Type*} [DecidableEq V] (place : Vreg → V) (args : List Val) (garbage : V → Val) :
    V → Val :=
  storeArgs place garbage (func.params.zip args)

variable {func} {sem}

theorem mem_successors_of_taken {values : List Val} {block : IrBlock} {id : ℕ}
    (goes : taken sem block.term values = some id) : some id ∈ irBlockSuccessors block := by
  unfold irBlockSuccessors
  cases kind : block.term with
  | none => simp [kind, taken] at goes
  | ret value => simp [kind, taken] at goes
  | jmp target => simpa [kind, taken, eq_comm] using goes
  | br cond target elseTarget =>
    rw [kind] at goes
    match values, goes with
    | [value], goes =>
      simp only [taken] at goes
      split at goes <;> simp [goes]

/-- The flow graph of the function is that of the program. -/
theorem program_follows : (func.program sem).Follows func.flow where
  next := by
    rintro p values world value world' q ⟨block, atB, acts⟩
    refine ⟨block, atB, ?_⟩
    rcases acts with ⟨inst, atI, -, rfl⟩ | ⟨last, -, first, succ, atNext, goes⟩
    · exact .inl ⟨(List.getElem?_eq_some_iff.mp atI).1, rfl⟩
    · exact .inr ⟨last, first, succ.id, mem_successors_of_taken goes, succ,
        atNext, rfl⟩
  use := by
    intro p v mem
    simp only [program, readsAt] at mem
    split at mem
    · exact absurd mem List.not_mem_nil
    · next block atB =>
      refine ⟨block, atB, ?_⟩
      split at mem
      · next inst atI => exact .inl ⟨inst, atI, mem⟩
      · split_ifs at mem with last
        · exact .inr ⟨last, mem⟩
        · exact absurd mem List.not_mem_nil
  defines := by
    intro p v
    simp only [program, writesAt, Option.bind_eq_some_iff]
    constructor
    · rintro ⟨block, atB, inst, atI, defines⟩
      exact ⟨inst, ⟨block, atB, atI⟩, defines⟩
    · rintro ⟨inst, ⟨block, atB, atI⟩, defines⟩
      exact ⟨block, atB, inst, atI, defines⟩

section Enter

variable {V : Type*} [DecidableEq V] {place : Vreg → V} {params : List Vreg} {args : List Val}

theorem storeArgs_of_ne (stored : List (Vreg × Val)) (store : V → Val) {where' : V}
    (apart : ∀ p ∈ stored, where' ≠ place p.1) : storeArgs place store stored where' = store where' := by
  induction stored generalizing store with
  | nil => rfl
  | cons head rest ih =>
    refine (ih _ fun p mem => apart p (List.mem_cons_of_mem _ mem)).trans ?_
    exact Function.update_of_ne (apart head List.mem_cons_self) _ _

theorem storeArgs_zip (nodup : params.Nodup)
    (apart : ∀ v ∈ params, ∀ w ∈ params, v ≠ w → place v ≠ place w) (store : V → Val) {i : ℕ}
    {v : Vreg} {arg : Val} (param : params[i]? = some v) (given : args[i]? = some arg) :
    storeArgs place store (params.zip args) (place v) = arg := by
  induction params generalizing args store i with
  | nil => simp at param
  | cons head rest ih =>
    cases args with
    | nil => simp at given
    | cons first args =>
      obtain ⟨fresh, nodup⟩ := List.nodup_cons.mp nodup
      cases i with
      | zero =>
        cases param
        cases given
        change storeArgs place (Function.update store (place v) arg) (rest.zip args) (place v) = arg
        refine (storeArgs_of_ne _ _ fun p mem => ?_).trans (Function.update_self ..)
        have inRest := (List.of_mem_zip mem).1
        refine apart _ List.mem_cons_self _ (List.mem_cons_of_mem _ inRest) ?_
        rintro rfl
        exact fresh inRest
      | succ i =>
        exact ih nodup (fun v memV w memW => apart v (List.mem_cons_of_mem _ memV) w
          (List.mem_cons_of_mem _ memW)) _ param given

end Enter

/-- Where the parameters have places of their own, each place holds the argument of its parameter. -/
theorem enter_param {V : Type*} [DecidableEq V] (place : Vreg → V) {args : List Val}
    (nodup : func.params.Nodup)
    (apart : ∀ v ∈ func.params, ∀ w ∈ func.params, v ≠ w → place v ≠ place w)
    (garbage : V → Val) {i : ℕ} {v : Vreg} {arg : Val} (param : func.params[i]? = some v)
    (given : args[i]? = some arg) : func.enter place args garbage (place v) = arg :=
  storeArgs_zip nodup apart garbage param given

end IrFunction

end Saad
