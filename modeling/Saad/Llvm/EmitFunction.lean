import Saad.Ir.Execution

/-! # The body of a function for LLVM

`llvm_emit_function` up to what an operation computes: which values it gets, what it is given, and where its
value goes. The LLVM instructions of an operation are one instruction here. The types of loads and stores and
the debug information are left out.
-/

namespace Saad

open General

/-! ## The function that is built -/

/-- A value of the function that is built: what `calloc` left, a parameter, a constant or the address of a slot
or global, or what an instruction gives, by its block and its place in it. -/
inductive LlvmValue where
  | null
  | param (i : ℕ)
  | constant (inst : IrInst)
  | result (block index : ℕ)
deriving DecidableEq, Repr

/-- The function type of a call: its parameters, and whether there is a `...` behind them. -/
structure LlvmCallType where
  params : List IrType
  vararg : Bool
deriving DecidableEq, Repr

/-- An instruction. The alloca of a vreg is named by its vreg. -/
inductive LlvmInst where
  | load (home : Vreg)
  | store (value : LlvmValue) (home : Vreg)
  | op (inst : IrInst) (operands : List LlvmValue)
  | call (inst : IrInst) (type : LlvmCallType) (operands : List LlvmValue)
deriving DecidableEq, Repr

def LlvmInst.operands : LlvmInst → List LlvmValue
  | .load _ => []
  | .store value _ => [value]
  | .op _ operands => operands
  | .call _ _ operands => operands

inductive LlvmTerm where
  | br (target : Option ℕ)
  | condBr (cond : LlvmValue) (target elseTarget : Option ℕ)
  | ret (value : LlvmValue)
  | retVoid
  | unreachable
deriving DecidableEq, Repr

structure LlvmBlock where
  id : ℕ
  code : List LlvmInst
  term : LlvmTerm
deriving DecidableEq, Repr

/-- A function: the types of its parameters, and its blocks behind the one of the allocas. -/
structure LlvmFunction where
  params : List IrType
  blocks : List LlvmBlock
deriving DecidableEq, Repr

/-! ## Operands -/

section Operands

/-- The vreg of an address. -/
def addrOperands (addr : IrAddr) : List Vreg := if addr.kind = .vreg then [addr.base] else []

def calleeOperands (call : IrCall) : List Vreg := if call.calleeKind = .vreg then [call.callee] else []

/-- What the operation of an instruction reads, in the order that the code gets it. -/
def irOperands (inst : IrInst) : List Vreg :=
  match inst.op with
  | .nop | .const | .constFloat | .slotAddr | .globalAddr => []
  | .load => addrOperands inst.addr
  | .store => inst.a.toList ++ addrOperands inst.addr
  | .copy | .memset | .neg | .not | .fneg | .sext | .zext | .trunc | .sitofp | .uitofp | .fptosi | .fptoui | .fpext
  | .fptrunc | .bitcast => inst.a.toList
  | .shl | .lshr | .ashr => inst.b.toList ++ inst.a.toList
  | .memcpy | .ptrAdd | .add | .sub | .mul | .sdiv | .udiv | .srem | .urem | .and | .or | .xor | .fadd | .fsub | .fmul
  | .fdiv | .icmp | .fcmp => inst.a.toList ++ inst.b.toList
  | .call => inst.call.args.reduceOption ++ calleeOperands inst.call

/-- What the code gets: the array of the arguments has a place for 64. -/
def llvmOperands (inst : IrInst) : List Vreg :=
  match inst.op with
  | .call => (inst.call.args.take 64).reduceOption ++ calleeOperands inst.call
  | .memcpy | .memset => if 0 < inst.imm.toInt then irOperands inst else []
  | _ => irOperands inst

variable (func : IrFunction)

def termOperands (term : IrTerm) : List Vreg :=
  match term with
  | .br cond _ _ => cond.toList
  | .ret value => if func.returnType = .void then [] else value.toList
  | _ => []

/-- The operands at a point. -/
def IrFunction.operandsAt (p : ℕ × ℕ) : List Vreg :=
  match func.blocks[p.1]? with
  | none => []
  | some block =>
    match block.insts[p.2]? with
    | some inst => irOperands inst
    | none => if p.2 = block.insts.length then termOperands func block.term else []

def IrFunction.llvmOperandsAt (p : ℕ × ℕ) : List Vreg :=
  match func.blocks[p.1]? with
  | none => []
  | some block =>
    match block.insts[p.2]? with
    | some inst => llvmOperands inst
    | none => if p.2 = block.insts.length then termOperands func block.term else []

end Operands

/-! ## Emission -/

section Emit

variable (func : IrFunction)

def blockUses (block : IrBlock) : List Vreg := block.insts.flatMap irInstUses ++ irTermUses block.term

/-- `defined_in`: the last block that defines the vreg. -/
def llvmDefinedIn (vreg : Vreg) : Option ℕ :=
  func.blocks.zipIdx.foldl
    (fun found entry => if entry.1.insts.any (·.dst == some vreg) then some entry.2 else found) none

/-- The vregs that are used in another block than the one defining them. They live in an alloca. -/
def llvmFindHomed (vreg : Vreg) : Bool :=
  func.blocks.zipIdx.any fun entry =>
    (llvmDefinedIn func vreg).any (· != entry.2) && (blockUses entry.1).contains vreg

/-- The values of the vregs, and the code of the block so far. -/
structure LlvmEmitter where
  values : Vreg → LlvmValue
  code : List LlvmInst

variable (b : ℕ)

def llvmBuild (e : LlvmEmitter) (inst : LlvmInst) : LlvmValue × LlvmEmitter :=
  (.result b e.code.length, { e with code := e.code ++ [inst] })

def llvmGet (e : LlvmEmitter) (vreg : Vreg) : LlvmValue × LlvmEmitter :=
  if llvmFindHomed func vreg then llvmBuild b e (.load vreg) else (e.values vreg, e)

def llvmGets (e : LlvmEmitter) : List Vreg → List LlvmValue × LlvmEmitter
  | [] => ([], e)
  | vreg :: rest =>
    let got := llvmGet func b e vreg
    let more := llvmGets got.2 rest
    (got.1 :: more.1, more.2)

def llvmSet (e : LlvmEmitter) (vreg : Option Vreg) (value : LlvmValue) : LlvmEmitter :=
  match vreg with
  | none => e
  | some vreg =>
    { values := Function.update e.values vreg value
      code := e.code ++ if llvmFindHomed func vreg then [.store value vreg] else [] }

/-- The function type of a call, from the types of its arguments. -/
def llvmCallType (call : IrCall) : LlvmCallType where
  params := ((call.args.zipIdx.filter fun arg => !call.argIsVararg.getD arg.2 false).map fun arg =>
    irVregType func arg.1).take 64
  vararg := call.args.zipIdx.any fun arg => call.argIsVararg.getD arg.2 false

/-- What is built for an operation that has its operands: its value, and the code with it. -/
def llvmMake (e : LlvmEmitter) (inst : IrInst) (operands : List LlvmValue) : LlvmValue × LlvmEmitter :=
  match inst.op with
  | .const | .constFloat | .slotAddr | .globalAddr => (.constant inst, e)
  | .copy => (operands.headD .null, e)
  | .memcpy | .memset => if 0 < inst.imm.toInt then llvmBuild b e (.op inst operands) else (.null, e)
  | .call => llvmBuild b e (.call inst (llvmCallType func inst.call) operands)
  | _ => llvmBuild b e (.op inst operands)

/-- The instructions whose value is set: the code of the others returns before. -/
def llvmSets (inst : IrInst) : Bool :=
  match inst.op with
  | .nop | .store | .memcpy | .memset => false
  | .call => inst.call.returnType != .void
  | _ => true

def llvmEmitInst (e : LlvmEmitter) (inst : IrInst) : LlvmEmitter :=
  if inst.op = .nop then e
  else
    let got := llvmGets func b e (llvmOperands inst)
    let made := llvmMake func b got.2 inst got.1
    if llvmSets inst then llvmSet func made.2 inst.dst made.1 else made.2

/-- The terminator, with what is built for it in front of it. -/
def llvmEmitTerm (e : LlvmEmitter) (term : IrTerm) : LlvmTerm × LlvmEmitter :=
  let got := llvmGets func b e (termOperands func term)
  match term with
  | .jmp target => (.br target, got.2)
  | .br _ target elseTarget => (.condBr (got.1.headD .null) target elseTarget, got.2)
  | .ret value =>
    if func.returnType = .void then (.retVoid, got.2)
    else if value = none then (.ret (.constant { op := .const, type := func.returnType }), got.2)
    else (.ret (got.1.headD .null), got.2)
  | .none => (.unreachable, got.2)

/-- The emitter behind instructions of the block. -/
def llvmEmitInsts (values : Vreg → LlvmValue) (insts : List IrInst) : LlvmEmitter :=
  insts.foldl (llvmEmitInst func b) ⟨values, []⟩

def llvmEmitBlock (values : Vreg → LlvmValue) (block : IrBlock) : LlvmBlock × (Vreg → LlvmValue) :=
  let term := llvmEmitTerm func b (llvmEmitInsts func b values block.insts) block.term
  (⟨block.id, term.2.code, term.1⟩, term.2.values)

/-- `e->values` where the first block starts: the parameters. -/
def llvmParamValues : Vreg → LlvmValue :=
  func.params.zipIdx.foldl (fun values entry => Function.update values entry.1 (.param entry.2)) fun _ => .null

/-- `e->values` where a block starts: the blocks before it in the layout are built. -/
def llvmValuesBefore : ℕ → Vreg → LlvmValue
  | 0 => llvmParamValues func
  | b + 1 =>
    match func.blocks[b]? with
    | none => llvmValuesBefore b
    | some block => (llvmEmitBlock func b (llvmValuesBefore b) block).2

/-- The emitter where the code of a point is built. -/
def llvmEmitterAt (p : ℕ × ℕ) : LlvmEmitter :=
  llvmEmitInsts func p.1 (llvmValuesBefore func p.1) (((func.blocks[p.1]?).elim [] IrBlock.insts).take p.2)

/-- The function. Its type has a place for 64 parameters. -/
def llvmEmitFunction : LlvmFunction where
  params := (func.params.map fun vreg => irVregType func (some vreg)).take 64
  blocks := func.blocks.mapIdx fun b block => (llvmEmitBlock func b (llvmValuesBefore func b) block).1

end Emit

/-! ## Runs of the IR and of LLVM -/

/-- What the operations compute: constants and addresses, and everything that reads operands. -/
structure IrOpSemantics (Val W : Type) where
  constant : IrInst → Val
  op : IrInst → List Val → W → Val → W → Prop
  truth : Val → Bool

namespace IrOpSemantics

variable {Val W : Type} (sem : IrOpSemantics Val W)

/-- An instruction of the IR, from the values of its operands. -/
def inst (inst : IrInst) (values : List Val) (world : W) (value : Val) (world' : W) : Prop :=
  match inst.op with
  | .nop => world' = world
  | .const | .constFloat | .slotAddr | .globalAddr => value = sem.constant inst ∧ world' = world
  | .copy => values = [value] ∧ world' = world
  | _ => sem.op inst values world value world'

def toIrSemantics : IrSemantics Val W := ⟨sem.inst, sem.truth⟩

end IrOpSemantics

/-- The function as a program that reads its operands. -/
def IrFunction.opProgram {Val W : Type} (func : IrFunction) (sem : IrOpSemantics Val W) :
    Program (ℕ × ℕ) Vreg Val W :=
  { func.program sem.toIrSemantics with reads := func.operandsAt }

/-- What the built function has while it runs: the last result of each instruction, the allocas, which the
program has no pointers to, and the world of the operations. -/
structure LlvmState (Val W : Type) where
  results : ℕ × ℕ → Option Val
  homes : Vreg → Option Val
  world : W

section Run

variable {Val W : Type} (sem : IrOpSemantics Val W) (args : List Val)

/-- The value, if it has one. -/
def LlvmValue.eval (state : LlvmState Val W) : LlvmValue → Option Val
  | .null => none
  | .param i => args[i]?
  | .constant inst => some (sem.constant inst)
  | .result block index => state.results (block, index)

def LlvmInst.Step (at_ : ℕ × ℕ) (before after : LlvmState Val W) : LlvmInst → Prop
  | .load home => after = { before with results := Function.update before.results at_ (before.homes home) }
  | .store value home => after = { before with homes := Function.update before.homes home (value.eval sem args before) }
  | .op inst operands => ∃ values value world', operands.map (LlvmValue.eval sem args before) = values.map some ∧
      sem.op inst values before.world value world' ∧
      after = ⟨Function.update before.results at_ (some value), before.homes, world'⟩
  | .call inst _ operands => ∃ values value world', operands.map (LlvmValue.eval sem args before) = values.map some ∧
      sem.op inst values before.world value world' ∧
      after = ⟨Function.update before.results at_ (some value), before.homes, world'⟩

/-- Instructions of a block run one after the other, the first one at a place of the block. -/
def llvmExec (b : ℕ) : ℕ → List LlvmInst → LlvmState Val W → LlvmState Val W → Prop
  | _, [], before, after => after = before
  | n, inst :: rest, before, after =>
    ∃ middle, inst.Step sem args (b, n) before middle ∧ llvmExec b (n + 1) rest middle after

/-- The block that control goes on to. -/
def LlvmTerm.goes (state : LlvmState Val W) : LlvmTerm → Option ℕ
  | .br target => target
  | .condBr cond target elseTarget =>
    (cond.eval sem args state).bind fun value => if sem.truth value then target else elseTarget
  | _ => none

/-- A run of the function gets to the start of a block. -/
inductive LlvmFunction.Enters (function : LlvmFunction) (world : W) : ℕ → LlvmState Val W → Prop
  | start : Enters function world 0 ⟨fun _ => none, fun _ => none, world⟩
  | next {b c : ℕ} {block succ : LlvmBlock} {first last : LlvmState Val W} : Enters function world b first →
      function.blocks[b]? = some block → llvmExec sem args b 0 block.code first last →
      function.blocks[c]? = some succ → block.term.goes sem args last = some succ.id →
      Enters function world c last

end Run

/-! ## Refinement -/

/-- The value is a constant, a parameter of the function or the result of an instruction that is earlier in
the block. -/
def LlvmValue.Dominates (paramCount b n : ℕ) : LlvmValue → Prop
  | .null => False
  | .param i => i < paramCount
  | .constant _ => True
  | .result block index => block = b ∧ index < n

/-- The built function refines the function. -/
structure LlvmRefines (func : IrFunction) : Prop where
  /-- On every run, what is got at a point are the values that the operands have there. -/
  reads : ∀ (Val W : Type) (sem : IrOpSemantics Val W) (args : List Val) (garbage : Vreg → Val) (world : W),
    args.length = func.params.length → ∀ (b i : ℕ) (block : IrBlock), func.blocks[b]? = some block →
    i ≤ block.insts.length → ∀ first state : LlvmState Val W,
      let function := llvmEmitFunction func
      let given := args.take function.params.length
      let got := llvmGets func b (llvmEmitterAt func (b, i)) (func.llvmOperandsAt (b, i))
      function.Enters sem given world b first → llvmExec sem given b 0 got.2.code first state →
      ∃ vars, (func.opProgram sem).Run ⟨(0, 0), func.enter id args garbage, world⟩ ⟨(b, i), vars, state.world⟩ ∧
        got.1.map (LlvmValue.eval sem given state) = (func.operandsAt (b, i)).map fun vreg => some (vars vreg)
  /-- What is got was built before. -/
  gets_dominated : ∀ (b i : ℕ) (block : IrBlock), func.blocks[b]? = some block → i ≤ block.insts.length →
    let got := llvmGets func b (llvmEmitterAt func (b, i)) (func.llvmOperandsAt (b, i))
    ∀ value ∈ got.1, value.Dominates (llvmEmitFunction func).params.length b got.2.code.length
  /-- Every use of a value is behind its definition. -/
  uses_dominated : ∀ (b : ℕ) (block : LlvmBlock), (llvmEmitFunction func).blocks[b]? = some block →
    ∀ (n : ℕ) (inst : LlvmInst), block.code[n]? = some inst →
      ∀ value ∈ inst.operands, value.Dominates (llvmEmitFunction func).params.length b n
  /-- Every alloca that is loaded has a store. -/
  loads_stored : ∀ block ∈ (llvmEmitFunction func).blocks, ∀ home, .load home ∈ block.code →
    ∃ other ∈ (llvmEmitFunction func).blocks, ∃ value, .store value home ∈ other.code
  /-- A call passes all of its arguments, and its function type takes them. -/
  calls : ∀ block ∈ (llvmEmitFunction func).blocks, ∀ inst type operands, .call inst type operands ∈ block.code →
    operands.length = inst.call.args.length + (calleeOperands inst.call).length ∧
      type.params <+: inst.call.args.map (irVregType func) ∧
      (type.vararg = false → type.params.length = inst.call.args.length)
  /-- Every parameter has its argument. -/
  params : ∀ (i : ℕ) (vreg : Vreg), func.params[i]? = some vreg →
    llvmParamValues func vreg = .param i ∧ i < (llvmEmitFunction func).params.length

/-- What the arrays and the scan of the code take. -/
structure LlvmFits (func : IrFunction) : Prop where
  params_le : func.params.length ≤ 64
  args_le : ∀ block ∈ func.blocks, ∀ inst ∈ block.insts, inst.op = .call → inst.call.args.length ≤ 64
  /-- The arguments in front of the ones of a `...` have the types of the first ones. -/
  varargs_last : ∀ block ∈ func.blocks, ∀ inst ∈ block.insts, inst.op = .call →
    ((inst.call.args.zipIdx.filter fun arg => !inst.call.argIsVararg.getD arg.2 false).map fun arg =>
      irVregType func arg.1) <+: inst.call.args.map (irVregType func)
  /-- The destination of an operation without a value is not read. -/
  no_value : ∀ block ∈ func.blocks, ∀ inst ∈ block.insts, inst.op ∈ [IrOp.nop, .store, .memcpy, .memset] →
    ∀ vreg, inst.dst = some vreg → ∀ p, vreg ∉ func.operandsAt p
  /-- In a block that no path leads to, a vreg that only this block uses is defined before it is read. -/
  ordered : ∀ b, ¬func.Reachable (b, 0) → ∀ (i j : ℕ) (vreg : Vreg), vreg ∈ func.operandsAt (b, i) →
    func.flow.Def (b, j) vreg → (∀ q, func.flow.Use q vreg → q.1 = b) → j < i

end Saad
