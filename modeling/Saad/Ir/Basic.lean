import Mathlib.Data.BitVec

/-! # The intermediate representation

Types, instructions, blocks and functions of the IR, and which vregs an instruction reads. A vreg is
its number; `none` is `IR_NO_VREG`. A block pointer is the id of the block, `none` for `NULL`. The
placed blocks of a function are in layout order, and the ones that were only created stand apart:
a function can still point to them. Lines and scopes, which only the debug information reads, and
the names of blocks, slots and locals, which only dumps read, are left out.
-/

namespace Saad

inductive IrType
  | void | i8 | i16 | i32 | i64 | f32 | f64 | ptr
deriving DecidableEq, Repr, Inhabited

def irTypeSize : IrType → ℕ
  | .void => 0
  | .i8 => 1
  | .i16 => 2
  | .i32 => 4
  | .i64 => 8
  | .f32 => 4
  | .f64 => 8
  | .ptr => 8

/-- `i8` to `i64`, not `ptr`. -/
def irTypeIsInt : IrType → Bool
  | .i8 | .i16 | .i32 | .i64 => true
  | _ => false

def irTypeIsIntOrPtr (type : IrType) : Bool := irTypeIsInt type || type == .ptr

def irTypeIsFloat (type : IrType) : Bool := type == .f32 || type == .f64

def irTypeName : IrType → String
  | .void => "void"
  | .i8 => "i8"
  | .i16 => "i16"
  | .i32 => "i32"
  | .i64 => "i64"
  | .f32 => "f32"
  | .f64 => "f64"
  | .ptr => "ptr"

inductive IrOp
  | nop
  | const | constFloat | copy | slotAddr | globalAddr
  | load | store | ptrAdd | memcpy | memset
  | add | sub | mul | sdiv | udiv | srem | urem | and | or | xor | shl | lshr | ashr | neg | not
  | fadd | fsub | fmul | fdiv | fneg
  | icmp | fcmp
  | sext | zext | trunc | sitofp | uitofp | fptosi | fptoui | fpext | fptrunc | bitcast
  | call
deriving DecidableEq, Repr, Inhabited

def irOpName : IrOp → String
  | .nop => "nop"
  | .const => "const"
  | .constFloat => "fconst"
  | .copy => "copy"
  | .slotAddr => "slot_addr"
  | .globalAddr => "global_addr"
  | .load => "load"
  | .store => "store"
  | .ptrAdd => "ptradd"
  | .memcpy => "memcpy"
  | .memset => "memset"
  | .add => "add"
  | .sub => "sub"
  | .mul => "mul"
  | .sdiv => "sdiv"
  | .udiv => "udiv"
  | .srem => "srem"
  | .urem => "urem"
  | .and => "and"
  | .or => "or"
  | .xor => "xor"
  | .shl => "shl"
  | .lshr => "lshr"
  | .ashr => "ashr"
  | .neg => "neg"
  | .not => "not"
  | .fadd => "fadd"
  | .fsub => "fsub"
  | .fmul => "fmul"
  | .fdiv => "fdiv"
  | .fneg => "fneg"
  | .icmp => "icmp"
  | .fcmp => "fcmp"
  | .sext => "sext"
  | .zext => "zext"
  | .trunc => "trunc"
  | .sitofp => "sitofp"
  | .uitofp => "uitofp"
  | .fptosi => "fptosi"
  | .fptoui => "fptoui"
  | .fpext => "fpext"
  | .fptrunc => "fptrunc"
  | .bitcast => "bitcast"
  | .call => "call"

inductive IrCmp
  | none
  | eq | ne | slt | sle | sgt | sge | ult | ule | ugt | uge
  | oeq | une | olt | ole | ogt | oge
deriving DecidableEq, Repr, Inhabited

def irCmpIsInt : IrCmp → Bool
  | .eq | .ne | .slt | .sle | .sgt | .sge | .ult | .ule | .ugt | .uge => true
  | _ => false

def irCmpIsFloat : IrCmp → Bool
  | .oeq | .une | .olt | .ole | .ogt | .oge => true
  | _ => false

/-- The number of a virtual register. -/
abbrev Vreg := ℕ

inductive IrAddrKind
  | none | vreg | slot | global
deriving DecidableEq, Repr, Inhabited

/-- The address of a load or store: `base` is a vreg, slot or global index by its kind. -/
structure IrAddr where
  kind : IrAddrKind := .none
  base : ℕ := 0
  offset : ℤ := 0
deriving DecidableEq, Repr, Inhabited

inductive IrCalleeKind
  | direct | vreg
deriving DecidableEq, Repr, Inhabited

structure IrCall where
  calleeKind : IrCalleeKind := .direct
  /-- A global index or a vreg. -/
  callee : ℕ := 0
  returnType : IrType := .void
  args : List (Option Vreg) := []
  /-- The arguments that a C `...` parameter takes. -/
  argIsVararg : List Bool := []
deriving DecidableEq, Repr, Inhabited

/-- One instruction. `call` is only read for a call, and `fimm` is the bits of the double. -/
structure IrInst where
  op : IrOp
  type : IrType := .void
  cmp : IrCmp := .none
  dst : Option Vreg := none
  a : Option Vreg := none
  b : Option Vreg := none
  addr : IrAddr := {}
  imm : BitVec 64 := 0
  imm2 : BitVec 64 := 0
  fimm : BitVec 64 := 0
  call : IrCall := {}
deriving DecidableEq, Repr, Inhabited

/-- How a block ends. `none` is a block that was never terminated. -/
inductive IrTerm
  | none
  | jmp (target : Option ℕ)
  | br (cond : Option Vreg) (target elseTarget : Option ℕ)
  | ret (value : Option Vreg)
deriving DecidableEq, Repr, Inhabited

structure IrBlock where
  id : ℕ
  /-- Position in the layout, as `irFunctionFinalize` set it last. -/
  index : ℕ := 0
  insts : List IrInst := []
  term : IrTerm := .none
deriving DecidableEq, Repr, Inhabited

/-- A place on the stack. `ir_new_slot` raises a missing alignment to 1. -/
structure IrSlot where
  size : ℕ
  align : ℕ
  align_pos : 0 < align := by decide
deriving DecidableEq, Repr

/-- A function. Every block has an id of its own, as `ir_block_new` numbers them. -/
structure IrFunction where
  returnType : IrType := .void
  vregTypes : List IrType := []
  /-- The vreg of each incoming parameter, in the order of the calling convention. -/
  params : List Vreg := []
  slots : List IrSlot := []
  /-- The placed blocks in layout order. The first one is the entry block. -/
  blocks : List IrBlock := []
  /-- The blocks that were created but never placed. -/
  unplaced : List IrBlock := []
  ids_nodup : ((blocks ++ unplaced).map IrBlock.id).Nodup := by decide
deriving DecidableEq, Repr

inductive IrGlobalKind
  | data | function | external
deriving DecidableEq, Repr, Inhabited

/-- A pointer in the data of a global: where it goes and the global it points to. -/
structure IrReloc where
  offset : ℕ
  target : ℕ
deriving DecidableEq, Repr, Inhabited

/-- A symbol of the module. A name is its bytes, without the NUL at the end. -/
structure IrGlobal where
  kind : IrGlobalKind
  name : List (BitVec 8)
  readonly : Bool := false
  align : ℕ := 1
  data : List (BitVec 8) := []
  relocs : List IrReloc := []
  /-- A function of the program, which gives its name to a C function with the same name. -/
  isSaad : Bool := false
  library : Option (List (BitVec 8)) := none
deriving DecidableEq, Repr, Inhabited

namespace IrFunction

variable (func : IrFunction)

def vregCount : ℕ := func.vregTypes.length

/-- The block that a pointer leads to, placed or not. -/
def deref (id : ℕ) : Option IrBlock := (func.blocks ++ func.unplaced).find? (·.id == id)

def isPlaced (target : Option ℕ) : Bool :=
  target.any fun id => func.blocks.any (·.id == id)

theorem deref_of_mem {block : IrBlock} (mem : block ∈ func.blocks ++ func.unplaced) :
    func.deref block.id = some block := by
  cases found : func.deref block.id with
  | none => exact absurd (beq_self_eq_true block.id) (by simpa using List.find?_eq_none.mp found block mem)
  | some other =>
    have same : other.id = block.id := by simpa using List.find?_some found
    exact congrArg some
      (List.inj_on_of_nodup_map func.ids_nodup (List.mem_of_find?_eq_some found) mem same)

theorem mem_of_deref {id : ℕ} {block : IrBlock} (found : func.deref id = some block) :
    block ∈ func.blocks ++ func.unplaced ∧ block.id = id :=
  ⟨List.mem_of_find?_eq_some found, by simpa using List.find?_some found⟩

end IrFunction

def irVregType (func : IrFunction) (vreg : Option Vreg) : IrType :=
  match vreg with
  | none => .void
  | some vreg => func.vregTypes.getD vreg .void

def irBlockSuccessors (block : IrBlock) : List (Option ℕ) :=
  match block.term with
  | .jmp target => [target]
  | .br _ target elseTarget => [target, elseTarget]
  | _ => []

/-! ## Uses and definitions -/

/-- The vregs that an instruction reads, in the order that `ir_inst_use` numbers them. A missing
argument of a call is no vreg; the verifier reports it. -/
def irInstUses (inst : IrInst) : List Vreg :=
  inst.a.toList ++ inst.b.toList ++
  (if (inst.op = .load ∨ inst.op = .store) ∧ inst.addr.kind = .vreg then [inst.addr.base] else []) ++
  (if inst.op = .call then
    (if inst.call.calleeKind = .vreg then [inst.call.callee] else []) ++ inst.call.args.reduceOption
  else [])

/-- Calls and what becomes a call: they clobber the caller-saved registers. -/
def irInstIsCallLike (inst : IrInst) : Bool :=
  inst.op == .call || inst.op == .memcpy || inst.op == .memset

def irTermUses : IrTerm → List Vreg
  | .br cond _ _ => cond.toList
  | .ret value => value.toList
  | _ => []

end Saad
