import Saad.General.Fuel
import Saad.X64.EmitCorrect

/-! # The runtime of the x64 backend

Functions that are written as text, with labels and jumps. A run notes the addresses that it reads. The
memory doesn't change, as no such function stores anything.
-/

namespace Saad

open General

/-- A line of such a function. -/
inductive X64Line
  | label (name : String)
  | inst (inst : X64Inst)
  | movsxLoad (dst : X64Reg) (width : ℕ) (addr : X64Mem)
  | aluImm (op : X64Alu) (width : ℕ) (dst : X64Reg) (imm : BitVec 64)
  | jmp (target : String)
  | jcc (cond : X64Cond) (target : String)
  | ret
deriving DecidableEq

/-- The bytes of a read. -/
def addressesFrom (addr : BitVec 64) (n : ℕ) : List (BitVec 64) :=
  (List.range n).map fun i => addr + BitVec.ofNat 64 i

section Texts

def X64Reg.text (width : ℕ) : X64Reg → String
  | .rax => if width = 4 then "eax" else "rax"
  | .rcx => if width = 4 then "ecx" else "rcx"
  | .rdx => if width = 4 then "edx" else "rdx"
  | .r8 => "r8"
  | .r9 => "r9"
  | .r10 => "r10"
  | .r11 => "r11"
  | _ => ""

def X64Mem.text : X64Mem → String
  | .base reg disp => "[" ++ reg.text 8 ++ (if disp = 0 then "" else "+" ++ toString disp) ++ "]"
  | .index reg other => "[" ++ reg.text 8 ++ " + " ++ other.text 8 ++ "]"
  | _ => ""

def X64Cond.text : X64Cond → String
  | .e => "e"
  | .ne => "ne"
  | .l => "l"
  | .le => "le"
  | .g => "g"
  | .ge => "ge"
  | .b => "b"
  | .be => "be"
  | .a => "a"
  | .ae => "ae"

/-- A mnemonic and its operands, in columns. -/
def x64Columns (mnemonic operands : String) : String :=
  "\t" ++ mnemonic ++ String.ofList (List.replicate (12 - mnemonic.length) ' ') ++ operands ++ "\n"

def x64Operands (first second : String) : String := first ++ ", " ++ second

/-- How a line is written. -/
def X64Line.text : X64Line → String
  | .label name => name ++ ":\n"
  | .inst (.load 8 dst addr) => x64Columns "mov" (x64Operands (dst.text 8) ("qword " ++ addr.text))
  | .inst (.alu .xor width dst src) => x64Columns "xor" (x64Operands (dst.text width) (src.text width))
  | .inst (.cmp width first second) => x64Columns "cmp" (x64Operands (first.text width) (second.text width))
  | .inst (.movImm 4 dst imm) => x64Columns "mov" (x64Operands (dst.text 4) (toString imm.toInt))
  | .movsxLoad dst 1 addr => x64Columns "movsx" (x64Operands (dst.text 4) ("byte " ++ addr.text))
  | .aluImm .add width dst imm => x64Columns "add" (x64Operands (dst.text width) (toString imm.toInt))
  | .jmp target => x64Columns "jmp" target
  | .jcc cond target => x64Columns ("j" ++ cond.text) target
  | .ret => "\tret\n"
  | _ => ""

end Texts

section Run

variable (symbolAddress : List (BitVec 8) → BitVec 64)

def X64Inst.readAddresses (state : X64State) : X64Inst → List (BitVec 64)
  | .load width _ addr | .movzxLoad _ width addr =>
    (addr.address symbolAddress state).elim [] fun at' => addressesFrom at' width
  | _ => []

variable (lines : List X64Line)

/-- Runs from a line on to the `ret`, which leaves the state and all addresses that were read. -/
def runLines : ℕ → ℕ → X64State → List (BitVec 64) → Option (X64State × List (BitVec 64))
  | 0, _, _, _ => none
  | fuel + 1, pc, state, reads =>
    match lines[pc]? with
    | none => none
    | some (.label _) => runLines fuel (pc + 1) state reads
    | some (.inst inst) => (inst.exec symbolAddress state).bind fun next =>
        runLines fuel (pc + 1) next (reads ++ inst.readAddresses symbolAddress state)
    | some (.movsxLoad dst width addr) => (addr.address symbolAddress state).bind fun at' =>
        runLines fuel (pc + 1) (state.setLow 4 dst ((readMem state.mem at' width).signExtend _))
          (reads ++ addressesFrom at' width)
    | some (.aluImm op width dst imm) =>
        runLines fuel (pc + 1)
          { state.setLow width dst (op.eval (state.low width dst) (imm.setWidth _)) with flags := none } reads
    | some (.jmp target) => runLines fuel (lines.idxOf (.label target)) state reads
    | some (.jcc cond target) => state.flags.bind fun flags =>
        runLines fuel (if cond.holds flags then lines.idxOf (.label target) else pc + 1) state reads
    | some .ret => some (state, reads)

/-- The run from a line on gives the state and the reads. -/
def GivesLines (pc : ℕ) (state : X64State) (reads : List (BitVec 64))
    (out : X64State × List (BitVec 64)) : Prop :=
  Gives (fun fuel => runLines symbolAddress lines fuel pc state reads) out

variable {symbolAddress lines} {pc : ℕ} {state next : X64State} {reads : List (BitVec 64)}
  {out : X64State × List (BitVec 64)} {target : String}

theorem GivesLines.label {name : String} (here : lines[pc]? = some (.label name))
    (rest : GivesLines symbolAddress lines (pc + 1) state reads out) :
    GivesLines symbolAddress lines pc state reads out := by
  apply Gives.step rest
  intro fuel
  rw [runLines, here]

theorem GivesLines.inst {inst : X64Inst} (here : lines[pc]? = some (.inst inst))
    (exec : inst.exec symbolAddress state = some next)
    (rest : GivesLines symbolAddress lines (pc + 1) next (reads ++ inst.readAddresses symbolAddress state) out) :
    GivesLines symbolAddress lines pc state reads out := by
  apply Gives.step rest
  intro fuel
  rw [runLines, here]
  simp only [exec, Option.bind_some]

/-- An instruction that reads no memory. -/
theorem GivesLines.quiet {inst : X64Inst} (here : lines[pc]? = some (.inst inst))
    (exec : inst.exec symbolAddress state = some next) (quiet : inst.readAddresses symbolAddress state = [])
    (rest : GivesLines symbolAddress lines (pc + 1) next reads out) :
    GivesLines symbolAddress lines pc state reads out := by
  apply GivesLines.inst here exec
  rw [quiet, List.append_nil]
  exact rest

/-- A load of a word behind the address in a register. -/
theorem GivesLines.load {dst base : X64Reg} {offset : ℕ} {mem : Memory} {addr : BitVec 64}
    (here : lines[pc]? = some (.inst (.load 8 dst (.base base offset)))) (mem_eq : state.mem = mem)
    (base_eq : state.regs base = addr)
    (rest : GivesLines symbolAddress lines (pc + 1)
      (state.setLow 8 dst (readMem mem (addr + BitVec.ofNat 64 offset) 8))
      (reads ++ addressesFrom (addr + BitVec.ofNat 64 offset) 8) out) :
    GivesLines symbolAddress lines pc state reads out := by
  have offset_eq : BitVec.ofInt 64 offset = BitVec.ofNat 64 offset := BitVec.ofInt_natCast 64 offset
  apply GivesLines.inst here
  · rw [X64Inst.exec, X64Mem.address, Option.map_some, base_eq, mem_eq, offset_eq]
  · rw [X64Inst.readAddresses, X64Mem.address, Option.elim_some, base_eq, offset_eq]
    exact rest

theorem GivesLines.movsxLoad {dst : X64Reg} {width : ℕ} {addr : X64Mem} {at' : BitVec 64}
    (here : lines[pc]? = some (.movsxLoad dst width addr))
    (address : addr.address symbolAddress state = some at')
    (rest : GivesLines symbolAddress lines (pc + 1)
      (state.setLow 4 dst ((readMem state.mem at' width).signExtend _)) (reads ++ addressesFrom at' width) out) :
    GivesLines symbolAddress lines pc state reads out := by
  apply Gives.step rest
  intro fuel
  rw [runLines, here]
  simp only [address, Option.bind_some]

theorem GivesLines.aluImm {op : X64Alu} {width : ℕ} {dst : X64Reg} {imm : BitVec 64}
    (here : lines[pc]? = some (.aluImm op width dst imm))
    (rest : GivesLines symbolAddress lines (pc + 1)
      { state.setLow width dst (op.eval (state.low width dst) (imm.setWidth _)) with flags := none } reads out) :
    GivesLines symbolAddress lines pc state reads out := by
  apply Gives.step rest
  intro fuel
  rw [runLines, here]

theorem GivesLines.jmp {there : ℕ} (here : lines[pc]? = some (.jmp target))
    (goes : lines.idxOf (.label target) = there) (rest : GivesLines symbolAddress lines there state reads out) :
    GivesLines symbolAddress lines pc state reads out := by
  apply Gives.step rest
  intro fuel
  rw [runLines, here]
  simp only [goes]

theorem GivesLines.jumps {cond : X64Cond} {flags : X64Flags} {there : ℕ}
    (here : lines[pc]? = some (.jcc cond target)) (known : state.flags = some flags)
    (holds : cond.holds flags = true) (goes : lines.idxOf (.label target) = there)
    (rest : GivesLines symbolAddress lines there state reads out) :
    GivesLines symbolAddress lines pc state reads out := by
  apply Gives.step rest
  intro fuel
  rw [runLines, here]
  simp only [known, Option.bind_some, holds, if_true, goes]

theorem GivesLines.stays {cond : X64Cond} {flags : X64Flags} (here : lines[pc]? = some (.jcc cond target))
    (known : state.flags = some flags) (fails : cond.holds flags = false)
    (rest : GivesLines symbolAddress lines (pc + 1) state reads out) :
    GivesLines symbolAddress lines pc state reads out := by
  apply Gives.step rest
  intro fuel
  rw [runLines, here]
  simp only [known, Option.bind_some, fails, Bool.false_eq_true, if_false]

theorem GivesLines.ret (here : lines[pc]? = some .ret) :
    GivesLines symbolAddress lines pc state reads (state, reads) := by
  apply Gives.step (Gives.of_eq fun _ => rfl)
  intro fuel
  rw [runLines, here]

end Run

end Saad
