import Saad.General.Fuel
import Saad.X64.Machine

/-! # Parallel moves

Parameters and arguments are moved to their places as if all moves happened at once. A move is
ready once no other pending move reads its destination; a cycle is broken with a scratch register.
-/

namespace Saad

open General

/-! ## The instructions of moves -/

def X64Reg.isXmm : X64Reg → Bool
  | .xmm0 | .xmm1 | .xmm2 | .xmm3 | .xmm4 | .xmm5 | .xmm6 | .xmm7
  | .xmm8 | .xmm9 | .xmm10 | .xmm11 | .xmm12 | .xmm13 | .xmm14 | .xmm15 => true
  | _ => false

/-- The moves between registers and memory. -/
inductive X64MoveInst where
  | mov (dst src : X64Reg)
  | movaps (dst src : X64Reg)
  | movq (dst src : X64Reg)
  | movImm (dst : X64Reg) (imm : BitVec 64)
  | movLoad (dst base : X64Reg) (offset : ℤ)
  | movsdLoad (dst base : X64Reg) (offset : ℤ)
  | movStore (base : X64Reg) (offset : ℤ) (src : X64Reg)
  | movsdStore (base : X64Reg) (offset : ℤ) (src : X64Reg)
deriving DecidableEq, Repr

/-- The low 64 bits of every register, the high 64 bits of the xmm registers, and the memory. -/
structure X64MoveState where
  regs : X64Reg → BitVec 64
  upper : X64Reg → BitVec 64
  mem : Memory

namespace X64MoveState

def write (state : X64MoveState) (reg : X64Reg) (low high : BitVec 64) : X64MoveState :=
  { state with
    regs := Function.update state.regs reg low
    upper := Function.update state.upper reg high }

def address (state : X64MoveState) (base : X64Reg) (offset : ℤ) : BitVec 64 :=
  state.regs base + BitVec.ofInt 64 offset

end X64MoveState

/-- Runs a move. An instruction with a register of the wrong kind does not exist. -/
def X64MoveInst.exec (inst : X64MoveInst) (state : X64MoveState) : Option X64MoveState :=
  match inst with
  | .mov dst src =>
    if dst.isXmm || src.isXmm then none else some (state.write dst (state.regs src) (state.upper dst))
  | .movaps dst src =>
    if dst.isXmm && src.isXmm then some (state.write dst (state.regs src) (state.upper src)) else none
  | .movq dst src =>
    if dst.isXmm then some (state.write dst (state.regs src) 0)
    else if src.isXmm then some (state.write dst (state.regs src) (state.upper dst)) else none
  | .movImm dst imm => if dst.isXmm then none else some (state.write dst imm (state.upper dst))
  | .movLoad dst base offset =>
    if dst.isXmm || base.isXmm then none
    else some (state.write dst (readMem state.mem (state.address base offset) 8) (state.upper dst))
  | .movsdLoad dst base offset =>
    if dst.isXmm && !base.isXmm then some (state.write dst (readMem state.mem (state.address base offset) 8) 0)
    else none
  | .movStore base offset src =>
    if src.isXmm || base.isXmm then none
    else some { state with mem := writeMem state.mem (state.address base offset) 8 (state.regs src) }
  | .movsdStore base offset src =>
    if src.isXmm && !base.isXmm then
      some { state with mem := writeMem state.mem (state.address base offset) 8 (state.regs src) }
    else none

/-! ## Moves -/

/-- A register, or memory at a base register with an offset. -/
inductive MovePlace where
  | reg (dst : X64Reg)
  | mem (base : X64Reg) (offset : ℤ)
deriving DecidableEq, Repr

inductive MoveOperand where
  | place (place : MovePlace)
  | imm (imm : BitVec 64)
deriving DecidableEq, Repr

structure Move where
  dst : MovePlace
  src : MoveOperand
  done : Bool := false
deriving DecidableEq, Repr

/-- The register field: the register, or the base of the memory. -/
def MovePlace.register : MovePlace → X64Reg
  | .reg dst => dst
  | .mem base _ => base

def MovePlace.isMem : MovePlace → Bool
  | .reg _ => false
  | .mem _ _ => true

/-- Full register copy: `x64_move_reg`, with xmm registers too. -/
def x64MoveAnyReg (dst src : X64Reg) : List X64MoveInst :=
  if dst = src then []
  else if dst.isXmm && src.isXmm then [.movaps dst src]
  else if dst.isXmm then [.movq dst src]
  else if src.isXmm then [.movq dst src]
  else [.mov dst src]

/-- Into a register, from anywhere. A number is never moved into an xmm register. -/
def x64MoveIntoReg (dst : X64Reg) : MoveOperand → List X64MoveInst
  | .place (.reg src) => x64MoveAnyReg dst src
  | .place (.mem base offset) => if dst.isXmm then [.movsdLoad dst base offset] else [.movLoad dst base offset]
  | .imm imm => [.movImm dst imm]

def x64MoveIntoMem (base : X64Reg) (offset : ℤ) (src : X64Reg) : List X64MoveInst :=
  if src.isXmm then [.movsdStore base offset src] else [.movStore base offset src]

/-- Memory and numbers go into memory through r11. -/
def x64EmitMove (dst : MovePlace) (src : MoveOperand) : List X64MoveInst :=
  match dst, src with
  | .reg dst, src => x64MoveIntoReg dst src
  | .mem base offset, .place (.reg src) => x64MoveIntoMem base offset src
  | .mem base offset, src => x64MoveIntoReg .r11 src ++ x64MoveIntoMem base offset .r11

def moveReadsReg (src : MoveOperand) (reg : X64Reg) : Bool := decide (src = .place (.reg reg))

/-! ## All moves at once -/

/-- The moves into memory come first. -/
def x64StoreMoves : List Move → List X64MoveInst × List Move
  | [] => ([], [])
  | move :: moves =>
    let rest := x64StoreMoves moves
    if move.dst.isMem then (x64EmitMove move.dst move.src ++ rest.1, { move with done := true } :: rest.2)
    else (rest.1, move :: rest.2)

/-- What a round over the moves has emitted, the moves after it, and its two flags. -/
structure MoveRound where
  code : List X64MoveInst
  moves : List Move
  pending : Bool
  progress : Bool
deriving DecidableEq, Repr

/-- A pending move other than this one reads its destination. -/
def Move.blocked (move : Move) (others : List Move) : Bool :=
  others.any fun other => !other.done && moveReadsReg other.src move.dst.register

/-- A round over the moves that are left, after the ones before them. -/
def x64MoveRound (before : List Move) : List Move → MoveRound
  | [] => { code := [], moves := before, pending := false, progress := false }
  | move :: after =>
    if move.done then x64MoveRound (before ++ [move]) after
    else if moveReadsReg move.src move.dst.register then x64MoveRound (before ++ [{ move with done := true }]) after
    else if move.blocked (before ++ after) then
      { x64MoveRound (before ++ [move]) after with pending := true }
    else
      let rest := x64MoveRound (before ++ [{ move with done := true }]) after
      { rest with
        code := x64EmitMove move.dst move.src ++ rest.code
        pending := true
        progress := true }

/-- The scratch register for the value of another one. -/
def moveScratch (reg : X64Reg) : X64Reg := if reg.isXmm then .xmm15 else .r11

/-- The pending moves that read the register read its scratch register from now on. -/
def moveRedirect (reg : X64Reg) (moves : List Move) : List Move :=
  moves.map fun move =>
    if !move.done && moveReadsReg move.src reg then { move with src := .place (.reg (moveScratch reg)) } else move

/-- Saves the source of the first pending move. A number has no register to save. -/
def x64BreakCycle (moves : List Move) : Option (List X64MoveInst × List Move) :=
  match moves.find? fun move => !move.done with
  | none => some ([], moves)
  | some move =>
    match move.src with
    | .imm _ => none
    | .place place =>
      some (x64MoveAnyReg (moveScratch place.register) place.register, moveRedirect place.register moves)

/-- The rounds until no move is pending. -/
def x64MoveRounds : ℕ → List Move → Option (List X64MoveInst)
  | 0, _ => none
  | fuel + 1, moves =>
    let round := x64MoveRound [] moves
    if !round.pending then some round.code
    else if round.progress then (x64MoveRounds fuel round.moves).map (round.code ++ ·)
    else
      match x64BreakCycle round.moves with
      | none => none
      | some (save, moves) => (x64MoveRounds fuel moves).map (round.code ++ save ++ ·)

/-- Performs all moves as if they happened at the same time. -/
def x64ParallelMove (fuel : ℕ) (moves : List Move) : Option (List X64MoveInst) :=
  let stores := x64StoreMoves moves
  (x64MoveRounds fuel stores.2).map (stores.1 ++ ·)

-- A cycle of two registers with a move that hangs on it.
example : x64ParallelMove 8
    [{ dst := .reg .rcx, src := .place (.reg .rdx) }, { dst := .reg .rdx, src := .place (.reg .rcx) },
      { dst := .reg .r8, src := .place (.reg .rcx) }] =
    some [.mov .r8 .rcx, .mov .r11 .rdx, .mov .rdx .rcx, .mov .rcx .r11] := by rfl

end Saad
