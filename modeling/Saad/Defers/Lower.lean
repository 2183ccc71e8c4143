import Mathlib.Tactic.Common

/-! # Defers, tries and loops of the language

The statements that decide where control goes, and what a run of them means. The deferred statements
of a block run when the block is left, the last one first, whatever the way out; an error that
one of them throws, or a return in it, is the way out from there on. Calls and conditions are what
the environment makes of them, so that a result for every environment is one for every run.
-/

namespace Saad

section Syntax

mutual

/-- Loops are known by their node, as `EnclosingLoop` has it. An `else if` is an `if` in the else block. -/
inductive AstStatement where
  /-- A statement with calls, whose error is thrown. -/
  | call (id : ℕ)
  /-- `throw`: no error is thrown when the value is null. -/
  | throw (id : ℕ)
  /-- The values are taken before anything is left. -/
  | ret (values : ℕ)
  | breakOrContinue (isBreak : Bool) (loop : ℕ)
  | block (body : AstBlock)
  | ifElse (condition : ℕ) (thenBlock elseBlock : AstBlock)
  /-- `while` has a condition, `for` a condition and a step, and `for { ... }` neither. -/
  | loop (loop : ℕ) (condition step : Option ℕ) (body : AstBlock)
  | tryCatch (body handler : AstBlock)

/-- The statements of a block. Only a block has defers, and a defer is not deferred itself. -/
inductive AstBlock where
  | nil
  | statement (first : AstStatement) (rest : AstBlock)
  | deferred (statement : AstStatement) (rest : AstBlock)

end

mutual

def AstStatement.size : AstStatement → ℕ
  | .call _ | .throw _ | .ret _ | .breakOrContinue _ _ => 1
  | .block body => body.size + 1
  | .ifElse _ thenBlock elseBlock => thenBlock.size + elseBlock.size + 1
  | .loop _ _ _ body => body.size + 1
  | .tryCatch body handler => body.size + handler.size + 1

def AstBlock.size : AstBlock → ℕ
  | .nil => 1
  | .statement first rest => first.size + rest.size + 1
  | .deferred statement rest => statement.size + rest.size + 2

end

mutual

/-- A break or continue is of a loop around it, and a loop is no loop around itself. -/
def AstStatement.Scoped (loops : List ℕ) : AstStatement → Prop
  | .call _ | .throw _ | .ret _ => True
  | .breakOrContinue _ loop => loop ∈ loops
  | .block body => body.Scoped loops
  | .ifElse _ thenBlock elseBlock => thenBlock.Scoped loops ∧ elseBlock.Scoped loops
  | .loop loop _ _ body => loop ∉ loops ∧ body.Scoped (loop :: loops)
  | .tryCatch body handler => body.Scoped loops ∧ handler.Scoped loops

def AstBlock.Scoped (loops : List ℕ) : AstBlock → Prop
  | .nil => True
  | .statement first rest => first.Scoped loops ∧ rest.Scoped loops
  | .deferred statement rest => statement.Scoped loops ∧ rest.Scoped loops

end

/-- The body of a function, as the typer accepts it. -/
structure FunctionBody where
  block : AstBlock
  well_scoped : block.Scoped []

end Syntax

/-- What calls, conditions and steps of loops do to the state, and which error they throw. -/
structure Environment (σ ε : Type) where
  call : ℕ → σ → σ × Option ε
  condition : ℕ → σ → σ × Except ε Bool
  step : ℕ → σ → σ
  /-- The variable of a handler gets the error. -/
  catchError : ε → σ → σ

/-- Where a jump out of a statement goes. -/
inductive Exit where
  | ret
  | loop (isBreak : Bool) (loop : ℕ)
deriving DecidableEq, Repr

/-- How a statement is left. An exit has crossed a try when it comes out of the body of one. -/
inductive Outcome (ε : Type) where
  | normal
  | leaves (exit : Exit) (crossed : Bool)
  | thrown (error : ε)
  | timeout
deriving DecidableEq, Repr

def Outcome.crossed {ε : Type} : Outcome ε → Bool
  | .leaves _ crossed => crossed
  | _ => false

/-- The state of a run, and whether an error was thrown where the lowered code loses its way: in a
deferred statement that runs as an exit has crossed a try, and in no try of its own. -/
structure RunState (σ : Type) where
  env : σ
  strayed : Bool := false
deriving DecidableEq, Repr

/-- Take turns until one has a result, at most `fuel` of them. -/
def takeTurns {S R : Type} (turn : S → S × Option R) (timeout : R) : ℕ → S → S × R
  | 0, state => (state, timeout)
  | fuel + 1, state =>
    match turn state with
    | (state, some result) => (state, result)
    | (state, none) => takeTurns turn timeout fuel state

section Meaning

variable {σ ε : Type} (env : Environment σ ε)

/-- A result of a call. `stray` says that an error thrown here loses its way in the code. -/
def called (stray : Bool) (strayed : Bool) : σ × Option ε → RunState σ × Outcome ε
  | (state, none) => ({ env := state, strayed }, .normal)
  | (state, some error) => ({ env := state, strayed := strayed || stray }, .thrown error)

def runCall (stray : Bool) (id : ℕ) (state : RunState σ) : RunState σ × Outcome ε :=
  called stray state.strayed (env.call id state.env)

/-- The statement goes on with what the condition decides, which is true when there is none. -/
def runCondition (stray : Bool) (condition : Option ℕ) (state : RunState σ) :
    RunState σ × Except ε Bool :=
  match condition with
  | none => (state, .ok true)
  | some condition =>
    match env.condition condition state.env with
    | (next, .ok decision) => ({ state with env := next }, .ok decision)
    | (next, .error error) => ({ env := next, strayed := state.strayed || stray }, .error error)

def runStep (step : Option ℕ) (state : σ) : σ :=
  match step with
  | none => state
  | some step => env.step step state

/-- One turn of a loop: its condition, its body, and its step unless the loop is left. -/
def runTurn (stray : Bool) (loop : ℕ) (condition step : Option ℕ)
    (body : RunState σ → RunState σ × Outcome ε) (state : RunState σ) :
    RunState σ × Option (Outcome ε) :=
  match runCondition env stray condition state with
  | (state, .error error) => (state, some (.thrown error))
  | (state, .ok false) => (state, some .normal)
  | (state, .ok true) =>
    match body state with
    | (state, .normal) => ({ state with env := runStep env step state.env }, none)
    | (state, .leaves (.loop isBreak left) crossed) =>
      if left = loop then
        if isBreak then (state, some .normal)
        else ({ state with env := runStep env step state.env }, none)
      else (state, some (.leaves (.loop isBreak left) crossed))
    | (state, outcome) => (state, some outcome)

/-- A deferred statement on the way out of its block. It runs once, and what leaves it is the way out
from there on. -/
def runDeferred (run : Bool → RunState σ → RunState σ × Outcome ε) (stray : Bool) :
    RunState σ × Outcome ε → RunState σ × Outcome ε
  | (state, .timeout) => (state, .timeout)
  | (state, pending) =>
    match run (stray || pending.crossed) state with
    | (state, .normal) => (state, pending)
    | result => result

mutual

def AstStatement.exec (fuel : ℕ) (stray : Bool) :
    AstStatement → RunState σ → RunState σ × Outcome ε
  | .call id, state => runCall env stray id state
  | .throw id, state => runCall env stray id state
  | .ret values, state =>
    match runCall env stray values state with
    | (state, .normal) => (state, .leaves .ret stray)
    | result => result
  | .breakOrContinue isBreak loop, state => (state, .leaves (.loop isBreak loop) stray)
  | .block body, state => body.exec fuel stray state
  | .ifElse condition thenBlock elseBlock, state =>
    match runCondition env stray (some condition) state with
    | (state, .error error) => (state, .thrown error)
    | (state, .ok true) => thenBlock.exec fuel stray state
    | (state, .ok false) => elseBlock.exec fuel stray state
  | .loop loop condition step body, state =>
    takeTurns (runTurn env stray loop condition step fun state => body.exec fuel stray state)
      .timeout fuel state
  | .tryCatch body handler, state =>
    match body.exec fuel false state with
    | (state, .thrown error) =>
      handler.exec fuel stray { state with env := env.catchError error state.env }
    | (state, .leaves exit _) => (state, .leaves exit true)
    | result => result

def AstBlock.exec (fuel : ℕ) (stray : Bool) : AstBlock → RunState σ → RunState σ × Outcome ε
  | .nil, state => (state, .normal)
  | .statement first rest, state =>
    match first.exec fuel stray state with
    | (state, .normal) => rest.exec fuel stray state
    | result => result
  | .deferred statement rest, state =>
    runDeferred (fun stray state => statement.exec fuel stray state) stray
      (rest.exec fuel stray state)

end

end Meaning

end Saad

/-! # Lowering defers to jumps

The lowerer keeps the defers, tries and loops around the statement that it lowers, and writes the
deferred statements again at each way out. The code is the control flow graph as it is built: every
construct has its own blocks, a jump goes to the block behind or at the start of a loop or to the
catch of a try around it, and what comes behind a jump is not reached.
-/

namespace Saad

/-- The block that a jump goes to. The catch is the one of the innermost try around the jump. -/
inductive JumpTarget where
  | loop (isBreak : Bool) (loop : ℕ)
  | catchBlock
deriving DecidableEq, Repr

inductive Code where
  | skip
  | seq (first second : Code)
  /-- `emit_throw_check`: the call, and where control goes when it threw. -/
  | call (id : ℕ) (unwind : Code)
  /-- `emit_throw`: control goes on if the error is null. -/
  | throw (id : ℕ) (unwind : Code)
  | branch (condition : ℕ) (unwind thenCode elseCode : Code)
  | loop (loop : ℕ) (condition : Option ℕ) (unwind : Code) (step : Option ℕ) (body : Code)
  | tryCatch (body handler : Code)
  | jump (target : JumpTarget)
  /-- `terminate_return`. -/
  | ret (threw : Bool)
  /-- The error that is being thrown is put aside, and thrown on behind the code. -/
  | parked (code : Code)

section Lowerer

structure LoopTargets where
  loop : ℕ
  deferCount : ℕ

/-- What is active at a statement, the innermost first: the deferred statements, the number of
defers at each try, and the loops. -/
structure Lowerer where
  defers : List AstStatement := []
  tries : List ℕ := []
  loops : List LoopTargets := []

namespace Lowerer

variable (L : Lowerer)

def pushDefer (statement : AstStatement) : Lowerer := { L with defers := statement :: L.defers }

def pushTry : Lowerer := { L with tries := L.defers.length :: L.tries }

def pushLoop (loop : ℕ) : Lowerer := { L with loops := ⟨loop, L.defers.length⟩ :: L.loops }

/-- How much there is to lower in the active defers. -/
def size : List AstStatement → ℕ
  | [] => 0
  | statement :: below => statement.size + 1 + size below

/-- The innermost of the loops with that node. -/
def findLoop (loop : ℕ) : Option LoopTargets := L.loops.find? fun targets => targets.loop = loop

end Lowerer

/-- Runs the defers above `downTo` while an error is thrown. -/
def emitDefersWhileThrowing (L : Lowerer) (emitDefers : ℕ → Code) (downTo : ℕ) : Code :=
  if L.defers.length ≤ downTo then .skip else .parked (emitDefers downTo)

/-- Leaves for the catch of the innermost try, or returns from the function. -/
def emitUnwind (L : Lowerer) (emitDefers : ℕ → Code) : Code :=
  match L.tries with
  | deferCount :: _ => .seq (emitDefersWhileThrowing L emitDefers deferCount) (.jump .catchBlock)
  | [] => .seq (emitDefersWhileThrowing L emitDefers 0) (.ret true)

mutual

def lowerStatement (L : Lowerer) : AstStatement → Code
  | .call id => .call id (emitUnwind L (emitDefers L))
  | .throw id => .throw id (emitUnwind L (emitDefers L))
  | .ret values =>
    .seq (.call values (emitUnwind L (emitDefers L))) (.seq (emitDefers L 0) (.ret false))
  | .breakOrContinue isBreak loop =>
    match L.findLoop loop with
    | some targets => .seq (emitDefers L targets.deferCount) (.jump (.loop isBreak loop))
    | none => .skip
  | .block body => lowerBlock L L.defers.length body
  | .ifElse condition thenBlock elseBlock =>
    .branch condition (emitUnwind L (emitDefers L)) (lowerBlock L L.defers.length thenBlock)
      (lowerBlock L L.defers.length elseBlock)
  | .loop loop condition step body =>
    .loop loop condition (emitUnwind L (emitDefers L)) step
      (lowerBlock (L.pushLoop loop) L.defers.length body)
  | .tryCatch body handler =>
    .tryCatch (lowerBlock L.pushTry L.defers.length body) (lowerBlock L L.defers.length handler)
termination_by statement => (Lowerer.size L.defers + statement.size, 1)
decreasing_by
  all_goals
    simp only [Prod.lex_def, AstStatement.size, Lowerer.pushTry, Lowerer.pushLoop]
    omega

/-- The statements of a block whose own defers are those above `defers`. -/
def lowerBlock (L : Lowerer) (defers : ℕ) : AstBlock → Code
  | .nil => emitDefers L defers
  | .statement first rest => .seq (lowerStatement L first) (lowerBlock L defers rest)
  | .deferred statement rest => lowerBlock (L.pushDefer statement) defers rest
termination_by block => (Lowerer.size L.defers + block.size, 1)
decreasing_by
  all_goals
    simp only [Prod.lex_def, AstBlock.size, Lowerer.size, Lowerer.pushDefer]
    omega

/-- Runs the deferred statements above `downTo`, the last one first. Each runs with only the defers
below it active, and with all tries and loops of the place where it is lowered. -/
def emitDefers (L : Lowerer) (downTo : ℕ) : Code :=
  match _ : L.defers with
  | [] => .skip
  | statement :: below =>
    if L.defers.length ≤ downTo then .skip
    else .seq (lowerStatement { L with defers := below } statement)
      (emitDefers { L with defers := below } downTo)
termination_by (Lowerer.size L.defers, 0)
decreasing_by
  all_goals
    simp only [Prod.lex_def, Lowerer.size, *]
    omega

end

/-- The body of a function. It returns 0 at its end. -/
def lowerFunction (body : FunctionBody) : Code := .seq (lowerBlock {} 0 body.block) (.ret false)

end Lowerer

/-- The machine, with the error that is being thrown in the global `thrownError`. -/
structure Machine (σ ε : Type) where
  env : σ
  thrownError : Option ε := none
deriving DecidableEq, Repr

/-- Where control is behind a piece of code. -/
inductive CodeOutcome where
  | done
  | jumps (target : JumpTarget)
  | returns (threw : Bool)
  | timeout
deriving DecidableEq, Repr

section Execution

variable {σ ε : Type} (env : Environment σ ε)

/-- The way on from a call that may have thrown. -/
def checkThrow (unwind : Machine σ ε → Machine σ ε × CodeOutcome) (before : Option ε) :
    σ × Option ε → Machine σ ε × CodeOutcome
  | (state, none) => (⟨state, before⟩, .done)
  | (state, some error) => unwind ⟨state, some error⟩

/-- One turn through the blocks of a loop. -/
def loopTurn (loop : ℕ) (condition step : Option ℕ)
    (unwind body : Machine σ ε → Machine σ ε × CodeOutcome) (machine : Machine σ ε) :
    Machine σ ε × Option CodeOutcome :=
  match condition.elim (machine.env, .ok true) (env.condition · machine.env) with
  | (state, .error error) =>
    let (machine, outcome) := unwind ⟨state, some error⟩
    (machine, some outcome)
  | (state, .ok false) => (⟨state, machine.thrownError⟩, some .done)
  | (state, .ok true) =>
    match body ⟨state, machine.thrownError⟩ with
    | (machine, .done) => ({ machine with env := runStep env step machine.env }, none)
    | (machine, .jumps (.loop isBreak left)) =>
      if left = loop then
        if isBreak then (machine, some .done)
        else ({ machine with env := runStep env step machine.env }, none)
      else (machine, some (.jumps (.loop isBreak left)))
    | (machine, outcome) => (machine, some outcome)

def Code.run (fuel : ℕ) : Code → Machine σ ε → Machine σ ε × CodeOutcome
  | .skip, machine => (machine, .done)
  | .seq first second, machine =>
    match first.run fuel machine with
    | (machine, .done) => second.run fuel machine
    | result => result
  | .call id unwind, machine =>
    checkThrow (fun machine => unwind.run fuel machine) machine.thrownError (env.call id machine.env)
  | .throw id unwind, machine =>
    checkThrow (fun machine => unwind.run fuel machine) machine.thrownError (env.call id machine.env)
  | .branch condition unwind thenCode elseCode, machine =>
    match env.condition condition machine.env with
    | (state, .error error) => unwind.run fuel ⟨state, some error⟩
    | (state, .ok true) => thenCode.run fuel ⟨state, machine.thrownError⟩
    | (state, .ok false) => elseCode.run fuel ⟨state, machine.thrownError⟩
  | .loop key condition unwind step body, machine =>
    takeTurns (loopTurn env key condition step (fun machine => unwind.run fuel machine)
      fun machine => body.run fuel machine) .timeout fuel machine
  | .tryCatch body handler, machine =>
    match body.run fuel machine with
    | (machine, .jumps .catchBlock) =>
      handler.run fuel
        ⟨machine.thrownError.elim machine.env (env.catchError · machine.env), none⟩
    | result => result
  | .jump target, machine => (machine, .jumps target)
  | .ret threw, machine => (machine, .returns threw)
  | .parked code, machine =>
    match code.run fuel { machine with thrownError := none } with
    | (after, .done) => ({ after with thrownError := machine.thrownError }, .done)
    | result => result

end Execution

end Saad
