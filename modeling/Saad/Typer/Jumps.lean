import Mathlib.Tactic.Common

/-! # Breaks, returns and defers in the typer

The typer knows the loop and the function around a statement by two fields, `enclosing_loop` and
`enclosing_function`, that loops, functions and calls of unchecked functions set and give back.
A statement is kept with what decides where control may go: everything else that the
typer finds wrong is `Uses.mistyped`. Each check also records what happened, with the place in the
program where the statement stands; the check never reads that place.
-/

namespace Saad.Typer

section Syntax

mutual

/-- The statements of `check_statement`. -/
inductive Statement where
  | breakOrContinue
  | ret (values : Uses)
  | declaration (uses : Uses)
  /-- Assignments, expressions, `throw` and `assert`. -/
  | simple (uses : Uses)
  | block (body : Statements)
  /-- An `if` without an else has the else block `nil`. -/
  | ifElse (condition : Uses) (thenBlock elseIfs elseBlock : Statements)
  /-- A `for` or a `while`, with the node that `EnclosingLoop` has of it. -/
  | loop (node : ℕ) (header : Uses) (body : Statements)
  /-- The cases as the chain of ifs that `check_switch` makes of them, and what it finds after them. -/
  | switch (subject : Uses) (chain : Statement) (rest : Uses)
  | tryCatch (body handler : Statements)
  | defer (statement : Statement)

inductive Statements where
  | nil
  | cons (first : Statement) (rest : Statements)

/-- What the expressions of a statement use, in the order in which they are checked. -/
inductive Uses where
  | nil
  /-- An error of a name or a type. -/
  | mistyped
  | call (function : ℕ) (rest : Uses)
  /-- A function literal, a lambda or the value of `f :: () {...}`; `returns` is what
  `check_if_function_needs_a_return` says of it. -/
  | function (node : ℕ) (returns : Bool) (body : Statements) (rest : Uses)

end

structure FunctionDefn where
  returns : Bool
  body : Statements

mutual

/-- The functions that stand in a statement. -/
def Statement.functions : Statement → List (ℕ × FunctionDefn)
  | .breakOrContinue => []
  | .ret uses | .declaration uses | .simple uses => uses.functions
  | .block body => body.functions
  | .ifElse condition thenBlock elseIfs elseBlock =>
    condition.functions ++ thenBlock.functions ++ elseIfs.functions ++ elseBlock.functions
  | .loop _ header body => header.functions ++ body.functions
  | .switch subject chain rest => subject.functions ++ chain.functions ++ rest.functions
  | .tryCatch body handler => body.functions ++ handler.functions
  | .defer statement => statement.functions

def Statements.functions : Statements → List (ℕ × FunctionDefn)
  | .nil => []
  | .cons first rest => first.functions ++ rest.functions

def Uses.functions : Uses → List (ℕ × FunctionDefn)
  | .nil | .mistyped => []
  | .call _ rest => rest.functions
  | .function node returns body rest => (node, ⟨returns, body⟩) :: body.functions ++ rest.functions

end

/-- The files in the order in which their statements are checked, and the instances that calls of
generic functions make. -/
structure Program where
  files : List Statements
  instances : List (ℕ × FunctionDefn)

def Program.functions (program : Program) : List (ℕ × FunctionDefn) :=
  program.files.flatMap Statements.functions ++ program.instances ++
    program.instances.flatMap (·.2.body.functions)

/-- A call of a function that is not here, such as an extern one, needs no check of it. -/
def Program.function? (program : Program) (node : ℕ) : Option FunctionDefn :=
  program.functions.lookup node

def Program.isInstance (program : Program) (node : ℕ) : Bool :=
  (program.instances.lookup node).isSome

end Syntax

section Places

/-- Where a statement stands: its function, the loops of that function around it, the innermost
first, and, inside a deferred statement, how many of these are in it. -/
structure Place where
  function : Option ℕ
  loops : List ℕ
  loopsInDefer : Option ℕ
deriving DecidableEq

def Place.topLevel : Place := ⟨none, [], none⟩

def Place.bodyOf (function : ℕ) : Place := ⟨some function, [], none⟩

def Place.insideLoop (here : Place) (node : ℕ) : Place :=
  { here with loops := node :: here.loops, loopsInDefer := here.loopsInDefer.map (· + 1) }

def Place.insideDefer (here : Place) : Place := { here with loopsInDefer := some 0 }

@[simp] theorem Place.insideLoop_loops (here : Place) (node : ℕ) :
    (here.insideLoop node).loops = node :: here.loops := rfl

end Places

section LeavesDefer

mutual

/-- The search of `leaves_defer`: it goes into blocks, ifs and loops. -/
def Statement.leavesDefer (loops : ℕ) : Statement → Bool
  | .ret _ => true
  | .breakOrContinue => loops == 0
  | .block body => body.leavesDefer loops
  | .ifElse _ thenBlock elseIfs elseBlock =>
    thenBlock.leavesDefer loops || elseIfs.leavesDefer loops || elseBlock.leavesDefer loops
  | .loop _ _ body => body.leavesDefer (loops + 1)
  | .declaration _ | .simple _ | .switch _ _ _ | .tryCatch _ _ | .defer _ => false

def Statements.leavesDefer (loops : ℕ) : Statements → Bool
  | .nil => false
  | .cons first rest => first.leavesDefer loops || rest.leavesDefer loops

end

def Statement.isDefer : Statement → Bool
  | .defer _ => true
  | _ => false

def Statement.isDeclaration : Statement → Bool
  | .declaration _ => true
  | _ => false

end LeavesDefer

section State

/-- The fields of the typer: `enclosing_function` with its stack and `enclosing_loop` with its
parents, the innermost first, the functions that are marked as checked, and `generic_depth`. -/
structure State where
  enclosingFunction : Option ℕ
  functionStack : List ℕ
  loops : List ℕ
  checked : List ℕ
  genericDepth : ℕ

def State.pushEnclosingFunction (state : State) (function : ℕ) : State :=
  { state with enclosingFunction := some function, functionStack := function :: state.functionStack }

def State.popEnclosingFunction (state : State) : State :=
  { state with
    enclosingFunction := state.functionStack.tail.head?
    functionStack := state.functionStack.tail }

def State.pushEnclosingLoop (state : State) (node : ℕ) : State :=
  { state with loops := node :: state.loops }

/-- `pop_enclosing_loop`: only a loop with a parent is taken away. -/
def State.popEnclosingLoop (state : State) : State :=
  match state.loops with
  | _ :: parent :: rest => { state with loops := parent :: rest }
  | _ => state

/-- `restore_typer_state`: the stack of functions is cut to the number it had. -/
def State.restoreTyperState (saved state : State) : State :=
  { state with
    enclosingFunction := saved.enclosingFunction
    functionStack :=
      state.functionStack.drop (state.functionStack.length - saved.functionStack.length)
    loops := saved.loops }

/-- What a check met, with the state before it where that matters. -/
inductive Event where
  /-- A break or continue, which is given the first of `loops`. -/
  | jump (here : Place) (loops : List ℕ)
  | ret (here : Place) (enclosingFunction : Option ℕ)
  | defer (statement : Statement)
  /-- A call of a function that is not checked yet. -/
  | firstCall (node : ℕ) (isInstance : Bool) (function : FunctionDefn) (genericDepth : ℕ)
  /-- A function that a call checked before its own place was reached. -/
  | alreadyChecked (node : ℕ) (function : FunctionDefn)
  | verdict (here : Place) (statement : Statement) (ok : Bool)

structure Outcome where
  state : State
  ok : Bool
  events : List Event

def Outcome.done (state : State) : Outcome := ⟨state, true, []⟩
def Outcome.failed (state : State) : Outcome := ⟨state, false, []⟩

def Outcome.andThen (outcome : Outcome) (next : State → Outcome) : Outcome :=
  if outcome.ok then
    ⟨(next outcome.state).state, (next outcome.state).ok,
      outcome.events ++ (next outcome.state).events⟩
  else outcome

/-- Whatever the first outcome is, the check goes on; it is not all right if one is not. -/
def Outcome.andAlso (outcome : Outcome) (next : State → Outcome) : Outcome :=
  ⟨(next outcome.state).state, outcome.ok && (next outcome.state).ok,
    outcome.events ++ (next outcome.state).events⟩

def Outcome.preceded (event : Event) (outcome : Outcome) : Outcome :=
  { outcome with events := event :: outcome.events }

/-- The outcome of a statement, with the verdict on it. -/
def Outcome.judged (here : Place) (statement : Statement) (outcome : Outcome) : Outcome :=
  { outcome with events := outcome.events ++ [.verdict here statement outcome.ok] }

/-- The end of `check_statement_and_recover`. -/
def Outcome.recovered (saved : State) (outcome : Outcome) : Outcome :=
  if outcome.ok then outcome
  else { outcome with state := saved.restoreTyperState outcome.state }

end State

section Checks

/-- `GENERIC_DEPTH_LIMIT`. -/
def genericDepthLimit : ℕ := 64

/-- `instantiate_generic_function` for an instance that is not there yet. Success or not, the state
is as before, with the stack of functions as the check left it. -/
def instantiateGenericFunction (checkDefn : ℕ → State → Outcome) (node : ℕ) (state : State) : Outcome :=
  if genericDepthLimit ≤ state.genericDepth then .failed state
  else
    let inner := checkDefn node { state with loops := [], genericDepth := state.genericDepth + 1 }
    { inner with
      state := { inner.state with
        enclosingFunction := state.enclosingFunction
        loops := state.loops
        genericDepth := state.genericDepth } }

/-- The end of `check_function_call`: a function that is not checked yet is checked with a stack of
its own, and with the loop of the caller. The state goes back only after a success. -/
def checkCallee (checkDefn : ℕ → State → Outcome) (node : ℕ) (state : State) : Outcome :=
  let inner := checkDefn node { state with functionStack := [] }
  if inner.ok then
    { inner with
      state := { inner.state with
        enclosingFunction := state.enclosingFunction
        functionStack := state.functionStack
        loops := state.loops } }
  else inner

variable (program : Program) (checkDefn : ℕ → State → Outcome)

/-- `check_function_call`; `checkDefn` checks a function by its node. -/
def checkFunctionCall (node : ℕ) (state : State) : Outcome :=
  if state.enclosingFunction.isNone then .failed state
  else
    match program.function? node with
    | none => .done state
    | some function =>
      if node ∈ state.checked then .done state
      else
        .preceded (.firstCall node (program.isInstance node) function state.genericDepth)
          (if program.isInstance node then instantiateGenericFunction checkDefn node state
          else checkCallee checkDefn node state)

mutual

/-- `check_statement`. -/
def checkStatement (here : Place) (state : State) : Statement → Outcome
  | .breakOrContinue => ⟨state, !state.loops.isEmpty, [.jump here state.loops]⟩
  | .ret values =>
    if state.enclosingFunction.isNone then .failed state
    else .preceded (.ret here state.enclosingFunction) (checkUses here state values)
  | .declaration uses | .simple uses => checkUses here state uses
  | .block body => checkBlock here state body
  | .ifElse condition thenBlock elseIfs elseBlock =>
    (((checkUses here state condition).andThen fun state =>
      checkBlock here state thenBlock).andThen fun state =>
      checkElseIfs here state elseIfs).andThen fun state =>
      checkBlock here state elseBlock
  | .loop node header body =>
    ((checkUses (here.insideLoop node) (state.pushEnclosingLoop node) header).andThen fun state =>
      checkBlock (here.insideLoop node) state body).andThen fun state =>
      .done state.popEnclosingLoop
  | .switch subject chain rest =>
    ((checkUses here state subject).andThen fun state =>
      let outcome := (checkStatement here state chain).judged here chain
      if 0 < state.genericDepth then outcome else outcome.recovered state).andThen fun state =>
      checkUses here state rest
  | .tryCatch body handler =>
    (checkBlock here state body).andThen fun state => checkBlock here state handler
  | .defer statement =>
    .preceded (.defer statement)
      (if statement.leavesDefer 0 || statement.isDefer || statement.isDeclaration then .failed state
      else (checkStatement here.insideDefer state statement).judged here.insideDefer statement)

/-- `check_block`, and the statements of a file in `check_file`. After a statement that fails the
state is as before it, and the next one is checked, but not in an instance of a generic. -/
def checkBlock (here : Place) (state : State) : Statements → Outcome
  | .nil => .done state
  | .cons first rest =>
    let outcome := (checkStatement here state first).judged here first
    if 0 < state.genericDepth then outcome.andThen fun state => checkBlock here state rest
    else (outcome.recovered state).andAlso fun state => checkBlock here state rest

/-- The else ifs of `check_if`, each by `check_statement`. -/
def checkElseIfs (here : Place) (state : State) : Statements → Outcome
  | .nil => .done state
  | .cons first rest =>
    ((checkStatement here state first).judged here first).andThen fun state =>
    checkElseIfs here state rest

/-- `check_expression`, and `check_function_signature_and_body` for the functions in it. A function
is marked before its body is checked. -/
def checkUses (here : Place) (state : State) : Uses → Outcome
  | .nil => .done state
  | .mistyped => .failed state
  | .call node rest =>
    (checkFunctionCall program checkDefn node state).andThen fun state => checkUses here state rest
  | .function node returns body rest =>
    (if node ∈ state.checked then ⟨state, true, [.alreadyChecked node ⟨returns, body⟩]⟩
    else
      (checkBlock (.bodyOf node)
        { state.pushEnclosingFunction node with checked := node :: state.checked } body).andThen
      fun state => ⟨state.popEnclosingFunction, returns, []⟩).andThen fun state =>
    checkUses here state rest

end

end Checks

section Programs

variable (program : Program)

/-- The check of a function that is called before its own place is reached. Each of them is marked
first, so `fuel` is never used up when it is over the number of functions. -/
def checkFunctionDefn : ℕ → ℕ → State → Outcome
  | 0, _, state => .failed state
  | fuel + 1, node, state =>
    match program.function? node with
    | none => .failed state
    | some function =>
      checkUses program (checkFunctionDefn fuel) .topLevel state
        (.function node function.returns function.body .nil)

/-- `check_file`: it starts without a function and a loop. -/
def checkFile (state : State) (file : Statements) : Outcome :=
  checkBlock program (checkFunctionDefn program (program.functions.length + 1)) .topLevel
    { state with enclosingFunction := none, functionStack := [], loops := [], genericDepth := 0 } file

def checkFiles (state : State) : List Statements → Outcome
  | [] => .done state
  | file :: rest => (checkFile program state file).andAlso fun state => checkFiles state rest

def checkProgram : Outcome := checkFiles program ⟨none, [], [], [], 0⟩ program.files

def Accepted : Prop := (checkProgram program).ok = true

end Programs

end Saad.Typer
