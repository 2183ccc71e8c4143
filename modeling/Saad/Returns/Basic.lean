import Mathlib.Logic.Equiv.List
import Mathlib.Tactic.DeriveEncodable
import Saad.Defers.Lower

/-! # Returns of functions

A function with a result must not get to the end of its body, where `lower_function` puts a return
without a value. `always_returns` looks for a way there, and takes a switch on an enum or a union
without an else for one that runs a case. `check_switch` turns a switch into a hidden local with
the value and a chain of ifs, which is what is lowered.
-/

namespace Saad.Returns

section Syntax

/-- A value of a case. A static member of an enum is an identifier such as `.count`: its flags lie
where an enumerator has its value. -/
inductive CaseValue where
  /-- An enumerator, a variant or a number. -/
  | constant (value : ℤ)
  | staticMember (flags value : ℤ)
  /-- A range, or anything else that is compared when the switch runs. -/
  | other (id : ℕ)
deriving DecidableEq, Encodable

/-- `case_constant`. -/
def CaseValue.constant? : CaseValue → Option ℤ
  | .constant value => some value
  | .staticMember flags _ => some flags
  | .other _ => none

inductive SwitchedType where
  | enum (enumerators : List ℤ)
  /-- The kind of a union is the index of its variant. -/
  | union (variants : ℕ)
  | other

/-- The values that a switch without an else must handle. -/
def SwitchedType.enumerators? : SwitchedType → Option (List ℤ)
  | .enum enumerators => some enumerators
  | .union variants => some ((List.range variants).map Int.ofNat)
  | .other => none

mutual

/-- The statements of a function. Expressions are known by numbers, and loops by their node. -/
inductive Stmt where
  /-- Declarations, assignments, expressions and `assert`. -/
  | simple (id : ℕ)
  | throw (id : ℕ)
  | ret (values : ℕ)
  | breakOrContinue (isBreak : Bool) (loop : ℕ)
  | block (body : Block)
  | ifElse (condition : ℕ) (thenBlock : Block) (rest : ElseIfs)
  /-- The value is kept in the hidden local `$switch`. A union is known there by its tag, which
  nothing changes between the tests. -/
  | switch (hidden subject : ℕ) (type : SwitchedType) (cases : Cases)
  | loop (loop : ℕ) (condition step : Option ℕ) (body : Block)
  | tryCatch (body handler : Block)

inductive Block where
  | nil
  | statement (first : Stmt) (rest : Block)
  | deferred (statement : Stmt) (rest : Block)

inductive ElseIfs where
  | nil
  | otherwise (block : Block)
  | elseIf (condition : ℕ) (block : Block) (rest : ElseIfs)

/-- The cases of a switch. An else that is not the last one is an error before anything else is checked. -/
inductive Cases where
  | nil
  | otherwise (block : Block)
  | case (values : List CaseValue) (block : Block) (rest : Cases)

end

structure FunctionDefn where
  body : Block
  /-- The first result is of type void. -/
  returnsVoid : Bool
  isExtern : Bool := false
  /-- A function literal or a short lambda: what is not the value of a `name :: ...`. -/
  isLambda : Bool := false
  /-- Of the file. Its statements may have been skipped. -/
  hasSyntaxErrors : Bool := false

end Syntax

section Checks

def Cases.isEmpty : Cases → Bool
  | .nil => true
  | .otherwise _ | .case _ _ _ => false

def Cases.hasElse : Cases → Bool
  | .nil => false
  | .otherwise _ => true
  | .case _ _ rest => rest.hasElse

def Cases.values : Cases → List CaseValue
  | .nil | .otherwise _ => []
  | .case values _ rest => values ++ rest.values

/-- The values that are handled, as `check_switch` and `check_union_switch` see it. -/
def Cases.seen (cases : Cases) : List ℤ := cases.values.filterMap CaseValue.constant?

/-- `is_exhaustive`, where the switch has no error. -/
def isExhaustive (type : SwitchedType) (cases : Cases) : Bool :=
  cases.hasElse || type.enumerators?.isSome

/-- A case of a switch on a union is a variant of it. -/
def caseVariants (type : SwitchedType) (cases : Cases) : Bool :=
  match type with
  | .union variants => cases.values.all fun value =>
      ((List.range variants).map fun (variant : ℕ) => CaseValue.constant variant).contains value
  | .enum _ | .other => true

/-- No value is handled twice, and a switch without an else handles all there are. -/
def checkCases (type : SwitchedType) (cases : Cases) : Bool :=
  caseVariants type cases && decide cases.seen.Nodup &&
    (cases.hasElse || (type.enumerators?.getD []).all cases.seen.contains)

mutual

/-- `always_returns`. -/
def Stmt.alwaysReturns : Stmt → Bool
  | .ret _ => true
  | .block body => body.alwaysReturns
  | .ifElse _ thenBlock rest => thenBlock.alwaysReturns && rest.alwaysReturns
  | .switch _ _ type cases => isExhaustive type cases && !cases.isEmpty && cases.alwaysReturns
  | .simple _ | .throw _ | .breakOrContinue _ _ | .loop _ _ _ _ | .tryCatch _ _ => false

/-- Some statement of the block always returns. -/
def Block.alwaysReturns : Block → Bool
  | .nil => false
  | .statement first rest => first.alwaysReturns || rest.alwaysReturns
  | .deferred _ rest => rest.alwaysReturns

def ElseIfs.alwaysReturns : ElseIfs → Bool
  | .nil => false
  | .otherwise block => block.alwaysReturns
  | .elseIf _ block rest => block.alwaysReturns && rest.alwaysReturns

def Cases.alwaysReturns : Cases → Bool
  | .nil => true
  | .otherwise block => block.alwaysReturns
  | .case _ block rest => block.alwaysReturns && rest.alwaysReturns

end

mutual

/-- The switches have no error. Other errors only make the typer accept less. -/
def Stmt.check : Stmt → Bool
  | .simple _ | .throw _ | .ret _ | .breakOrContinue _ _ => true
  | .block body => body.check
  | .ifElse _ thenBlock rest => thenBlock.check && rest.check
  | .switch _ _ type cases => cases.check && checkCases type cases
  | .loop _ _ _ body => body.check
  | .tryCatch body handler => body.check && handler.check

def Block.check : Block → Bool
  | .nil => true
  | .statement first rest => first.check && rest.check
  | .deferred statement rest => statement.check && rest.check

def ElseIfs.check : ElseIfs → Bool
  | .nil => true
  | .otherwise block => block.check
  | .elseIf _ block rest => block.check && rest.check

def Cases.check : Cases → Bool
  | .nil => true
  | .otherwise block => block.check
  | .case _ block rest => block.check && rest.check

end

namespace FunctionDefn

variable (function : FunctionDefn)

def checkIfFunctionNeedsAReturn : Bool :=
  function.hasSyntaxErrors ||
    !(!function.body.alwaysReturns && !function.returnsVoid && !function.isExtern &&
      !function.isLambda)

/-- The typer reports nothing of it. -/
def Accepted : Prop :=
  function.hasSyntaxErrors = false ∧ function.body.check = true ∧
    function.checkIfFunctionNeedsAReturn = true

instance : Decidable function.Accepted := inferInstanceAs (Decidable (_ ∧ _ ∧ _))

/-- It has a body and a result. -/
def GivesResult : Prop := function.isExtern = false ∧ function.returnsVoid = false

end FunctionDefn

end Checks

section Lowered

/-- What a number stands for in the statements that are lowered: an expression of the program, the
declaration of a hidden local, or the condition of a case. -/
inductive Expr where
  | written (id : ℕ)
  /-- With the values that are expected there. -/
  | subject (hidden value : ℕ) (expected : Option (List ℤ))
  | test (hidden : ℕ) (values : List CaseValue)
deriving Encodable

def number (expr : Expr) : ℕ := Encodable.encode expr

/-- The flags of static members that count as handled values. -/
def mistaken (values : List CaseValue) : List ℤ :=
  values.filterMap fun value =>
    match value with
    | .staticMember flags _ => some flags
    | .constant _ | .other _ => none

/-- The values of an enum or a union for which a switch on it without an else has a case, where
`always_returns` relies on that. -/
def expected (type : SwitchedType) (cases : Cases) : Option (List ℤ) :=
  if cases.hasElse || !cases.alwaysReturns then none
  else type.enumerators?.map (·.filter fun value => !(mistaken cases.values).contains value)

mutual

/-- The statement as it is lowered: `check_switch` replaces each switch. -/
def Stmt.lowered : Stmt → AstStatement
  | .simple id => .call (number (.written id))
  | .throw id => .throw (number (.written id))
  | .ret values => .ret (number (.written values))
  | .breakOrContinue isBreak loop => .breakOrContinue isBreak loop
  | .block body => .block body.lowered
  | .ifElse condition thenBlock rest =>
    .ifElse (number (.written condition)) thenBlock.lowered rest.lowered
  | .switch hidden subject type cases =>
    .block (.statement (.call (number (.subject hidden subject (expected type cases))))
      (cases.chain hidden))
  | .loop loop condition step body =>
    .loop loop (condition.map fun id => number (.written id))
      (step.map fun id => number (.written id)) body.lowered
  | .tryCatch body handler => .tryCatch body.lowered handler.lowered

def Block.lowered : Block → AstBlock
  | .nil => .nil
  | .statement first rest => .statement first.lowered rest.lowered
  | .deferred statement rest => .deferred statement.lowered rest.lowered

def ElseIfs.lowered : ElseIfs → AstBlock
  | .nil => .nil
  | .otherwise block => block.lowered
  | .elseIf condition block rest =>
    .statement (.ifElse (number (.written condition)) block.lowered rest.lowered) .nil

/-- The chain of ifs. An else that comes first is a block of its own. -/
def Cases.chain (hidden : ℕ) : Cases → AstBlock
  | .nil => .nil
  | .otherwise block => .statement (.block block.lowered) .nil
  | .case values block rest =>
    .statement (.ifElse (number (.test hidden values)) block.lowered (rest.elses hidden)) .nil

/-- What follows a case in the chain. -/
def Cases.elses (hidden : ℕ) : Cases → AstBlock
  | .nil => .nil
  | .otherwise block => block.lowered
  | .case values block rest =>
    .statement (.ifElse (number (.test hidden values)) block.lowered (rest.elses hidden)) .nil

end

/-- `lower_function`: the body, and the return without a value. -/
def FunctionDefn.lowered (function : FunctionDefn) : Code :=
  .seq (lowerBlock {} 0 function.body.lowered) (.ret false)

end Lowered

section Runs

/-- What the expressions of the program do, with values of switches in `υ`. -/
structure Meaning (σ ε υ : Type) where
  call : ℕ → σ → σ × Option ε
  condition : ℕ → σ → σ × Except ε Bool
  step : ℕ → σ → σ
  catchError : ε → σ → σ
  subject : ℕ → σ → σ × Except ε υ
  /-- The value of a switch compared with a number. -/
  equals : υ → ℤ → Bool
  /-- The value compared with any other value of a case. -/
  isCase : ℕ → υ → σ → σ × Except ε Bool

/-- A frame with its hidden locals, and whether a switch that counts as one that always returns had a
value that is none of the expected ones. -/
structure Frame (σ υ : Type) where
  env : σ
  hidden : ℕ → Option υ := fun _ => none
  unexpected : Bool := false

variable {σ ε υ : Type} (meaning : Meaning σ ε υ)

def Meaning.compare (value : υ) : CaseValue → σ → σ × Except ε Bool
  | .constant number, state | .staticMember _ number, state =>
    (state, .ok (meaning.equals value number))
  | .other id, state => meaning.isCase id value state

/-- The comparisons with the values of a case, up to the first that holds. -/
def Meaning.compareAny (value : υ) : List CaseValue → σ → σ × Except ε Bool
  | [], state => (state, .ok false)
  | first :: rest, state =>
    match meaning.compare value first state with
    | (state, .ok false) => Meaning.compareAny value rest state
    | result => result

def Meaning.isExpected (value : υ) (expected : Option (List ℤ)) : Bool :=
  (expected.map (·.any (meaning.equals value))).getD true

def Meaning.runCall : Option Expr → Frame σ υ → Frame σ υ × Option ε
  | some (.written id), frame =>
    let (env, error) := meaning.call id frame.env
    ({ frame with env }, error)
  | some (.subject hidden subject expected), frame =>
    match meaning.subject subject frame.env with
    | (env, .error error) => ({ frame with env }, some error)
    | (env, .ok value) =>
      ({ env, hidden := fun local_ => if local_ = hidden then some value else frame.hidden local_,
         unexpected := frame.unexpected || !meaning.isExpected value expected }, none)
  | some (.test _ _), frame | none, frame => (frame, none)

def Meaning.runCondition : Option Expr → Frame σ υ → Frame σ υ × Except ε Bool
  | some (.written id), frame =>
    let (env, decision) := meaning.condition id frame.env
    ({ frame with env }, decision)
  | some (.test hidden values), frame =>
    match frame.hidden hidden with
    | some value =>
      let (env, decision) := meaning.compareAny value values frame.env
      ({ frame with env }, decision)
    | none => (frame, .ok false)
  | some (.subject _ _ _), frame | none, frame => (frame, .ok false)

def Meaning.environment : Environment (Frame σ υ) ε where
  call number := meaning.runCall (Encodable.decode number)
  condition number := meaning.runCondition (Encodable.decode number)
  step number frame :=
    match (Encodable.decode number : Option Expr) with
    | some (.written id) => { frame with env := meaning.step id frame.env }
    | _ => frame
  catchError error frame := { frame with env := meaning.catchError error frame.env }

/-- A run of the lowered body of a function. It gets to the end of the body, and to the return
there, when its outcome is `done`. -/
def FunctionDefn.runBody (function : FunctionDefn) (fuel : ℕ) (start : Frame σ υ) :
    Machine (Frame σ υ) ε × CodeOutcome :=
  (lowerBlock {} 0 function.body.lowered).run meaning.environment fuel ⟨start, none⟩

/-- No run of the body gets to its end. -/
def FunctionDefn.NeverEnds (function : FunctionDefn) : Prop :=
  ∀ {σ ε υ : Type} (meaning : Meaning σ ε υ) (fuel : ℕ) (start : Frame σ υ),
    (function.runBody meaning fuel start).2 ≠ .done

end Runs

end Saad.Returns
