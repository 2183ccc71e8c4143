import Saad.Defers.Leaving
import Saad.Returns.Basic

/-! # Functions that always return

Lowered code that gets behind a statement that always returns has met a switch whose value is none of
the expected ones.
-/

namespace Saad

section CodeRuns

variable {σ ε : Type} {env : Environment σ ε}

/-- What calls, conditions, steps and handlers keep of the state. -/
structure Environment.Keeps (env : Environment σ ε) (I : σ → Prop) : Prop where
  call : ∀ id state, I state → I (env.call id state).1
  condition : ∀ id state, I state → I (env.condition id state).1
  step : ∀ id state, I state → I (env.step id state)
  catchError : ∀ error state, I state → I (env.catchError error state)

variable {I : σ → Prop}

theorem runStep_keeps (keeps : env.Keeps I) (step : Option ℕ) {state : σ} (holds : I state) :
    I (runStep env step state) := by
  cases step with
  | none => exact holds
  | some step => exact keeps.step step state holds

theorem checkThrow_keeps {unwind : Machine σ ε → Machine σ ε × CodeOutcome} {before : Option ε}
    {result : σ × Option ε} (unwinds : ∀ machine, I machine.env → I (unwind machine).1.env)
    (holds : I result.1) : I (checkThrow unwind before result).1.env := by
  obtain ⟨state, error | error⟩ := result
  · exact holds
  · exact unwinds _ holds

theorem loopTurn_keeps (keeps : env.Keeps I) {loop : ℕ} {condition step : Option ℕ}
    {unwind body : Machine σ ε → Machine σ ε × CodeOutcome}
    (unwinds : ∀ machine, I machine.env → I (unwind machine).1.env)
    (runs : ∀ machine, I machine.env → I (body machine).1.env) {machine : Machine σ ε}
    (holds : I machine.env) :
    I (loopTurn env loop condition step unwind body machine).1.env := by
  have tested : I (condition.elim (machine.env, .ok true)
      (fun id => env.condition id machine.env) : σ × Except ε Bool).1 := by
    cases condition with
    | none => exact holds
    | some condition => exact keeps.condition condition _ holds
  rw [loopTurn]
  split
  · next state error tests =>
    rw [tests] at tested
    exact unwinds _ tested
  · next state tests =>
    rw [tests] at tested
    exact tested
  · next state tests =>
    rw [tests] at tested
    have ran := runs ⟨state, machine.thrownError⟩ tested
    split
    · next after finishes =>
      rw [finishes] at ran
      exact runStep_keeps keeps step ran
    · next after isBreak left finishes =>
      rw [finishes] at ran
      split
      · split
        · exact ran
        · exact runStep_keeps keeps step ran
      · exact ran
    · next after outcome _ _ finishes =>
      rw [finishes] at ran
      exact ran

/-- What the environment keeps, all code keeps. -/
theorem Code.run_keeps (keeps : env.Keeps I) {fuel : ℕ} (code : Code) (machine : Machine σ ε)
    (holds : I machine.env) : I (code.run env fuel machine).1.env := by
  induction code generalizing machine with
  | skip | jump _ | ret _ => exact holds
  | seq first second first_keeps second_keeps =>
    have kept := first_keeps machine holds
    rw [Code.run]
    split
    · next after runs =>
      rw [runs] at kept
      exact second_keeps after kept
    · exact kept
  | call id unwind unwinds | throw id unwind unwinds =>
    exact checkThrow_keeps unwinds (keeps.call id _ holds)
  | branch condition unwind thenCode elseCode unwinds then_keeps else_keeps =>
    have tested := keeps.condition condition _ holds
    rw [Code.run]
    split
    · next state error tests =>
      rw [tests] at tested
      exact unwinds _ tested
    · next state tests =>
      rw [tests] at tested
      exact then_keeps _ tested
    · next state tests =>
      rw [tests] at tested
      exact else_keeps _ tested
  | loop loop condition unwind step body unwinds body_keeps =>
    rw [Code.run]
    apply takeTurns_induction (I := fun machine : Machine σ ε => I machine.env)
      (P := fun result : Machine σ ε × CodeOutcome => I result.1.env) _ _ _ fuel machine holds
    · intro state next holds turns
      have kept : I (loopTurn env loop condition step _ (body.run env fuel) state).1.env :=
        loopTurn_keeps keeps unwinds body_keeps holds
      rw [turns] at kept
      exact kept
    · intro state next result holds turns
      have kept : I (loopTurn env loop condition step _ (body.run env fuel) state).1.env :=
        loopTurn_keeps keeps unwinds body_keeps holds
      rw [turns] at kept
      exact kept
    · exact fun _ holds => holds
  | tryCatch body handler body_keeps handler_keeps =>
    have kept := body_keeps machine holds
    rw [Code.run]
    split
    · next after runs =>
      rw [runs] at kept
      apply handler_keeps
      cases after.thrownError with
      | none => exact kept
      | some error => exact keeps.catchError error _ kept
    · exact kept
  | parked code code_keeps =>
    have kept := code_keeps { machine with thrownError := none } holds
    rw [Code.run]
    split
    · next after runs =>
      rw [runs] at kept
      exact kept
    · exact kept

/-- Code behind which the state is always one with `I`. -/
def Code.EndsWith (env : Environment σ ε) (I : σ → Prop) (code : Code) : Prop :=
  ∀ fuel machine, (code.run env fuel machine).2 = .done → I (code.run env fuel machine).1.env

variable {first second : Code}

/-- What is kept holds behind two pieces of code when it holds behind the first. -/
theorem Code.run_seq_ends (keeps : env.Keeps I) {fuel : ℕ} {machine : Machine σ ε}
    (ends : (first.run env fuel machine).2 = .done → I (first.run env fuel machine).1.env)
    (finishes : ((Code.seq first second).run env fuel machine).2 = .done) :
    I ((Code.seq first second).run env fuel machine).1.env := by
  rw [Code.run] at finishes ⊢
  split at finishes
  · next after runs =>
    have holds := ends (by rw [runs])
    rw [runs] at holds
    exact second.run_keeps keeps after holds
  · exact ends finishes

theorem Code.EndsWith.seq_left (keeps : env.Keeps I) (ends : first.EndsWith env I) :
    (Code.seq first second).EndsWith env I :=
  fun fuel machine => Code.run_seq_ends keeps (ends fuel machine)

theorem Code.EndsWith.seq_right (ends : second.EndsWith env I) :
    (Code.seq first second).EndsWith env I := by
  intro fuel machine finishes
  rw [Code.run] at finishes ⊢
  split at finishes
  · exact ends fuel _ finishes
  · next other => exact (other _ (Prod.ext rfl finishes)).elim

theorem Code.endsWith_jump (target : JumpTarget) : (Code.jump target).EndsWith env I := by
  intro fuel machine finishes
  cases finishes

theorem Code.endsWith_ret (threw : Bool) : (Code.ret threw).EndsWith env I := by
  intro fuel machine finishes
  cases finishes

/-- Throwing leaves the code. -/
theorem emitUnwind_endsWith (L : Lowerer) (emitDefers : ℕ → Code) :
    (emitUnwind L emitDefers).EndsWith env I := by
  rw [emitUnwind]
  split
  · exact .seq_right (Code.endsWith_jump _)
  · exact .seq_right (Code.endsWith_ret _)

end CodeRuns

namespace Returns

variable {σ ε υ : Type} {meaning : Meaning σ ε υ}

section Expressions

@[simp] theorem decode_number (expr : Expr) : Encodable.decode (number expr) = some expr :=
  Encodable.encodek expr

/-- Once a switch had an unexpected value, the frame says so. -/
theorem environment_keeps (meaning : Meaning σ ε υ) :
    meaning.environment.Keeps fun frame => frame.unexpected = true where
  call id frame holds := by
    change (meaning.runCall _ frame).1.unexpected = true
    generalize (Encodable.decode id : Option Expr) = expr
    fun_cases Meaning.runCall meaning expr frame with
    | case1 => exact holds
    | case2 => exact holds
    | case3 => simp [holds]
    | case4 => exact holds
    | case5 => exact holds
  condition id frame holds := by
    change (meaning.runCondition _ frame).1.unexpected = true
    generalize (Encodable.decode id : Option Expr) = expr
    fun_cases Meaning.runCondition meaning expr frame <;> exact holds
  step id frame holds := by
    dsimp only [Meaning.environment]
    split <;> exact holds
  catchError _ _ holds := holds

/-- What no comparison of a case found equal is none of its numbers. -/
theorem compareAny_false {value : υ} {values : List CaseValue} {state next : σ}
    (compares : meaning.compareAny value values state = (next, .ok false)) {number : ℤ}
    (member : .constant number ∈ values) : meaning.equals value number = false := by
  induction values generalizing state with
  | nil => cases member
  | cons first rest ih =>
    rw [Meaning.compareAny] at compares
    split at compares
    · next after tests =>
      obtain rfl | member := List.mem_cons.mp member
      · simp only [Meaning.compare, Prod.mk.injEq, Except.ok.injEq] at tests
        exact tests.2
      · exact ih compares member
    · next other =>
      exact absurd compares (other _)

end Expressions

section Switches

variable {cases : Cases} {frame next : Frame σ υ} {id : ℕ} {L : Lowerer} {emitDefers : ℕ → Code}

/-- A number that is seen is written in a case, unless it is the flags of a static member. -/
theorem Cases.constant_mem {number : ℤ} (seen : number ∈ cases.seen)
    (not_mistaken : number ∉ mistaken cases.values) : .constant number ∈ cases.values := by
  obtain ⟨value, member, constant⟩ := List.mem_filterMap.mp seen
  cases value with
  | constant value =>
    obtain rfl := Option.some.inj constant
    exact member
  | staticMember flags value =>
    obtain rfl := Option.some.inj constant
    have is_mistaken : flags ∈ mistaken cases.values := List.mem_filterMap.mpr ⟨_, member, rfl⟩
    exact absurd is_mistaken not_mistaken
  | other id => cases constant

/-- An expected value of a switch without an else is compared with in a case. -/
theorem exists_constant_of_isExpected {type : SwitchedType} {value : υ}
    (accepted : checkCases type cases = true) (exhaustive : isExhaustive type cases = true)
    (returns : cases.alwaysReturns = true) (no_else : cases.hasElse = false)
    (expects : meaning.isExpected value (expected type cases) = true) :
    ∃ number, .constant number ∈ cases.values ∧ meaning.equals value number = true := by
  rw [isExhaustive, no_else, Bool.false_or] at exhaustive
  obtain ⟨enumerators, handles⟩ := Option.isSome_iff_exists.mp exhaustive
  simp only [expected, no_else, returns, Bool.not_true, Bool.or_self, Bool.false_eq_true, ↓reduceIte, handles, Option.map_some,
    Meaning.isExpected, Option.getD_some, List.any_eq_true] at expects
  obtain ⟨number, member, equal⟩ := expects
  obtain ⟨member, not_mistaken⟩ := List.mem_filter.mp member
  refine ⟨number, Cases.constant_mem ?_ (by simpa using not_mistaken), equal⟩
  simp only [checkCases, no_else, handles, Bool.false_or, Bool.and_eq_true, Option.getD_some,
    List.all_eq_true, List.contains_iff_mem] at accepted
  exact accepted.2 number member

variable {hidden fuel : ℕ} {value : υ} {condition : ℕ} {unwind thenCode elseCode : Code}
  {machine : Machine (Frame σ υ) ε}

/-- Behind the test of a case the hidden local is as before it. A test that does not hold has found
none of the numbers of the case. -/
theorem runTest_cases {values : List CaseValue} {decision : Except ε Bool}
    (holds : frame.hidden hidden = some value)
    (tests : meaning.environment.condition (number (.test hidden values)) frame = (next, decision)) :
    next.hidden hidden = some value ∧
      (decision = .ok false → ∀ number, .constant number ∈ values →
        meaning.equals value number = false) := by
  change meaning.runCondition (Encodable.decode (number (.test hidden values))) frame = _ at tests
  simp only [decode_number, Meaning.runCondition, holds, Prod.mk.injEq] at tests
  obtain ⟨rfl, decides⟩ := tests
  refine ⟨holds, ?_⟩
  rintro rfl number member
  exact compareAny_false (Prod.ext rfl decides) member

/-- Behind the declaration of the hidden local it has a value, an expected one unless the frame says
otherwise. -/
theorem runSubject_cases {subject : ℕ} {expected : Option (List ℤ)}
    (declares : meaning.environment.call (number (.subject hidden subject expected)) frame =
      (next, none)) :
    ∃ value, next.hidden hidden = some value ∧
      (next.unexpected = true ∨ meaning.isExpected value expected = true) := by
  change meaning.runCall (Encodable.decode (number (.subject hidden subject expected))) frame = _
    at declares
  simp only [decode_number, Meaning.runCall] at declares
  split at declares
  · cases declares
  · next env value evaluates =>
    simp only [Prod.mk.injEq, and_true] at declares
    subst declares
    refine ⟨value, if_pos rfl, ?_⟩
    cases meaning.isExpected value expected <;> simp

/-- Behind a call that did not throw. -/
theorem run_call_done {after : Machine (Frame σ υ) ε}
    (finishes : (Code.call id (emitUnwind L emitDefers)).run meaning.environment fuel machine =
      (after, .done)) :
    meaning.environment.call id machine.env = (after.env, none) := by
  rw [Code.run] at finishes
  cases called : meaning.environment.call id machine.env with
  | mk frame error =>
    rw [called] at finishes
    cases error with
    | none =>
      obtain ⟨rfl, -⟩ := Prod.mk.inj finishes
      rfl
    | some error =>
      have leaves : (emitUnwind L emitDefers).EndsWith meaning.environment fun _ => False :=
        emitUnwind_endsWith L emitDefers
      exact (leaves fuel _ (congrArg Prod.snd finishes)).elim

/-- Behind a branch one of its two parts is done, unless the condition threw. -/
theorem run_branch_done
    (finishes : ((Code.branch id (emitUnwind L emitDefers) thenCode elseCode).run
      meaning.environment fuel machine).2 = .done) {P : Frame σ υ → Prop}
    (thens : ∀ frame, meaning.environment.condition id machine.env = (frame, .ok true) →
      (thenCode.run meaning.environment fuel ⟨frame, machine.thrownError⟩).2 = .done →
      P (thenCode.run meaning.environment fuel ⟨frame, machine.thrownError⟩).1.env)
    (elses : ∀ frame, meaning.environment.condition id machine.env = (frame, .ok false) →
      (elseCode.run meaning.environment fuel ⟨frame, machine.thrownError⟩).2 = .done →
      P (elseCode.run meaning.environment fuel ⟨frame, machine.thrownError⟩).1.env) :
    P ((Code.branch id (emitUnwind L emitDefers) thenCode elseCode).run
      meaning.environment fuel machine).1.env := by
  rw [Code.run] at finishes ⊢
  split at finishes
  · next frame error tests =>
    have leaves : (emitUnwind L emitDefers).EndsWith meaning.environment fun _ => False :=
      emitUnwind_endsWith L emitDefers
    exact (leaves fuel _ finishes).elim
  · next frame tests => exact thens frame tests finishes
  · next frame tests => exact elses frame tests finishes

end Switches

section Statements

/-- The code has no way to its end, except behind a switch with an unexpected value. -/
def MustLeave (meaning : Meaning σ ε υ) (code : Code) : Prop :=
  code.EndsWith meaning.environment fun frame => frame.unexpected = true

theorem mustLeave_branch {L : Lowerer} {emitDefers : ℕ → Code} {id : ℕ} {thenCode elseCode : Code}
    (thens : MustLeave meaning thenCode) (elses : MustLeave meaning elseCode) :
    MustLeave meaning (.branch id (emitUnwind L emitDefers) thenCode elseCode) := by
  intro fuel machine finishes
  apply run_branch_done finishes (P := fun frame => frame.unexpected = true)
  · exact fun frame _ => thens fuel _
  · exact fun frame _ => elses fuel _

/-- A block of one statement, which has no defers of its own. -/
theorem mustLeave_single {L : Lowerer} {defers : ℕ} {statement : AstStatement}
    (returns : MustLeave meaning (lowerStatement L statement)) :
    MustLeave meaning (lowerBlock L defers (.statement statement .nil)) := by
  rw [lowerBlock]
  exact .seq_left (environment_keeps meaning) returns

mutual

theorem Stmt.returns :
    ∀ (statement : Stmt), statement.check = true → statement.alwaysReturns = true →
      ∀ L, MustLeave meaning (lowerStatement L statement.lowered)
  | .ret values, _, _, L => by
    rw [Stmt.lowered, lowerStatement]
    exact .seq_right (.seq_right (Code.endsWith_ret false))
  | .block body, accepted, returns, L => by
    rw [Stmt.lowered, lowerStatement]
    exact body.returns accepted returns L _
  | .ifElse condition thenBlock rest, accepted, returns, L => by
    rw [Stmt.check, Bool.and_eq_true] at accepted
    rw [Stmt.alwaysReturns, Bool.and_eq_true] at returns
    rw [Stmt.lowered, lowerStatement]
    exact mustLeave_branch (thenBlock.returns accepted.1 returns.1 L _)
      (rest.returns accepted.2 returns.2 L _)
  | .switch hidden subject type cases, accepted, returns, L => by
    rw [Stmt.check, Bool.and_eq_true] at accepted
    rw [Stmt.alwaysReturns, Bool.and_eq_true, Bool.and_eq_true] at returns
    rw [Stmt.lowered, lowerStatement, lowerBlock, lowerStatement]
    intro fuel machine finishes
    rw [Code.run] at finishes ⊢
    split at finishes
    · next after declared =>
      have flagged := @Code.run_keeps _ _ _ _ (environment_keeps meaning) fuel
        (lowerBlock L L.defers.length (cases.chain hidden)) after
      obtain ⟨value, holds, unexpected | expects⟩ := runSubject_cases (run_call_done declared)
      · exact flagged unexpected
      apply cases.returns accepted.1 returns.2 L (.inl rfl) holds _ finishes
      cases has_else : cases.hasElse with
      | true => exact .inl rfl
      | false =>
        exact .inr (exists_constant_of_isExpected accepted.2 returns.1.1 returns.2 has_else expects)
    · next other => exact (other _ (Prod.ext rfl finishes)).elim

theorem Block.returns :
    ∀ (block : Block), block.check = true → block.alwaysReturns = true →
      ∀ L defers, MustLeave meaning (lowerBlock L defers block.lowered)
  | .statement first rest, accepted, returns, L, defers => by
    rw [Block.check, Bool.and_eq_true] at accepted
    rw [Block.alwaysReturns, Bool.or_eq_true] at returns
    rw [Block.lowered, lowerBlock]
    obtain first_returns | rest_returns := returns
    · exact .seq_left (environment_keeps meaning) (first.returns accepted.1 first_returns L)
    · exact .seq_right (rest.returns accepted.2 rest_returns L defers)
  | .deferred statement rest, accepted, returns, L, defers => by
    rw [Block.check, Bool.and_eq_true] at accepted
    rw [Block.lowered, lowerBlock]
    exact rest.returns accepted.2 returns _ defers

theorem ElseIfs.returns :
    ∀ (rest : ElseIfs), rest.check = true → rest.alwaysReturns = true →
      ∀ L defers, MustLeave meaning (lowerBlock L defers rest.lowered)
  | .otherwise block, accepted, returns, L, defers => block.returns accepted returns L defers
  | .elseIf condition block rest, accepted, returns, L, defers => by
    rw [ElseIfs.check, Bool.and_eq_true] at accepted
    rw [ElseIfs.alwaysReturns, Bool.and_eq_true] at returns
    rw [ElseIfs.lowered]
    apply mustLeave_single
    rw [lowerStatement]
    exact mustLeave_branch (block.returns accepted.1 returns.1 L _)
      (rest.returns accepted.2 returns.2 L _)

/-- The chain from some case on, in which there is an else, or a case compares with a number that
the value is equal to. -/
theorem Cases.returns :
    ∀ (cases : Cases), cases.check = true → cases.alwaysReturns = true →
      ∀ L {defers hidden fuel : ℕ} {chain : AstBlock} {value : υ}
        {machine : Machine (Frame σ υ) ε},
        chain = cases.chain hidden ∨ chain = cases.elses hidden →
        machine.env.hidden hidden = some value →
        (cases.hasElse = true ∨
          ∃ number, .constant number ∈ cases.values ∧ meaning.equals value number = true) →
        ((lowerBlock L defers chain).run meaning.environment fuel machine).2 = .done →
        ((lowerBlock L defers chain).run meaning.environment fuel
          machine).1.env.unexpected = true
  | .nil, _, _, L, _, _, _, _, _, _, _, _, compares, _ => by
    obtain no_else | ⟨number, member, -⟩ := compares
    · cases no_else
    · cases member
  | .otherwise block, accepted, returns, L, defers, hidden, fuel, chain, _, machine, from_here, _,
      _, finishes => by
    obtain rfl | rfl := from_here
    · have leaves : MustLeave meaning
          (lowerBlock L defers (.statement (.block block.lowered) .nil)) := by
        apply mustLeave_single
        rw [lowerStatement]
        exact block.returns accepted returns L _
      exact leaves fuel machine finishes
    · exact block.returns accepted returns L defers fuel machine finishes
  | .case values block rest, accepted, returns, L, defers, hidden, fuel, chain, value, machine,
      from_here, holds, compares, finishes => by
    rw [Cases.check, Bool.and_eq_true] at accepted
    rw [Cases.alwaysReturns, Bool.and_eq_true] at returns
    have same : chain = .statement (.ifElse (number (.test hidden values)) block.lowered
        (rest.elses hidden)) .nil := from_here.elim id id
    rw [same, lowerBlock] at finishes ⊢
    refine Code.run_seq_ends (environment_keeps meaning) ?_ finishes
    rw [lowerStatement]
    intro finishes
    apply run_branch_done finishes (P := fun frame => frame.unexpected = true)
    · exact fun frame _ => block.returns accepted.1 returns.1 L _ fuel _
    · intro frame tests
      obtain ⟨holds, none_equal⟩ := runTest_cases holds tests
      apply rest.returns accepted.2 returns.2 L (.inr rfl) holds
      obtain has_else | ⟨number, member, equal⟩ := compares
      · exact .inl has_else
      obtain member | member := List.mem_append.mp member
      · rw [none_equal rfl number member] at equal
        cases equal
      · exact .inr ⟨number, member, equal⟩

end

end Statements

section Functions

/-- A function with a result does not get to the end of its body in a run in which each switch that
counts as one that always returns has an expected value. The body of a literal must always return,
which the typer does not check. -/
theorem FunctionDefn.runBody_ne_done (function : FunctionDefn) (accepted : function.Accepted)
    (gives : function.GivesResult)
    (returns : function.isLambda = true → function.body.alwaysReturns = true)
    (meaning : Meaning σ ε υ) (fuel : ℕ) (start : Frame σ υ)
    (expects : (function.runBody meaning fuel start).1.env.unexpected = false) :
    (function.runBody meaning fuel start).2 ≠ .done := by
  obtain ⟨no_errors, checked, needs_return⟩ := accepted
  obtain ⟨defined, not_void⟩ := gives
  have always : function.body.alwaysReturns = true := by
    cases literal : function.isLambda with
    | true => exact returns literal
    | false =>
      simpa [checkIfFunctionNeedsAReturn, no_errors, defined, not_void, literal]
        using needs_return
  intro finishes
  have unexpected := function.body.returns checked always {} 0 fuel ⟨start, none⟩ finishes
  rw [runBody] at expects
  rw [expects] at unexpected
  cases unexpected

/-- A switch on an enum of 0 and 1, whose cases return. -/
def coinName : FunctionDefn where
  body := .statement (.switch 0 0 (.enum [0, 1])
    (.case [.constant 0] (.statement (.ret 0) .nil)
      (.case [.constant 1] (.statement (.ret 1) .nil) .nil))) .nil
  returnsVoid := false

theorem coinName_accepted : coinName.Accepted := by decide

/-- The switch has this value, and nothing throws. -/
def coin (value : ℤ) : Meaning Unit Empty ℤ where
  call _ state := (state, none)
  condition _ state := (state, .ok true)
  step _ state := state
  catchError _ state := state
  subject _ state := (state, .ok value)
  equals value number := value == number
  isCase _ _ state := (state, .ok false)

/-- The lowered switch: the hidden local, and the chain of ifs. -/
theorem lowerBlock_coinName : lowerBlock {} 0 coinName.body.lowered =
    .seq (.seq (.call (number (.subject 0 0 (some [0, 1]))) (.seq .skip (.ret true)))
      (.seq (.branch (number (.test 0 [.constant 0])) (.seq .skip (.ret true))
          (.seq (.seq (.call (number (.written 0)) (.seq .skip (.ret true)))
            (.seq .skip (.ret false))) .skip)
          (.seq (.branch (number (.test 0 [.constant 1])) (.seq .skip (.ret true))
            (.seq (.seq (.call (number (.written 1)) (.seq .skip (.ret true)))
              (.seq .skip (.ret false))) .skip) .skip) .skip)) .skip)) .skip := by
  have expects : expected (.enum [0, 1])
      (.case [.constant 0] (.statement (.ret 0) .nil)
        (.case [.constant 1] (.statement (.ret 1) .nil) .nil)) = some [0, 1] := by decide
  simp [coinName, Block.lowered, Stmt.lowered, Cases.chain, Cases.elses, lowerBlock,
    lowerStatement, emitDefers, emitUnwind, emitDefersWhileThrowing, expects]

theorem runBody_coinName (value : ℤ) :
    coinName.runBody (coin value) 0 { env := () } =
      (⟨⟨(), fun hidden => if hidden = 0 then some value else none,
          !(coin value).isExpected value (some [0, 1])⟩, none⟩,
        if value = 0 ∨ value = 1 then .returns false else .done) := by
  rw [FunctionDefn.runBody, lowerBlock_coinName]
  by_cases zero : value = 0
  · simp [Code.run, Meaning.environment, checkThrow, Meaning.runCall, Meaning.runCondition, coin,
      Meaning.compareAny, Meaning.compare, zero]
  · by_cases one : value = 1
    · simp [Code.run, Meaning.environment, checkThrow, Meaning.runCall, Meaning.runCondition, coin,
        Meaning.compareAny, Meaning.compare, one]
    · have not_zero : (value == 0) = false := beq_false_of_ne zero
      have not_one : (value == 1) = false := beq_false_of_ne one
      simp [Code.run, Meaning.environment, checkThrow, Meaning.runCall, Meaning.runCondition, coin,
        Meaning.compareAny, Meaning.compare, zero, one, not_zero, not_one]

theorem runBody_ne_done_coinName :
    (coinName.runBody (coin 1) 0 { env := () }).2 ≠ .done :=
  coinName.runBody_ne_done coinName_accepted ⟨rfl, rfl⟩ (by decide) (coin 1) 0 _
    (by rw [runBody_coinName]; rfl)

/-- A function literal without a return. -/
def emptyLiteral : FunctionDefn where
  body := .nil
  returnsVoid := false
  isLambda := true

theorem ends_without_return :
    (coinName.Accepted ∧ coinName.GivesResult ∧ ¬ coinName.NeverEnds) ∧
      emptyLiteral.Accepted ∧ emptyLiteral.GivesResult ∧ ¬ emptyLiteral.NeverEnds := by
  refine ⟨⟨coinName_accepted, ⟨rfl, rfl⟩, ?_⟩, by decide, ⟨rfl, rfl⟩, ?_⟩
  · intro never
    apply never (coin 2) 0 { env := () }
    rw [runBody_coinName]
    rfl
  · intro never
    apply never (coin 2) 0 { env := () }
    rw [FunctionDefn.runBody, emptyLiteral]
    simp [Block.lowered, lowerBlock, emitDefers, Code.run]

end Functions

end Returns

end Saad
