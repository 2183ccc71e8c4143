import Saad.Defers.Leaving

/-! # The lowered code runs each deferred statement once

A run of the lowered code against the meaning of the statements. The two agree as long as no error is
thrown in a deferred statement that runs as an exit has crossed a try: the lowerer has all tries of
the place where it writes a deferred statement again, also those that were left.
-/

namespace Saad

section Statements

variable {σ ε : Type} (env : Environment σ ε) (fuel : ℕ)

/-- The code of the statement does what the statement and its way out do. -/
def Lowered (L : Lowerer) (statement : AstStatement) : Prop :=
  ∀ (loops : List ℕ) (stray : Bool), Ready L loops stray → statement.Scoped loops →
    ∀ state : RunState σ,
      (complete env fuel L stray (statement.exec env fuel stray state)).1.strayed = false →
        (lowerStatement L statement).run env fuel ⟨state.env, none⟩ =
          asCode L (complete env fuel L stray (statement.exec env fuel stray state))

/-- The code of the statements of a block, behind defers of its own. -/
def LoweredBlock (L : Lowerer) (own : List AstStatement) (block : AstBlock) : Prop :=
  ∀ (loops : List ℕ) (stray : Bool), Ready L loops stray → block.Scoped loops →
    (∀ statement ∈ own, statement.Scoped loops) → ∀ state : RunState σ,
      (complete env fuel L stray
        (leaveAll env fuel stray own (block.exec env fuel stray state))).1.strayed = false →
        (lowerBlock { L with defers := own ++ L.defers } L.defers.length block).run env fuel
            ⟨state.env, none⟩ =
          asCode L (complete env fuel L stray
            (leaveAll env fuel stray own (block.exec env fuel stray state)))

/-- The deferred statements are lowered so, each with those below it. -/
def DefersLowered (L : Lowerer) : List AstStatement → Prop
  | [] => True
  | statement :: below => Lowered env fuel { L with defers := below } statement ∧
      DefersLowered L below

end Statements

section Emit

variable {σ ε : Type} {env : Environment σ ε} {fuel : ℕ} {L : Lowerer} {loops : List ℕ}
  {stray : Bool}
variable {first second : Code} {machine next : Machine σ ε} {outcome : CodeOutcome}
  {state : RunState σ} {error : ε}

-- The equations of these functions are made here, before the proofs below ask for them all at once.
attribute [local simp] Code.run lowerStatement lowerBlock emitDefers in
theorem emitDefers_nil (L : Lowerer) (downTo : ℕ) :
    emitDefers { L with defers := [] } downTo = .skip := by
  rw [emitDefers]

theorem emitDefers_cons (L : Lowerer) (statement : AstStatement) (below : List AstStatement)
    (downTo : ℕ) :
    emitDefers { L with defers := statement :: below } downTo =
      if below.length + 1 ≤ downTo then .skip
      else .seq (lowerStatement { L with defers := below } statement)
        (emitDefers { L with defers := below } downTo) := by
  rw [emitDefers]
  rfl

theorem Code.run_seq_done (runs : first.run env fuel machine = (next, .done)) :
    (Code.seq first second).run env fuel machine = second.run env fuel next := by
  rw [Code.run, runs]

theorem Code.run_seq_left (runs : first.run env fuel machine = (next, outcome))
    (left : outcome ≠ .done) :
    (Code.seq first second).run env fuel machine = (next, outcome) := by
  rw [Code.run, runs]
  cases outcome with
  | done => exact absurd rfl left
  | jumps target => rfl
  | returns threw => rfl
  | timeout => rfl

theorem asCode_left {result : RunState σ × Outcome ε} (leaves : result.2 ≠ .normal) :
    (asCode L result).2 ≠ .done := by
  obtain ⟨state, outcome⟩ := result
  cases outcome with
  | normal => exact absurd rfl leaves
  | timeout => simp [asCode]
  | thrown error =>
    rw [asCode]
    split <;> simp
  | leaves exit crossed => cases exit <;> simp [asCode]

theorem asCode_defers (stack : List AstStatement) (result : RunState σ × Outcome ε) :
    asCode { L with defers := stack } result = asCode L result := by
  obtain ⟨state, outcome⟩ := result
  cases outcome with
  | leaves exit crossed => cases exit <;> rfl
  | normal => rfl
  | thrown error => rfl
  | timeout => rfl

theorem leaveDown_defers (defers stack : List AstStatement) (result : RunState σ × Outcome ε) :
    leaveDown env fuel { L with defers } stray stack result =
      leaveDown env fuel L stray stack result := by
  induction stack generalizing result with
  | nil => rfl
  | cons statement below ih =>
    obtain ⟨state, outcome⟩ := result
    have same_count : Lowerer.downTo { L with defers } outcome = L.downTo outcome := by
      cases outcome with
      | leaves exit crossed => cases exit <;> rfl
      | normal => rfl
      | thrown error => rfl
      | timeout => rfl
    rw [leaveDown, leaveDown, same_count, ih]
    rfl

/-- The way out is behind all the defers that it leaves, or a deferred statement took another one. -/
theorem emitDefers_run {stack : List AstStatement} (lowered : DefersLowered env fuel L stack)
    (pending : Pending L.loops loops stack) {outcome : Outcome ε} (leaves : outcome ≠ .normal)
    (ends : outcome ≠ .timeout) (fits : Fits loops stray (state, outcome))
    (met : (leaveDown env fuel L stray stack (state, outcome)).1.strayed = false) :
    (∃ next after, leaveDown env fuel L stray stack (state, outcome) = (next, after) ∧
        after.cross = outcome.cross ∧
        (emitDefers { L with defers := stack } (L.downTo outcome)).run env fuel ⟨state.env, none⟩ =
          (⟨next.env, none⟩, .done)) ∨
      ((leaveDown env fuel L stray stack (state, outcome)).2 ≠ .normal ∧
        (emitDefers { L with defers := stack } (L.downTo outcome)).run env fuel ⟨state.env, none⟩ =
          asCode L (leaveDown env fuel L stray stack (state, outcome))) := by
  induction stack generalizing state outcome with
  | nil =>
    left
    refine ⟨state, outcome, rfl, rfl, ?_⟩
    rw [emitDefers_nil, Code.run]
  | cons statement below ih =>
    obtain ⟨statement_lowered, below_lowered⟩ := lowered
    obtain ⟨around, subset, scopes, reachable, pending⟩ := pending
    rw [leaveDown] at met ⊢
    rw [emitDefers_cons]
    by_cases stops : below.length + 1 ≤ L.downTo outcome
    · left
      rw [if_pos stops, if_pos stops]
      exact ⟨state, outcome, rfl, rfl, by rw [Code.run]⟩
    rw [if_neg stops] at met ⊢
    rw [if_neg stops]
    have seen_fits := fits.seenAt (L := L) below.length
    have seen_leaves := seenAt_ne_normal (L := L) below.length leaves
    have seen_ends := seenAt_ne_timeout (L := L) below.length ends
    have straying := @tries_of_seenAt _ _ _ stray _ leaves ends
      (Nat.le_of_lt_succ (Nat.not_le.mp stops))
    have runs := statement_lowered around _ ⟨reachable, straying, pending⟩ scopes state
    have ran_fits : Fits around (stray || (L.seenAt below.length outcome).crossed)
        (statement.exec env fuel _ state) := statement.exec_fits scopes state
    rcases ran : statement.exec env fuel (stray || (L.seenAt below.length outcome).crossed) state
      with ⟨next, left⟩
    rw [ran] at runs ran_fits
    by_cases normal : left = .normal
    · subst normal
      rw [runDeferred_of_normal seen_ends ran] at met ⊢
      have next_fits : Fits loops stray (next, L.seenAt below.length outcome) := by
        have fits_after := @deferred_fits _ _ _ env fuel _ _ _ _ seen_fits scopes subset
        rw [runDeferred_of_normal seen_ends ran] at fits_after
        exact fits_after
      have unstrayed : next.strayed = false := unstrayed_of_leaveDown met
      rw [Code.run_seq_done (runs unstrayed), ← downTo_seenAt below.length outcome]
      obtain ⟨last, after, leads, same, defers_run⟩ | leads :=
        ih below_lowered (pending.mono subset) seen_leaves seen_ends next_fits met
      · exact .inl ⟨last, after, leads, same.trans (cross_seenAt _ _), defers_run⟩
      · exact .inr leads
    · right
      rw [runDeferred_of_ne_normal seen_ends (by rw [ran]; exact normal), ran] at met ⊢
      have same : leaveDown env fuel L (stray || (L.seenAt below.length outcome).crossed) below
          (next, left) = leaveDown env fuel L stray below (next, left) := by
        cases decided : stray || (L.seenAt below.length outcome).crossed with
        | true =>
          rw [decided] at ran_fits
          exact leaveDown_crossed rfl pending true normal ran_fits met
        | false =>
          obtain ⟨rfl, -⟩ := Bool.or_eq_false_iff.mp decided
          rfl
      rw [complete_of_ne_normal normal, leaveDown_defers, asCode_defers, same] at runs
      have left_normal :=
        @leaveDown_ne_normal _ _ (next, left) env fuel L stray below normal
      refine ⟨left_normal, ?_⟩
      exact Code.run_seq_left (runs met) (asCode_left left_normal)

theorem emitDefersWhileThrowing_run (ready : Ready L loops stray)
    (lowered : DefersLowered env fuel L L.defers) (fits : Fits loops stray (state, .thrown error))
    (met : (leaveDown env fuel L stray L.defers (state, .thrown error)).1.strayed = false) :
    (∃ next, leaveDown env fuel L stray L.defers (state, .thrown error) = (next, .thrown error) ∧
        (emitDefersWhileThrowing L (emitDefers L) (L.tries.headD 0)).run env fuel
            ⟨state.env, some error⟩ = (⟨next.env, some error⟩, .done)) ∨
      ((leaveDown env fuel L stray L.defers (state, .thrown error)).2 ≠ .normal ∧
        (emitDefersWhileThrowing L (emitDefers L) (L.tries.headD 0)).run env fuel
            ⟨state.env, some error⟩ =
          asCode L (leaveDown env fuel L stray L.defers (state, .thrown error))) := by
  rw [emitDefersWhileThrowing]
  by_cases few : L.defers.length ≤ L.tries.headD 0
  · left
    rw [if_pos few]
    exact ⟨state, leaveDown_stops few, by rw [Code.run]⟩
  rw [if_neg few, Code.run]
  obtain ⟨next, after, leads, same, runs⟩ | ⟨left_normal, runs⟩ :=
    emitDefers_run lowered ready.pending (by simp) (by simp) fits met
  · left
    obtain rfl := eq_of_cross_thrown same
    refine ⟨next, leads, ?_⟩
    change (emitDefers L (L.tries.headD 0)).run env fuel ⟨state.env, none⟩ = _ at runs
    rw [runs]
  · right
    refine ⟨left_normal, ?_⟩
    change (emitDefers L (L.tries.headD 0)).run env fuel ⟨state.env, none⟩ = _ at runs
    rw [runs]
    have left_done := asCode_left (L := L) left_normal
    rcases reached : asCode L (leaveDown env fuel L stray L.defers (state, .thrown error))
      with ⟨after, outcome⟩
    rw [reached] at left_done
    cases outcome with
    | done => exact absurd rfl left_done
    | jumps target => rfl
    | returns threw => rfl
    | timeout => rfl

/-- The way of an error out of the statement that throws it. -/
theorem emitUnwind_run (ready : Ready L loops stray) (lowered : DefersLowered env fuel L L.defers)
    (fits : Fits loops stray (state, .thrown error))
    (met : (leaveDown env fuel L stray L.defers (state, .thrown error)).1.strayed = false) :
    (emitUnwind L (emitDefers L)).run env fuel ⟨state.env, some error⟩ =
      asCode L (leaveDown env fuel L stray L.defers (state, .thrown error)) := by
  have led := emitDefersWhileThrowing_run ready lowered fits met
  rw [emitUnwind]
  split
  · next deferCount outer tries =>
    simp only [tries, List.headD_cons] at led
    obtain ⟨next, leads, runs⟩ | ⟨left_normal, runs⟩ := led
    · rw [Code.run_seq_done runs, leads, asCode, if_neg (by simp [tries]), Code.run]
    · exact Code.run_seq_left runs (asCode_left left_normal)
  · next tries =>
    simp only [tries, List.headD_nil] at led
    obtain ⟨next, leads, runs⟩ | ⟨left_normal, runs⟩ := led
    · rw [Code.run_seq_done runs, leads, asCode, if_pos tries, Code.run]
    · exact Code.run_seq_left runs (asCode_left left_normal)

/-- The way of an exit out of the statement that takes it. -/
theorem emitExit_run (ready : Ready L loops stray) (lowered : DefersLowered env fuel L L.defers)
    {exit : Exit} {crossed : Bool} {last : Code}
    (runs_last : ∀ machine : Machine σ ε, last.run env fuel machine = (machine, outcome))
    (same_outcome : ∀ (state : RunState σ) crossed,
      asCode L (state, (.leaves exit crossed : Outcome ε)) =
      (⟨state.env, none⟩, outcome))
    (fits : Fits loops stray (state, (.leaves exit crossed : Outcome ε)))
    (met : (leaveDown env fuel L stray L.defers (state, .leaves exit crossed)).1.strayed = false) :
    (Code.seq (emitDefers L (L.downTo (.leaves exit crossed : Outcome ε))) last).run env fuel
        ⟨state.env, none⟩ =
      asCode L (leaveDown env fuel L stray L.defers (state, .leaves exit crossed)) := by
  obtain ⟨next, after, leads, same, runs⟩ | ⟨left_normal, runs⟩ :=
    emitDefers_run lowered ready.pending (by simp) (by simp) fits met
  · obtain ⟨final, rfl⟩ := eq_of_cross_leaves same
    rw [Code.run_seq_done runs, leads, runs_last, same_outcome]
  · exact Code.run_seq_left runs (asCode_left left_normal)

end Emit

section Constructs

variable {σ ε : Type} {env : Environment σ ε} {fuel : ℕ} {L : Lowerer} {loops : List ℕ}
  {stray : Bool}
variable {body : AstBlock} {condition loop : ℕ} {state next : RunState σ} {decision : Bool}
  {result : RunState σ × Outcome ε} {machine : Machine σ ε}

theorem runCall_lowered (ready : Ready L loops stray) (lowered : DefersLowered env fuel L L.defers)
    (id : ℕ) (state : RunState σ)
    (met : (complete env fuel L stray (runCall env stray id state)).1.strayed = false) :
    checkThrow (fun machine => (emitUnwind L (emitDefers L)).run env fuel machine) none
        (env.call id state.env) =
      asCode L (complete env fuel L stray (runCall env stray id state)) := by
  have fits : Fits loops stray (runCall env stray id state) := runCall_fits id state
  rw [runCall] at fits met ⊢
  generalize env.call id state.env = result at fits met ⊢
  obtain ⟨next, _ | error⟩ := result
  · rfl
  · exact emitUnwind_run ready lowered fits met

theorem runCall_cases (id : ℕ) (state : RunState σ) :
    (runCall env stray id state).2 = .normal ∨ ∃ error, (runCall env stray id state).2 = .thrown error := by
  rw [runCall]
  obtain ⟨next, _ | error⟩ := env.call id state.env
  · exact .inl rfl
  · exact .inr ⟨error, rfl⟩

theorem call_lowered (lowered : DefersLowered env fuel L L.defers) (id : ℕ) :
    Lowered env fuel L (.call id) := by
  intro loops stray ready _ state met
  rw [AstStatement.exec] at met ⊢
  rw [lowerStatement, Code.run]
  exact runCall_lowered ready lowered id state met

theorem throw_lowered (lowered : DefersLowered env fuel L L.defers) (id : ℕ) :
    Lowered env fuel L (.throw id) := by
  intro loops stray ready _ state met
  rw [AstStatement.exec] at met ⊢
  rw [lowerStatement, Code.run]
  exact runCall_lowered ready lowered id state met

theorem ret_lowered (lowered : DefersLowered env fuel L L.defers) (values : ℕ) :
    Lowered env fuel L (.ret values) := by
  intro loops stray ready scopes state met
  have fits : Fits loops stray ((AstStatement.ret values).exec env fuel stray state) :=
    (AstStatement.ret values).exec_fits scopes state
  rw [AstStatement.exec] at met fits ⊢
  rw [lowerStatement]
  have calls := runCall_lowered ready lowered values state
  have ways := @runCall_cases _ _ env stray values state
  rcases ran : runCall env stray values state with ⟨next, outcome⟩
  rw [ran] at met fits calls ways
  obtain rfl | ⟨error, rfl⟩ : outcome = .normal ∨ ∃ error, outcome = .thrown error := ways
  · have unstrayed : next.strayed = false := unstrayed_of_complete met
    have values_run : (Code.call values (emitUnwind L (emitDefers L))).run env fuel
        ⟨state.env, none⟩ = (⟨next.env, none⟩, .done) := by
      rw [Code.run]
      exact calls unstrayed
    rw [Code.run_seq_done values_run]
    exact emitExit_run ready lowered (fun machine => by rw [Code.run]) (fun _ _ => rfl) fits met
  · apply Code.run_seq_left
    · rw [Code.run]
      exact calls met
    · exact asCode_left (leaveDown_ne_normal _ (by simp))

theorem breakOrContinue_lowered (lowered : DefersLowered env fuel L L.defers) (isBreak : Bool)
    (loop : ℕ) : Lowered env fuel L (.breakOrContinue isBreak loop) := by
  intro loops stray ready scopes state met
  have fits : Fits loops stray ((AstStatement.breakOrContinue isBreak loop).exec env fuel stray state) :=
    (AstStatement.breakOrContinue isBreak loop).exec_fits scopes state
  rw [AstStatement.exec] at met fits ⊢
  obtain ⟨found, finds, -⟩ := ready.reachable loop scopes
  have exits := @emitExit_run _ _ _ _ _ _ _ _ _ ready lowered _ _ (.jump (.loop isBreak loop))
    (fun machine => by rw [Code.run]) (fun _ _ => rfl) fits met
  have found_it : L.findLoop loop = some found := finds
  rw [lowerStatement, found_it]
  rw [Lowerer.downTo, found_it] at exits
  exact exits

theorem block_lowered (body_lowered : LoweredBlock env fuel L [] body) :
    Lowered env fuel L (.block body) := by
  intro loops stray ready scopes state met
  rw [AstStatement.exec] at met ⊢
  rw [lowerStatement]
  exact body_lowered loops stray ready scopes (by simp) state met

/-- A condition that does not throw decides as in the meaning, and one that throws leaves as an
error does. -/
theorem runCondition_lowered (ready : Ready L loops stray)
    (lowered : DefersLowered env fuel L L.defers) {error : ε}
    (throws : runCondition env stray (some condition) state = (next, .error error))
    (met : (complete env fuel L stray (next, .thrown error)).1.strayed = false) :
    env.condition condition state.env = (next.env, .error error) ∧
      (emitUnwind L (emitDefers L)).run env fuel ⟨next.env, some error⟩ =
        asCode L (complete env fuel L stray (next, .thrown error)) := by
  have fits : Fits loops stray (next, (.thrown error : Outcome ε)) :=
    .ofThrown (runCondition_error throws)
  refine ⟨?_, emitUnwind_run ready lowered fits met⟩
  rw [runCondition] at throws
  split at throws
  · simp at throws
  · next after thrown decides =>
    simp only [Prod.mk.injEq, Except.error.injEq] at throws
    obtain ⟨rfl, rfl⟩ := throws
    exact decides

theorem runCondition_decides
    (decides : runCondition env stray (some condition) state = (next, .ok decision)) :
    env.condition condition state.env = (next.env, .ok decision) := by
  rw [runCondition] at decides
  split at decides
  · next after decided same =>
    simp only [Prod.mk.injEq, Except.ok.injEq] at decides
    obtain ⟨rfl, rfl⟩ := decides
    exact same
  · simp at decides

theorem ifElse_lowered (lowered : DefersLowered env fuel L L.defers) (condition : ℕ)
    {thenBlock elseBlock : AstBlock} (then_lowered : LoweredBlock env fuel L [] thenBlock)
    (else_lowered : LoweredBlock env fuel L [] elseBlock) :
    Lowered env fuel L (.ifElse condition thenBlock elseBlock) := by
  intro loops stray ready scopes state met
  rw [AstStatement.exec] at met ⊢
  rw [lowerStatement, Code.run]
  rcases tests : runCondition env stray (some condition) state with ⟨next, error | decision⟩
  · rw [tests] at met
    obtain ⟨throws, unwinds⟩ := runCondition_lowered ready lowered tests met
    rw [throws]
    exact unwinds
  · rw [tests] at met
    rw [runCondition_decides tests]
    cases decision with
    | true => exact then_lowered loops stray ready scopes.1 (by simp) next met
    | false => exact else_lowered loops stray ready scopes.2 (by simp) next met

/-- Below the innermost try, an exit crosses it at the first deferred statement. -/
theorem leaveDown_cross {stack : List AstStatement} (below_try : stack.length ≤ L.tries.headD 0)
    (state : RunState σ) (outcome : Outcome ε) :
    (leaveDown env fuel L stray stack (state, outcome) = (state, outcome) ∧
        leaveDown env fuel L stray stack (state, outcome.cross) = (state, outcome.cross)) ∨
      leaveDown env fuel L stray stack (state, outcome) =
        leaveDown env fuel L stray stack (state, outcome.cross) := by
  cases stack with
  | nil => exact .inl ⟨rfl, rfl⟩
  | cons statement below =>
    have crosses : below.length < L.tries.headD 0 := below_try
    have same_count : L.downTo outcome.cross = L.downTo outcome := by
      rw [← downTo_seenAt below.length outcome.cross, ← downTo_seenAt below.length outcome]
      rw [Lowerer.seenAt, Lowerer.seenAt, if_pos crosses, if_pos crosses]
      cases outcome <;> rfl
    rw [leaveDown, leaveDown, same_count]
    split
    · exact .inl ⟨rfl, rfl⟩
    · right
      rw [Lowerer.seenAt, Lowerer.seenAt, if_pos crosses, if_pos crosses]
      cases outcome <;> rfl

theorem asCode_of_no_error (other : Lowerer) (no_error : ∀ error, result.2 ≠ .thrown error) :
    asCode L result = asCode other result ∧ (asCode other result).2 ≠ .jumps .catchBlock := by
  obtain ⟨state, outcome⟩ := result
  cases outcome with
  | normal => exact ⟨rfl, by simp [asCode]⟩
  | timeout => exact ⟨rfl, by simp [asCode]⟩
  | thrown error => exact absurd rfl (no_error error)
  | leaves exit crossed => cases exit <;> exact ⟨rfl, by simp [asCode]⟩

theorem Code.run_tryCatch_left {body handler : Code} {result : Machine σ ε × CodeOutcome}
    (runs : body.run env fuel machine = result) (left : result.2 ≠ .jumps .catchBlock) :
    (Code.tryCatch body handler).run env fuel machine = result := by
  rw [Code.run, runs]
  split
  · exact absurd rfl left
  · rfl

/-- The code of the body of a try, for an exit that comes out of it. -/
theorem exit_of_try (ready : Ready L loops stray) {exit : Exit} {crossed : Bool}
    (fits : Fits loops false (state, (.leaves exit crossed : Outcome ε)))
    (met : (leaveDown env fuel L stray L.defers (state, .leaves exit true)).1.strayed = false) :
    (leaveDown env fuel L.pushTry false L.defers (state, .leaves exit crossed)).1.strayed = false ∧
      asCode L.pushTry (leaveDown env fuel L.pushTry false L.defers (state, .leaves exit crossed)) =
        asCode L (leaveDown env fuel L stray L.defers (state, .leaves exit true)) ∧
      (asCode L (leaveDown env fuel L stray L.defers (state, .leaves exit true))).2 ≠
        .jumps .catchBlock := by
  have crossed_fits : Fits loops true (state, (.leaves exit true : Outcome ε)) := by
    refine ⟨?_, ?_, by simp⟩
    · intro isBreak loop _ leaves
      obtain ⟨rfl, -⟩ := Outcome.leaves.inj leaves
      exact fits.loops isBreak loop crossed rfl
    · intro _ other after leaves
      exact (Outcome.leaves.inj leaves).2.symm
  have same : leaveDown env fuel L.pushTry false L.defers (state, .leaves exit true) =
      leaveDown env fuel L stray L.defers (state, .leaves exit true) :=
    leaveDown_crossed (show L.pushTry.loops = L.loops from rfl) ready.pending false (by simp)
      crossed_fits met
  have no_error : ∀ error,
      (leaveDown env fuel L stray L.defers (state, .leaves exit true)).2 ≠ .thrown error := by
    intro error throws
    have final_fits : Fits loops true
        (leaveDown env fuel L true L.defers (state, .leaves exit true)) :=
      leaveDown_fits ready.pending crossed_fits
    rw [leaveDown_crossed (L := L) rfl ready.pending true (by simp) crossed_fits met] at final_fits
    rw [final_fits.thrown rfl error throws] at met
    cases met
  obtain ⟨same_code, no_catch⟩ := asCode_of_no_error (L := L.pushTry) L no_error
  obtain ⟨stays, crossed_stays⟩ | leads :=
    @leaveDown_cross _ _ env fuel L.pushTry false L.defers (Nat.le_refl _) state (.leaves exit crossed)
  · change leaveDown env fuel L.pushTry false L.defers (state, .leaves exit true) =
      (state, .leaves exit true) at crossed_stays
    rw [← same, crossed_stays] at met no_catch ⊢
    rw [stays]
    refine ⟨met, ?_, no_catch⟩
    cases exit <;> rfl
  · rw [leads, Outcome.cross, same]
    exact ⟨met, same_code, no_catch⟩

theorem tryCatch_lowered {handler : AstBlock}
    (body_lowered : LoweredBlock env fuel L.pushTry [] body)
    (handler_lowered : LoweredBlock env fuel L [] handler) :
    Lowered env fuel L (.tryCatch body handler) := by
  intro loops stray ready scopes state met
  have body_run := body_lowered loops false ready.pushTry scopes.1 (by simp) state
  have body_fits : Fits loops false (body.exec env fuel false state) := body.exec_fits scopes.1 state
  rw [AstStatement.exec] at met ⊢
  rw [lowerStatement]
  rcases ran : body.exec env fuel false state with ⟨next, outcome⟩
  rw [ran] at met body_run body_fits
  cases outcome with
  | normal =>
    exact Code.run_tryCatch_left (body_run met) (by simp [asCode, complete])
  | timeout =>
    rw [complete_of_ne_normal (by simp), leaveDown_timeout] at met ⊢
    apply Code.run_tryCatch_left _ (by simp [asCode])
    rw [leaveAll, List.foldl_nil, complete_of_ne_normal (by simp), leaveDown_timeout] at body_run
    exact body_run met
  | thrown error =>
    have stops : leaveDown env fuel L.pushTry false L.pushTry.defers (next, .thrown error) =
        (next, .thrown error) := leaveDown_stops (Nat.le_refl _)
    rw [leaveAll, List.foldl_nil, complete_of_ne_normal (by simp), stops, asCode,
      if_neg (by simp [Lowerer.pushTry])] at body_run
    have unstrayed : next.strayed = false := by
      apply Bool.eq_false_iff.mpr
      intro strayed
      have noticed : (complete env fuel L stray (handler.exec env fuel stray
          { next with env := env.catchError error next.env })).1.strayed = true :=
        complete_notices (handler.exec_notices stray _ strayed)
      exact Bool.noConfusion (noticed.symm.trans met)
    have caught : (lowerBlock L.pushTry L.defers.length body).run env fuel ⟨state.env, none⟩ =
        (⟨next.env, some error⟩, .jumps .catchBlock) := body_run unstrayed
    rw [Code.run, caught]
    exact handler_lowered loops stray ready scopes.2 (by simp) _ met
  | leaves exit crossed =>
    obtain ⟨body_met, same_code, no_catch⟩ := exit_of_try ready body_fits met
    apply Code.run_tryCatch_left _ no_catch
    exact (body_run body_met).trans same_code

/-- What a turn of the code does for a turn of the loop. -/
def TurnLowered (env : Environment σ ε) (fuel : ℕ) (L : Lowerer) (stray : Bool)
    (turn : RunState σ → RunState σ × Option (Outcome ε))
    (code : Machine σ ε → Machine σ ε × Option CodeOutcome) : Prop :=
  ∀ state, match turn state with
    | (next, none) => next.strayed = false → code ⟨state.env, none⟩ = (⟨next.env, none⟩, none)
    | (next, some outcome) => (complete env fuel L stray (next, outcome)).1.strayed = false →
      code ⟨state.env, none⟩ = ((asCode L (complete env fuel L stray (next, outcome))).1,
        some (asCode L (complete env fuel L stray (next, outcome))).2)

/-- Turn by turn the code of a loop does what the loop does. -/
theorem takeTurns_lowered {turn : RunState σ → RunState σ × Option (Outcome ε)}
    {code : Machine σ ε → Machine σ ε × Option CodeOutcome}
    (lowered : TurnLowered env fuel L stray turn code)
    (notices : ∀ state, state.strayed = true → (turn state).1.strayed = true)
    (turns : ℕ) (state : RunState σ)
    (met : (complete env fuel L stray (takeTurns turn .timeout turns state)).1.strayed = false) :
    takeTurns code .timeout turns ⟨state.env, none⟩ =
      asCode L (complete env fuel L stray (takeTurns turn .timeout turns state)) := by
  induction turns generalizing state with
  | zero =>
    rw [takeTurns, takeTurns, complete_of_ne_normal (by simp), leaveDown_timeout]
    rfl
  | succ turns ih =>
    have taken := lowered state
    rw [takeTurns] at met ⊢
    rw [takeTurns]
    rcases ran : turn state with ⟨next, _ | outcome⟩
    · rw [ran] at taken met
      have unstrayed : next.strayed = false := by
        apply Bool.eq_false_iff.mpr
        intro strayed
        have noticed := @complete_notices _ _ _ env fuel L stray
          (@takeTurns_notices _ _ turns _ notices next strayed)
        exact Bool.noConfusion (noticed.symm.trans met)
      rw [taken unstrayed]
      exact ih next met
    · rw [ran] at taken met
      rw [taken met]

theorem condition_decides {condition : Option ℕ}
    (decides : runCondition env stray condition state = (next, .ok decision)) :
    condition.elim (state.env, .ok true) (env.condition · state.env) = (next.env, .ok decision) := by
  cases condition with
  | none =>
    simp only [runCondition, Prod.mk.injEq, Except.ok.injEq] at decides
    obtain ⟨rfl, rfl⟩ := decides
    rfl
  | some condition => exact runCondition_decides decides

theorem loop_of_asCode {isBreak : Bool} (jumps : (asCode L result).2 = .jumps (.loop isBreak loop)) :
    ∃ crossed, result.2 = .leaves (.loop isBreak loop) crossed := by
  obtain ⟨state, outcome⟩ := result
  cases outcome with
  | normal => simp [asCode] at jumps
  | timeout => simp [asCode] at jumps
  | thrown error =>
    rw [asCode] at jumps
    split at jumps <;> simp at jumps
  | leaves exit crossed =>
    cases exit with
    | ret => simp [asCode] at jumps
    | loop left leaves =>
      simp only [asCode, CodeOutcome.jumps.injEq, JumpTarget.loop.injEq] at jumps
      obtain ⟨rfl, rfl⟩ := jumps
      exact ⟨crossed, rfl⟩

/-- A turn whose body leaves the loop and goes on somewhere else. -/
theorem loopTurn_left {condition step : Option ℕ}
    {unwind body : Machine σ ε → Machine σ ε × CodeOutcome} {state tested : σ}
    {outcome : CodeOutcome}
    (decides : condition.elim (state, .ok true) (env.condition · state) = (tested, .ok true))
    (runs : body ⟨tested, none⟩ = (machine, outcome)) (left : outcome ≠ .done)
    (not_here : ∀ isBreak, outcome ≠ .jumps (.loop isBreak loop)) :
    loopTurn env loop condition step unwind body ⟨state, none⟩ = (machine, some outcome) := by
  simp only [loopTurn, decides, runs]
  cases outcome with
  | done => exact absurd rfl left
  | returns threw => rfl
  | timeout => rfl
  | jumps target =>
    cases target with
    | catchBlock => rfl
    | loop isBreak other =>
      have different : other ≠ loop := by
        rintro rfl
        exact not_here isBreak rfl
      simp only [if_neg different]

/-- A body that leaves the loop and goes on somewhere else has run the defers around the loop. -/
theorem body_left (ready : Ready L loops stray) (other : loop ∉ loops) (leaves : result.2 ≠ .normal)
    (fits : Fits loops stray result) :
    complete env fuel (L.pushLoop loop) stray result = complete env fuel L stray result ∧
      asCode (L.pushLoop loop) (complete env fuel L stray result) =
        asCode L (complete env fuel L stray result) ∧
      (asCode L (complete env fuel L stray result)).2 ≠ .done ∧
      ∀ isBreak, (asCode L (complete env fuel L stray result)).2 ≠ .jumps (.loop isBreak loop) := by
  rw [complete_of_ne_normal leaves, complete_of_ne_normal leaves]
  refine ⟨leaveDown_pushLoop other ready.pending fits, ?_, ?_, ?_⟩
  · obtain ⟨state, outcome⟩ := leaveDown env fuel L stray L.defers result
    cases outcome with
    | leaves exit crossed => cases exit <;> rfl
    | normal => rfl
    | thrown error => rfl
    | timeout => rfl
  · exact asCode_left (leaveDown_ne_normal _ leaves)
  · intro isBreak jumps
    obtain ⟨crossed, leads⟩ := loop_of_asCode jumps
    exact other ((leaveDown_fits ready.pending fits).loops isBreak loop crossed leads)

theorem turn_lowered (ready : Ready L loops stray) (lowered : DefersLowered env fuel L L.defers)
    (other : loop ∉ loops) (condition step : Option ℕ) (scopes : body.Scoped (loop :: loops))
    (body_lowered : LoweredBlock env fuel (L.pushLoop loop) [] body) :
    TurnLowered env fuel L stray
      (runTurn env stray loop condition step fun state => body.exec env fuel stray state)
      (loopTurn env loop condition step
        (fun machine => (emitUnwind L (emitDefers L)).run env fuel machine)
        fun machine => (lowerBlock (L.pushLoop loop) L.defers.length body).run env fuel machine) := by
  intro state
  rw [runTurn]
  rcases tests : runCondition env stray condition state with ⟨tested, error | decision⟩
  · intro met
    cases condition with
    | none => simp [runCondition] at tests
    | some condition =>
      obtain ⟨throws, unwinds⟩ := runCondition_lowered ready lowered tests met
      simp only [loopTurn, Option.elim_some, throws, unwinds]
  have decides := condition_decides tests
  cases decision with
  | false =>
    intro met
    simp only [loopTurn, decides]
    rfl
  | true =>
    have body_run := body_lowered (loop :: loops) stray (ready.pushLoop other) scopes (by simp) tested
    have body_fits : Fits (loop :: loops) stray (body.exec env fuel stray tested) :=
      body.exec_fits scopes tested
    rcases ran : body.exec env fuel stray tested with ⟨next, outcome⟩
    rw [ran] at body_run body_fits
    have goes_on : ∀ {outcome : Outcome ε}, outcome ≠ .normal → Fits loops stray (next, outcome) →
        ((complete env fuel (L.pushLoop loop) stray (next, outcome)).1.strayed = false →
          (lowerBlock (L.pushLoop loop) L.defers.length body).run env fuel ⟨tested.env, none⟩ =
            asCode (L.pushLoop loop) (complete env fuel (L.pushLoop loop) stray (next, outcome))) →
        (complete env fuel L stray (next, outcome)).1.strayed = false →
          loopTurn env loop condition step
              (fun machine => (emitUnwind L (emitDefers L)).run env fuel machine)
              (fun machine => (lowerBlock (L.pushLoop loop) L.defers.length body).run env fuel machine)
              ⟨state.env, none⟩ =
            ((asCode L (complete env fuel L stray (next, outcome))).1,
              some (asCode L (complete env fuel L stray (next, outcome))).2) := by
      intro outcome leaves fits body_run met
      obtain ⟨same, same_code, not_done, not_here⟩ :=
        @body_left _ _ env fuel _ _ _ _ _ ready other leaves fits
      rw [same, same_code] at body_run
      exact loopTurn_left decides (body_run met) not_done not_here
    cases outcome with
    | normal =>
      simp only [ran]
      intro met
      have runs : (lowerBlock (L.pushLoop loop) L.defers.length body).run env fuel
          ⟨tested.env, none⟩ = (⟨next.env, none⟩, .done) := body_run met
      simp only [loopTurn, decides, runs]
    | timeout =>
      simp only [ran]
      exact goes_on (by simp) (.timeout next) body_run
    | thrown error =>
      simp only [ran]
      exact goes_on (by simp) (.ofThrown fun straying => body_fits.thrown straying error rfl) body_run
    | leaves exit crossed =>
      have weaker : (∀ isBreak, exit ≠ .loop isBreak loop) →
          Fits loops stray (next, (.leaves exit crossed : Outcome ε)) := by
        intro not_here
        refine ⟨?_, body_fits.crossed, by simp⟩
        intro isBreak left after leaves
        obtain ⟨rfl, -⟩ := Outcome.leaves.inj leaves
        obtain rfl | member := List.mem_cons.mp (body_fits.loops isBreak left crossed rfl)
        · exact absurd rfl (not_here isBreak)
        · exact member
      cases exit with
      | ret =>
        simp only [ran]
        exact goes_on (by simp) (weaker (by simp)) body_run
      | loop isBreak left =>
        by_cases here : left = loop
        · subst here
          have stops : leaveDown env fuel (L.pushLoop left) stray (L.pushLoop left).defers
              (next, .leaves (.loop isBreak left) crossed) =
                (next, .leaves (.loop isBreak left) crossed) := by
            apply leaveDown_stops
            simp [Lowerer.downTo, Lowerer.findLoop, Lowerer.pushLoop]
          rw [leaveAll, List.foldl_nil, complete_of_ne_normal (by simp), stops] at body_run
          have runs (unstrayed : next.strayed = false) :
              (lowerBlock (L.pushLoop left) L.defers.length body).run env fuel ⟨tested.env, none⟩ =
                (⟨next.env, none⟩, .jumps (.loop isBreak left)) := body_run unstrayed
          cases isBreak with
          | true =>
            simp only [ran, if_true]
            intro met
            simp only [loopTurn, decides, runs met, if_true]
            rfl
          | false =>
            simp only [ran, if_true]
            intro met
            simp only [loopTurn, decides, runs met, if_true]
            rfl
        · simp only [ran, if_neg here]
          exact goes_on (by simp) (weaker (by simpa using here)) body_run

theorem loop_lowered (lowered : DefersLowered env fuel L L.defers) (loop : ℕ)
    (condition step : Option ℕ) (body_lowered : LoweredBlock env fuel (L.pushLoop loop) [] body) :
    Lowered env fuel L (.loop loop condition step body) := by
  intro loops stray ready scopes state met
  rw [AstStatement.exec] at met ⊢
  rw [lowerStatement, Code.run]
  apply takeTurns_lowered _ _ fuel state met
  · exact turn_lowered ready lowered scopes.1 condition step scopes.2 body_lowered
  · exact fun state strayed => runTurn_notices (body.exec_notices stray) strayed

end Constructs

section Blocks

variable {σ ε : Type} {env : Environment σ ε} {fuel : ℕ} {L : Lowerer} {loops : List ℕ}
  {stray : Bool} {own : List AstStatement}
variable {first : AstStatement} {rest : AstBlock}

theorem emitDefers_stops {downTo : ℕ} (few : L.defers.length ≤ downTo) :
    emitDefers L downTo = .skip := by
  rw [emitDefers]
  split
  · rfl
  · rw [if_pos few]

/-- The deferred statements at the end of a block. -/
theorem emitDefers_of_block (ready : Ready L loops stray)
    (scopes : ∀ statement ∈ own, statement.Scoped loops)
    (lowered : DefersLowered env fuel L (own ++ L.defers)) (state : RunState σ)
    (met : (complete env fuel L stray
      (leaveAll env fuel stray own (state, .normal))).1.strayed = false) :
    (emitDefers { L with defers := own ++ L.defers } L.defers.length).run env fuel ⟨state.env, none⟩ =
      asCode L (complete env fuel L stray (leaveAll env fuel stray own (state, .normal))) := by
  induction own generalizing state with
  | nil =>
    have none_left : emitDefers { L with defers := [] ++ L.defers } L.defers.length = .skip :=
      emitDefers_stops (Nat.le_refl _)
    rw [none_left, Code.run]
    rfl
  | cons statement below ih =>
    rw [List.cons_append] at lowered
    obtain ⟨statement_lowered, below_lowered⟩ := lowered
    have below_scopes : ∀ other ∈ below, other.Scoped loops :=
      fun other member => scopes other (List.mem_cons_of_mem _ member)
    have below_ready : Ready { L with defers := below ++ L.defers } loops stray :=
      ready.append below_scopes
    have runs := statement_lowered loops stray below_ready (scopes statement List.mem_cons_self) state
    have fits : Fits loops stray (statement.exec env fuel stray state) :=
      statement.exec_fits (scopes statement List.mem_cons_self) state
    have unfolded : leaveAll env fuel stray (statement :: below) (state, .normal) =
        leaveAll env fuel stray below (runDeferred
          (fun stray state => statement.exec env fuel stray state) stray (state, .normal)) := rfl
    have asks : (stray || (Outcome.normal : Outcome ε).crossed) = stray := Bool.or_false stray
    rw [unfolded] at met ⊢
    have more : ¬(below ++ L.defers).length + 1 ≤ L.defers.length := by
      rw [List.length_append]
      omega
    rw [List.cons_append, emitDefers_cons, if_neg more]
    rcases ran : statement.exec env fuel stray state with ⟨next, outcome⟩
    rw [ran] at runs fits
    by_cases normal : outcome = .normal
    · subst normal
      rw [@runDeferred_of_normal _ _ _ _ _ next _ (by simp) (by rw [asks]; exact ran)] at met ⊢
      have unstrayed : next.strayed = false := unstrayed_of_leaveAll (unstrayed_of_complete met)
      rw [Code.run_seq_done (runs unstrayed)]
      exact ih below_scopes below_lowered next met
    · rw [runDeferred_of_ne_normal (by simp) (by rw [asks, ran]; exact normal), asks, ran] at met ⊢
      have left : (leaveAll env fuel stray below (next, outcome)).2 ≠ .normal :=
        leaveAll_ne_normal below normal
      have same := leaveDown_append ready below_scopes normal fits (unstrayed_of_complete met)
      rw [complete_of_ne_normal normal, leaveDown_defers, asCode_defers, same,
        ← complete_of_ne_normal left] at runs
      apply Code.run_seq_left (runs met)
      apply asCode_left
      rw [complete_of_ne_normal left]
      exact leaveDown_ne_normal _ left

theorem nil_lowered (lowered : DefersLowered env fuel L (own ++ L.defers)) :
    LoweredBlock env fuel L own .nil := by
  intro loops stray ready _ scopes state met
  rw [AstBlock.exec] at met ⊢
  rw [lowerBlock]
  exact emitDefers_of_block ready scopes lowered state met

theorem exec_statement_left {state : RunState σ}
    (left : (first.exec env fuel stray state).2 ≠ .normal) :
    (AstBlock.statement first rest).exec env fuel stray state = first.exec env fuel stray state := by
  rw [AstBlock.exec]
  split
  · next after ran =>
    rw [ran] at left
    exact absurd rfl left
  · rfl

theorem statement_lowered
    (first_lowered : Lowered env fuel { L with defers := own ++ L.defers } first)
    (rest_lowered : LoweredBlock env fuel L own rest) :
    LoweredBlock env fuel L own (.statement first rest) := by
  intro loops stray ready block_scopes scopes state met
  have fits : Fits loops stray (first.exec env fuel stray state) := first.exec_fits block_scopes.1 state
  have runs := first_lowered loops stray (ready.append scopes) block_scopes.1 state
  rw [lowerBlock]
  by_cases normal : (first.exec env fuel stray state).2 = .normal
  · rw [AstBlock.exec] at met ⊢
    rcases ran : first.exec env fuel stray state with ⟨next, outcome⟩
    rw [ran] at normal runs met
    obtain rfl : outcome = .normal := normal
    have unstrayed : next.strayed = false := by
      apply Bool.eq_false_iff.mpr
      intro strayed
      have noticed : (complete env fuel L stray (leaveAll env fuel stray own
          (rest.exec env fuel stray next))).1.strayed = true :=
        complete_notices (leaveAll_notices own _ (rest.exec_notices stray next strayed))
      exact Bool.noConfusion (noticed.symm.trans met)
    rw [Code.run_seq_done (runs unstrayed)]
    exact rest_lowered loops stray ready block_scopes.2 scopes next met
  · rw [exec_statement_left normal] at met ⊢
    rcases ran : first.exec env fuel stray state with ⟨next, outcome⟩
    rw [ran] at normal runs met fits
    have left : (leaveAll env fuel stray own (next, outcome)).2 ≠ .normal :=
      leaveAll_ne_normal own normal
    have same := leaveDown_append ready scopes normal fits (unstrayed_of_complete met)
    rw [complete_of_ne_normal normal, leaveDown_defers, asCode_defers, same,
      ← complete_of_ne_normal left] at runs
    apply Code.run_seq_left (runs met)
    apply asCode_left
    rw [complete_of_ne_normal left]
    exact leaveDown_ne_normal _ left

theorem deferred_lowered {statement : AstStatement}
    (rest_lowered : LoweredBlock env fuel L (statement :: own) rest) :
    LoweredBlock env fuel L own (.deferred statement rest) := by
  intro loops stray ready block_scopes scopes state met
  rw [AstBlock.exec] at met ⊢
  rw [lowerBlock]
  apply rest_lowered loops stray ready block_scopes.2 _ state met
  intro other member
  obtain rfl | member := List.mem_cons.mp member
  · exact block_scopes.1
  · exact scopes other member

theorem defersLowered_of_size {bound : ℕ}
    (lowered : ∀ (L : Lowerer) (statement : AstStatement),
      Lowerer.size L.defers + statement.size < bound → Lowered env fuel L statement)
    {stack : List AstStatement} (size_le : Lowerer.size stack ≤ bound) :
    DefersLowered env fuel L stack := by
  induction stack with
  | nil => trivial
  | cons statement below ih =>
    rw [Lowerer.size] at size_le
    exact ⟨lowered _ _ (by simp only; omega), ih (by omega)⟩

/-- All code does what its statements do, by induction on what there is to lower. -/
theorem lowered_of_size (bound : ℕ) :
    (∀ (L : Lowerer) (statement : AstStatement),
      Lowerer.size L.defers + statement.size < bound → Lowered env fuel L statement) ∧
    ∀ (L : Lowerer) (own : List AstStatement) (block : AstBlock),
      Lowerer.size (own ++ L.defers) + block.size < bound → LoweredBlock env fuel L own block := by
  induction bound with
  | zero => exact ⟨fun _ _ none => absurd none (Nat.not_lt_zero _),
      fun _ _ _ none => absurd none (Nat.not_lt_zero _)⟩
  | succ bound ih =>
    obtain ⟨statements, blocks⟩ := ih
    constructor
    · intro L statement size_lt
      have defers : DefersLowered env fuel L L.defers :=
        defersLowered_of_size statements (by omega)
      cases statement with
      | call id => exact call_lowered defers id
      | throw id => exact throw_lowered defers id
      | ret values => exact ret_lowered defers values
      | breakOrContinue isBreak loop => exact breakOrContinue_lowered defers isBreak loop
      | block body =>
        rw [AstStatement.size] at size_lt
        exact block_lowered (blocks L [] body (by rw [List.nil_append]; omega))
      | ifElse condition thenBlock elseBlock =>
        rw [AstStatement.size] at size_lt
        apply ifElse_lowered defers condition
        · exact blocks L [] thenBlock (by rw [List.nil_append]; omega)
        · exact blocks L [] elseBlock (by rw [List.nil_append]; omega)
      | loop loop condition step body =>
        rw [AstStatement.size] at size_lt
        apply loop_lowered defers
        apply blocks (L.pushLoop loop) [] body
        change Lowerer.size L.defers + body.size < bound
        omega
      | tryCatch body handler =>
        rw [AstStatement.size] at size_lt
        apply tryCatch_lowered
        · apply blocks L.pushTry [] body
          change Lowerer.size L.defers + body.size < bound
          omega
        · exact blocks L [] handler (by rw [List.nil_append]; omega)
    · intro L own block size_lt
      cases block with
      | nil =>
        rw [AstBlock.size] at size_lt
        exact nil_lowered (defersLowered_of_size statements (by omega))
      | statement first rest =>
        rw [AstBlock.size] at size_lt
        apply statement_lowered
        · exact statements _ first (by simp only; omega)
        · exact blocks L own rest (by omega)
      | deferred statement rest =>
        rw [AstBlock.size] at size_lt
        apply deferred_lowered
        apply blocks L (statement :: own) rest
        rw [List.cons_append, Lowerer.size]
        omega

end Blocks

section Functions

variable {σ ε : Type}

/-- What a call of the function means. -/
def FunctionBody.exec (env : Environment σ ε) (fuel : ℕ) (body : FunctionBody) (start : σ) :
    RunState σ × Outcome ε := body.block.exec env fuel false { env := start }

/-- How a function comes back to its caller, with the error that it threw. -/
def returned : RunState σ × Outcome ε → Machine σ ε × CodeOutcome
  | (state, .thrown error) => (⟨state.env, some error⟩, .returns true)
  | (state, .timeout) => (⟨state.env, none⟩, .timeout)
  | (state, _) => (⟨state.env, none⟩, .returns false)

/-- The code of the function runs as its statements mean. -/
def RunsAsMeant (env : Environment σ ε) (fuel : ℕ) (body : FunctionBody) (start : σ) : Prop :=
  (lowerFunction body).run env fuel ⟨start, none⟩ = returned (body.exec env fuel start)

/-- In a run where no deferred statement throws on the way of an exit out of a try. -/
theorem runsAsMeant_of_unstrayed (env : Environment σ ε) (fuel : ℕ) (body : FunctionBody) (start : σ)
    (met : (body.exec env fuel start).1.strayed = false) : RunsAsMeant env fuel body start := by
  have ready : Ready {} [] false :=
    ⟨fun _ none => absurd none (List.not_mem_nil), fun _ => Nat.le_refl _, trivial⟩
  have block_run := (@lowered_of_size _ _ env fuel (body.block.size + 1)).2 {} []
    body.block (by simp [Lowerer.size]) [] false ready body.well_scoped (by simp) { env := start }
  have fits : Fits [] false (body.exec env fuel start) := body.block.exec_fits body.well_scoped _
  rw [RunsAsMeant, lowerFunction]
  change (complete env fuel {} false (body.exec env fuel start)).1.strayed = false →
    (lowerBlock {} 0 body.block).run env fuel ⟨start, none⟩ =
      asCode {} (complete env fuel {} false (body.exec env fuel start)) at block_run
  rcases ran : body.exec env fuel start with ⟨next, outcome⟩
  rw [ran] at met fits block_run
  cases outcome with
  | normal =>
    rw [Code.run_seq_done (block_run met), Code.run]
    rfl
  | timeout => exact Code.run_seq_left (block_run met) (by simp)
  | thrown error => exact Code.run_seq_left (block_run met) (by simp)
  | leaves exit crossed =>
    cases exit with
    | ret => exact Code.run_seq_left (block_run met) (by simp)
    | loop isBreak loop => exact absurd (fits.loops isBreak loop crossed rfl) List.not_mem_nil

/-- Calls that are written to a log, and throw from 10 on. -/
def logged : Environment (List ℕ) ℕ where
  call id log := (log ++ [id], if 10 ≤ id then some id else none)
  condition id log := (log ++ [id], .ok (log.length < 3))
  step id log := log ++ [id]
  catchError error log := log ++ [error]

/-- `while ... { defer ...; try { if ... { throw } } catch { } }` -/
def caughtInLoop : FunctionBody where
  block := .statement (.loop 0 (some 1) none (.deferred (.call 2)
    (.statement (.tryCatch (.statement (.throw 10) .nil) .nil) .nil))) .nil
  well_scoped := by simp [AstBlock.Scoped, AstStatement.Scoped]

theorem runsAsMeant_caughtInLoop : RunsAsMeant logged 9 caughtInLoop [] :=
  runsAsMeant_of_unstrayed logged 9 caughtInLoop [] (by decide)

/-- `defer` of a call that throws, and `try { return } catch { }`. -/
def returnInTry : FunctionBody where
  block := .deferred (.call 10) (.statement (.tryCatch (.statement (.ret 1) .nil) .nil) .nil)
  well_scoped := by simp [AstBlock.Scoped, AstStatement.Scoped]

/-- The error of the deferred statement is caught by the try that was left, and the statement is run
once more at the end of the block. -/
theorem returnInTry_not_runsAsMeant : ¬RunsAsMeant logged 0 returnInTry [] := by
  have meaning : returnInTry.exec logged 0 [] = (⟨[1, 10], true⟩, .thrown 10) := by decide
  rw [RunsAsMeant, meaning]
  simp [lowerFunction, returnInTry, lowerBlock, lowerStatement, emitDefers, emitUnwind,
    emitDefersWhileThrowing, Lowerer.pushDefer, Lowerer.pushTry, Code.run, checkThrow, logged, returned]

end Functions

end Saad
