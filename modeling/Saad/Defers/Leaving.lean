import Saad.Defers.Lower

/-! # Leaving statements

What is known of the outcome of a statement, and what a way out does with the defers it leaves behind:
`leaveDown` runs them down to where the way out leads, as the lowered code does.
-/

namespace Saad

section Deferred

variable {σ ε : Type} {run : Bool → RunState σ → RunState σ × Outcome ε} {stray : Bool}
  {state next : RunState σ} {pending : Outcome ε}

theorem runDeferred_timeout : runDeferred run stray (state, .timeout) = (state, .timeout) := rfl

theorem runDeferred_of_normal (goes_on : pending ≠ .timeout)
    (runs : run (stray || pending.crossed) state = (next, .normal)) :
    runDeferred run stray (state, pending) = (next, pending) := by
  cases pending with
  | timeout => exact absurd rfl goes_on
  | normal => simp only [runDeferred, runs]
  | leaves exit crossed => simp only [runDeferred, runs]
  | thrown error => simp only [runDeferred, runs]

theorem runDeferred_of_ne_normal (goes_on : pending ≠ .timeout)
    (leaves : (run (stray || pending.crossed) state).2 ≠ .normal) :
    runDeferred run stray (state, pending) = run (stray || pending.crossed) state := by
  cases pending with
  | timeout => exact absurd rfl goes_on
  | normal | leaves exit crossed | thrown error =>
    simp only [runDeferred]
    generalize run _ state = result at leaves ⊢
    obtain ⟨after, outcome⟩ := result
    cases outcome with
    | normal => exact absurd rfl leaves
    | leaves exit crossed => rfl
    | thrown error => rfl
    | timeout => rfl

/-- The ways out after a deferred statement: the one before, or the one of the statement. -/
theorem runDeferred_cases (run : Bool → RunState σ → RunState σ × Outcome ε) (stray : Bool)
    (state : RunState σ) (pending : Outcome ε) :
    (pending = .timeout ∧ runDeferred run stray (state, pending) = (state, .timeout)) ∨
      (∃ next, run (stray || pending.crossed) state = (next, .normal) ∧
        runDeferred run stray (state, pending) = (next, pending)) ∨
      ((run (stray || pending.crossed) state).2 ≠ .normal ∧
        runDeferred run stray (state, pending) = run (stray || pending.crossed) state) := by
  by_cases late : pending = .timeout
  · subst late
    exact .inl ⟨rfl, rfl⟩
  cases ran : run (stray || pending.crossed) state with
  | mk next outcome =>
    by_cases normal : outcome = .normal
    · subst normal
      exact .inr (.inl ⟨next, rfl, runDeferred_of_normal late ran⟩)
    · refine .inr (.inr ⟨normal, ?_⟩)
      rw [runDeferred_of_ne_normal late (by rw [ran]; exact normal), ran]

end Deferred

section Turns

variable {S R : Type} {turn : S → S × Option R} {timeout : R}

/-- What every turn keeps and every result of a turn has, the result of all turns has. -/
theorem takeTurns_induction {I : S → Prop} {P : S × R → Prop}
    (keeps : ∀ state next, I state → turn state = (next, none) → I next)
    (ends : ∀ state next result, I state → turn state = (next, some result) → P (next, result))
    (late : ∀ state, I state → P (state, timeout)) (fuel : ℕ) (state : S) (initial : I state) :
    P (takeTurns turn timeout fuel state) := by
  induction fuel generalizing state with
  | zero => exact late state initial
  | succ fuel ih =>
    rw [takeTurns]
    cases taken : turn state with
    | mk next result =>
      cases result with
      | none => exact ih next (keeps state next initial taken)
      | some result => exact ends state next result initial taken

end Turns

section Outcomes

variable {σ ε : Type} {env : Environment σ ε} {fuel : ℕ}
variable {error : ε} {result : RunState σ × Outcome ε} {condition step : Option ℕ} {loop : ℕ}
  {body : RunState σ → RunState σ × Outcome ε}

/-- An exit of a loop is of a loop around the statement. Where an error would lose its way, an exit
has crossed a try, and an error that leaves the statement has been noticed. -/
structure Fits (loops : List ℕ) (stray : Bool) (result : RunState σ × Outcome ε) : Prop where
  loops : ∀ isBreak loop crossed, result.2 = .leaves (.loop isBreak loop) crossed → loop ∈ loops
  crossed : stray = true → ∀ exit crossed, result.2 = .leaves exit crossed → crossed = true
  thrown : stray = true → ∀ error, result.2 = .thrown error → result.1.strayed = true

variable {loops : List ℕ} {stray : Bool}

theorem Fits.normal (state : RunState σ) : Fits loops stray (state, (.normal : Outcome ε)) :=
  ⟨by simp, by simp, by simp⟩

theorem Fits.timeout (state : RunState σ) : Fits loops stray (state, (.timeout : Outcome ε)) :=
  ⟨by simp, by simp, by simp⟩

theorem Fits.ofThrown {state : RunState σ} (noticed : stray = true → state.strayed = true) :
    Fits loops stray (state, .thrown error) :=
  ⟨by simp, by simp, fun straying _ _ => noticed straying⟩

theorem Fits.weaken {more : List ℕ} {less : Bool} (fits : Fits loops stray result)
    (subset : loops ⊆ more) (weaker : less = true → stray = true) :
    Fits more less result where
  loops isBreak loop crossed leaves := subset (fits.loops isBreak loop crossed leaves)
  crossed straying := fits.crossed (weaker straying)
  thrown straying := fits.thrown (weaker straying)

theorem runCall_fits (id : ℕ) (state : RunState σ) : Fits loops stray (runCall env stray id state) := by
  rw [runCall]
  obtain ⟨next, error | error⟩ := env.call id state.env
  · exact .normal _
  · apply Fits.ofThrown
    intro straying
    simp [straying]

theorem runCondition_error {state next : RunState σ}
    (throws : runCondition env stray condition state = (next, .error error)) :
    stray = true → next.strayed = true := by
  intro straying
  cases condition with
  | none => simp [runCondition] at throws
  | some condition =>
    rw [runCondition] at throws
    split at throws
    · simp at throws
    · next after thrown _ =>
      obtain ⟨rfl, -⟩ := Prod.mk.inj throws
      simp [straying]

theorem runDeferred_fits {run : Bool → RunState σ → RunState σ × Outcome ε}
    (fits : Fits loops stray result)
    (keeps : ∀ straying state, state.strayed = true → (run straying state).1.strayed = true)
    (run_fits : ∀ straying state, Fits loops straying (run straying state)) :
    Fits loops stray (runDeferred run stray result) := by
  obtain ⟨state, pending⟩ := result
  obtain ⟨-, late⟩ | ⟨next, ran, goes_on⟩ | ⟨-, replaced⟩ :=
    runDeferred_cases run stray state pending
  · rw [late]
    exact .timeout _
  · rw [goes_on]
    refine ⟨fits.loops, fits.crossed, ?_⟩
    intro straying error throws
    have kept := keeps (stray || pending.crossed) state (fits.thrown straying error throws)
    rw [ran] at kept
    exact kept
  · rw [replaced]
    apply (run_fits (stray || pending.crossed) state).weaken (fun _ member => member)
    intro straying
    rw [straying, Bool.true_or]

/-- A turn of a loop whose body fits. -/
theorem runTurn_fits (body_fits : ∀ state, Fits (loop :: loops) stray (body state))
    {state next : RunState σ} {outcome : Outcome ε}
    (ends : runTurn env stray loop condition step body state = (next, some outcome)) :
    Fits loops stray (next, outcome) := by
  rw [runTurn] at ends
  split at ends
  · next after error tests =>
    simp only [Prod.mk.injEq, Option.some.injEq] at ends
    obtain ⟨rfl, rfl⟩ := ends
    exact .ofThrown (runCondition_error tests)
  · simp only [Prod.mk.injEq, Option.some.injEq] at ends
    obtain ⟨rfl, rfl⟩ := ends
    exact .normal _
  · next after tests =>
    have fits := body_fits after
    split at ends
    · simp at ends
    · next left isBreak leaves_loop crossed ran =>
      rw [ran] at fits
      split at ends
      · split at ends
        · simp only [Prod.mk.injEq, Option.some.injEq] at ends
          obtain ⟨rfl, rfl⟩ := ends
          exact .normal _
        · simp at ends
      · next other =>
        simp only [Prod.mk.injEq, Option.some.injEq] at ends
        obtain ⟨rfl, rfl⟩ := ends
        refine ⟨?_, fits.crossed, fits.thrown⟩
        intro isBreak loop crossed leaves
        obtain same | member := List.mem_cons.mp (fits.loops isBreak loop crossed leaves)
        · simp only [Outcome.leaves.injEq, Exit.loop.injEq] at leaves
          exact absurd (leaves.1.2.trans same) other
        · exact member
    · next left way _ no_loop ran =>
      simp only [Prod.mk.injEq, Option.some.injEq] at ends
      obtain ⟨rfl, rfl⟩ := ends
      rw [ran] at fits
      refine ⟨?_, fits.crossed, fits.thrown⟩
      intro isBreak loop crossed leaves
      exact absurd leaves (no_loop _ _ _)

/-- Once noticed, an error that lost its way stays noticed. -/
def Notices (run : RunState σ → RunState σ × Outcome ε) : Prop :=
  ∀ state, state.strayed = true → (run state).1.strayed = true

theorem runCall_notices (stray : Bool) (id : ℕ) : Notices (runCall env stray id) := by
  intro state strayed
  rw [runCall, strayed]
  obtain ⟨next, error | error⟩ := env.call id state.env <;> rfl

theorem runCondition_notices {state next : RunState σ} {decision : Except ε Bool}
    (strayed : state.strayed = true)
    (tests : runCondition env stray condition state = (next, decision)) : next.strayed = true := by
  cases condition with
  | none =>
    obtain ⟨rfl, -⟩ := Prod.mk.inj tests
    exact strayed
  | some condition =>
    rw [runCondition] at tests
    split at tests
    · obtain ⟨rfl, -⟩ := Prod.mk.inj tests
      exact strayed
    · obtain ⟨rfl, -⟩ := Prod.mk.inj tests
      simp [strayed]

theorem runDeferred_notices {run : Bool → RunState σ → RunState σ × Outcome ε}
    (notices : ∀ straying, Notices (run straying)) {state : RunState σ} (pending : Outcome ε)
    (strayed : state.strayed = true) : (runDeferred run stray (state, pending)).1.strayed = true := by
  have kept := notices (stray || pending.crossed) state strayed
  obtain ⟨-, late⟩ | ⟨next, ran, goes_on⟩ | ⟨-, replaced⟩ :=
    runDeferred_cases run stray state pending
  · rw [late]
    exact strayed
  · rw [goes_on]
    rw [ran] at kept
    exact kept
  · rw [replaced]
    exact kept

theorem runTurn_notices (notices : Notices body) {state : RunState σ}
    (strayed : state.strayed = true) :
    (runTurn env stray loop condition step body state).1.strayed = true := by
  rw [runTurn]
  split
  · next after error tests => exact runCondition_notices strayed tests
  · next after tests => exact runCondition_notices strayed tests
  · next after tests =>
    have kept := notices after (runCondition_notices strayed tests)
    split
    · next left ran =>
      rw [ran] at kept
      exact kept
    · next left isBreak leaves_loop crossed ran =>
      rw [ran] at kept
      split
      · split <;> exact kept
      · exact kept
    · next left way _ _ ran =>
      rw [ran] at kept
      exact kept

theorem takeTurns_notices {turn : RunState σ → RunState σ × Option (Outcome ε)}
    (notices : ∀ state, state.strayed = true → (turn state).1.strayed = true) :
    Notices (takeTurns turn .timeout fuel) := by
  intro state strayed
  apply takeTurns_induction (I := fun state => state.strayed = true)
    (P := fun result : RunState σ × Outcome ε => result.1.strayed = true) _ _ _ fuel state strayed
  · intro state next strayed taken
    have kept := notices state strayed
    rw [taken] at kept
    exact kept
  · intro state next result strayed taken
    have kept := notices state strayed
    rw [taken] at kept
    exact kept
  · intro state strayed
    exact strayed

mutual

theorem AstStatement.exec_notices (stray : Bool) :
    ∀ statement : AstStatement, Notices (statement.exec env fuel stray)
  | .call id => runCall_notices stray id
  | .throw id => runCall_notices stray id
  | .ret values => by
    intro state strayed
    have kept : (runCall env stray values state).1.strayed = true :=
      runCall_notices stray values state strayed
    rw [AstStatement.exec]
    split
    · next after ran =>
      rw [ran] at kept
      exact kept
    · exact kept
  | .breakOrContinue isBreak loop => fun _ strayed => strayed
  | .block body => body.exec_notices stray
  | .ifElse condition thenBlock elseBlock => by
    intro state strayed
    rw [AstStatement.exec]
    split
    · next after error tests => exact runCondition_notices strayed tests
    · next after tests =>
      exact thenBlock.exec_notices stray after (runCondition_notices strayed tests)
    · next after tests =>
      exact elseBlock.exec_notices stray after (runCondition_notices strayed tests)
  | .loop loop condition step body =>
    takeTurns_notices fun _ strayed => runTurn_notices (body.exec_notices stray) strayed
  | .tryCatch body handler => by
    intro state strayed
    have kept := body.exec_notices false state strayed
    rw [AstStatement.exec]
    split
    · next after error ran =>
      rw [ran] at kept
      exact handler.exec_notices stray _ kept
    · next after exit crossed ran =>
      rw [ran] at kept
      exact kept
    · exact kept

theorem AstBlock.exec_notices (stray : Bool) :
    ∀ block : AstBlock, Notices (block.exec env fuel stray)
  | .nil => fun _ strayed => strayed
  | .statement first rest => by
    intro state strayed
    have kept := first.exec_notices stray state strayed
    rw [AstBlock.exec]
    split
    · next after ran =>
      rw [ran] at kept
      exact rest.exec_notices stray after kept
    · exact kept
  | .deferred statement rest => by
    intro state strayed
    have kept := rest.exec_notices stray state strayed
    rw [AstBlock.exec]
    exact runDeferred_notices (fun straying => statement.exec_notices straying) _ kept

end

mutual

theorem AstStatement.exec_fits {loops : List ℕ} {stray : Bool} :
    ∀ (statement : AstStatement), statement.Scoped loops → ∀ state,
      Fits loops stray (statement.exec env fuel stray state)
  | .call id, _, state => runCall_fits id state
  | .throw id, _, state => runCall_fits id state
  | .ret values, _, state => by
    have fits : Fits loops stray (runCall env stray values state) := runCall_fits values state
    rw [AstStatement.exec]
    split
    · exact ⟨by simp, by simp, by simp⟩
    · exact fits
  | .breakOrContinue isBreak loop, member, state => by
    rw [AstStatement.exec]
    refine ⟨?_, by simp, by simp⟩
    intro _ other _ leaves
    obtain ⟨same, -⟩ := Outcome.leaves.inj leaves
    obtain ⟨-, rfl⟩ := Exit.loop.inj same
    exact member
  | .block body, scopes, state => body.exec_fits scopes state
  | .ifElse condition thenBlock elseBlock, scopes, state => by
    rw [AstStatement.exec]
    split
    · next after error tests => exact .ofThrown (runCondition_error tests)
    · exact thenBlock.exec_fits scopes.1 _
    · exact elseBlock.exec_fits scopes.2 _
  | .loop loop condition step body, scopes, state => by
    rw [AstStatement.exec]
    apply takeTurns_induction (I := fun _ => True) _ _ _ fuel state trivial
    · exact fun _ _ _ _ => trivial
    · intro state next outcome _ ends
      exact runTurn_fits (fun state => body.exec_fits scopes.2 state) ends
    · exact fun state _ => .timeout state
  | .tryCatch body handler, scopes, state => by
    have fits : Fits loops false (body.exec env fuel false state) := body.exec_fits scopes.1 state
    rw [AstStatement.exec]
    split
    · exact handler.exec_fits scopes.2 _
    · next after exit crossed ran =>
      rw [ran] at fits
      refine ⟨?_, by simp, by simp⟩
      intro isBreak loop crossed leaves
      obtain ⟨rfl, -⟩ := Outcome.leaves.inj leaves
      exact fits.loops isBreak loop _ rfl
    · next not_thrown not_leaves =>
      refine ⟨fits.loops, ?_, ?_⟩
      · intro _ exit crossed leaves
        exact (not_leaves _ _ _ (Prod.ext rfl leaves)).elim
      · intro _ error throws
        exact (not_thrown _ _ (Prod.ext rfl throws)).elim

theorem AstBlock.exec_fits {loops : List ℕ} {stray : Bool} :
    ∀ (block : AstBlock), block.Scoped loops → ∀ state,
      Fits loops stray (block.exec env fuel stray state)
  | .nil, _, state => .normal state
  | .statement first rest, scopes, state => by
    have fits : Fits loops stray (first.exec env fuel stray state) := first.exec_fits scopes.1 state
    rw [AstBlock.exec]
    split
    · exact rest.exec_fits scopes.2 _
    · exact fits
  | .deferred statement rest, scopes, state => by
    rw [AstBlock.exec]
    apply runDeferred_fits (rest.exec_fits scopes.2 state)
    · exact fun straying => statement.exec_notices straying
    · exact fun straying state => statement.exec_fits scopes.1 state

end

end Outcomes

section Active

/-- The loops are found with no more defers than that at them. -/
def Reachable (targets : List LoopTargets) (count : ℕ) (loops : List ℕ) : Prop :=
  ∀ loop ∈ loops, ∃ found, targets.find? (fun targets => targets.loop = loop) = some found ∧
    found.deferCount ≤ count

/-- Deferred statements with the loops around them, which were active when they were registered. -/
def Pending (targets : List LoopTargets) : List ℕ → List AstStatement → Prop
  | _, [] => True
  | loops, statement :: below => ∃ around ⊆ loops, statement.Scoped around ∧
      Reachable targets below.length around ∧ Pending targets around below

/-- The lowerer at a statement with these loops around it. The innermost try is around the statement
too, unless an error that it throws would lose its way. -/
structure Ready (L : Lowerer) (loops : List ℕ) (stray : Bool) : Prop where
  reachable : Reachable L.loops L.defers.length loops
  tries : stray = false → L.tries.headD 0 ≤ L.defers.length
  pending : Pending L.loops loops L.defers

variable {targets : List LoopTargets} {loops : List ℕ}

theorem Reachable.mono {count more : ℕ} (reachable : Reachable targets count loops) (le : count ≤ more) :
    Reachable targets more loops := by
  intro loop member
  obtain ⟨found, finds, count_le⟩ := reachable loop member
  exact ⟨found, finds, Nat.le_trans count_le le⟩

/-- A loop that is no loop around them is not in their way. -/
theorem Reachable.push {count : ℕ} (reachable : Reachable targets count loops) {loop defers : ℕ}
    (other : loop ∉ loops) : Reachable (⟨loop, defers⟩ :: targets) count loops := by
  intro around member
  have different : loop ≠ around := fun same => other (same ▸ member)
  obtain ⟨found, finds, count_le⟩ := reachable around member
  exact ⟨found, by simpa [different] using finds, count_le⟩

theorem Pending.push {defers : List AstStatement} (pending : Pending targets loops defers)
    {loop count : ℕ} (other : loop ∉ loops) : Pending (⟨loop, count⟩ :: targets) loops defers := by
  induction defers generalizing loops with
  | nil => trivial
  | cons statement below ih =>
    obtain ⟨around, subset, scopes, reachable, pending⟩ := pending
    have not_around : loop ∉ around := fun member => other (subset member)
    exact ⟨around, subset, scopes, reachable.push not_around, ih pending not_around⟩

theorem Pending.mono {defers : List AstStatement} (pending : Pending targets loops defers)
    {more : List ℕ} (subset : loops ⊆ more) : Pending targets more defers := by
  cases defers with
  | nil => trivial
  | cons statement below =>
    obtain ⟨around, around_subset, rest⟩ := pending
    exact ⟨around, fun _ member => subset (around_subset member), rest⟩

theorem Pending.append {own outer : List AstStatement} (pending : Pending targets loops outer)
    (reachable : Reachable targets outer.length loops)
    (scopes : ∀ statement ∈ own, statement.Scoped loops) : Pending targets loops (own ++ outer) := by
  induction own with
  | nil => exact pending
  | cons statement below ih =>
    refine ⟨loops, fun _ member => member, scopes _ List.mem_cons_self, ?_, ?_⟩
    · apply reachable.mono
      change outer.length ≤ (below ++ outer).length
      rw [List.length_append]
      omega
    · exact ih fun other member => scopes other (List.mem_cons_of_mem _ member)

/-- The lowerer in a block, behind defers of the block. -/
theorem Ready.append {L : Lowerer} {stray : Bool} {own outer : List AstStatement}
    (ready : Ready { L with defers := outer } loops stray)
    (scopes : ∀ statement ∈ own, statement.Scoped loops) :
    Ready { L with defers := own ++ outer } loops stray where
  reachable := ready.reachable.mono (by simp)
  tries straying := Nat.le_trans (ready.tries straying) (by simp)
  pending := ready.pending.append ready.reachable scopes

theorem Ready.pushTry {L : Lowerer} {stray : Bool} (ready : Ready L loops stray) :
    Ready L.pushTry loops false :=
  ⟨ready.reachable, fun _ => Nat.le_refl _, ready.pending⟩

theorem Ready.pushLoop {L : Lowerer} {stray : Bool} (ready : Ready L loops stray) {loop : ℕ}
    (other : loop ∉ loops) : Ready (L.pushLoop loop) (loop :: loops) stray where
  reachable := by
    intro around member
    obtain rfl | member := List.mem_cons.mp member
    · exact ⟨⟨around, L.defers.length⟩, by simp [Lowerer.pushLoop], Nat.le_refl _⟩
    · exact ready.reachable.push other around member
  tries := ready.tries
  pending := (ready.pending.push other).mono (List.subset_cons_self _ _)

end Active

section Leaving

variable {σ ε : Type}
variable {result : RunState σ × Outcome ε} {outcome : Outcome ε} {stack own : List AstStatement}

def Outcome.cross : Outcome ε → Outcome ε
  | .leaves exit _ => .leaves exit true
  | outcome => outcome

/-- The number of defers that are left active on the way out. -/
def Lowerer.downTo (L : Lowerer) : Outcome ε → ℕ
  | .thrown _ => L.tries.headD 0
  | .leaves (.loop _ loop) _ => ((L.findLoop loop).map LoopTargets.deferCount).getD 0
  | _ => 0

/-- The way out at the last of `count` defers. It has crossed a try that has more defers at it. -/
def Lowerer.seenAt (L : Lowerer) (count : ℕ) (outcome : Outcome ε) : Outcome ε :=
  if count < L.tries.headD 0 then outcome.cross else outcome

variable (env : Environment σ ε) (fuel : ℕ)

/-- Runs the deferred statements one after the other, the last one first. -/
def leaveAll (stray : Bool) (own : List AstStatement) (result : RunState σ × Outcome ε) :
    RunState σ × Outcome ε :=
  own.foldl (fun result statement =>
    runDeferred (fun stray state => statement.exec env fuel stray state) stray result) result

/-- The way out of a statement that was lowered with these defers. Those below the innermost try run
as the way out has crossed it. -/
def leaveDown (L : Lowerer) (stray : Bool) :
    List AstStatement → RunState σ × Outcome ε → RunState σ × Outcome ε
  | [], result => result
  | statement :: below, (state, outcome) =>
    if below.length + 1 ≤ L.downTo outcome then (state, outcome)
    else
      leaveDown L stray below
        (runDeferred (fun stray state => statement.exec env fuel stray state) stray
          (state, L.seenAt below.length outcome))

/-- What is behind the statement: what follows it, or its way out. -/
def complete (L : Lowerer) (stray : Bool) (result : RunState σ × Outcome ε) :
    RunState σ × Outcome ε :=
  match result with
  | (state, .normal) => (state, .normal)
  | result => leaveDown env fuel L stray L.defers result

/-- Where the machine is then. -/
def asCode (L : Lowerer) : RunState σ × Outcome ε → Machine σ ε × CodeOutcome
  | (state, .normal) => (⟨state.env, none⟩, .done)
  | (state, .leaves .ret _) => (⟨state.env, none⟩, .returns false)
  | (state, .leaves (.loop isBreak loop) _) => (⟨state.env, none⟩, .jumps (.loop isBreak loop))
  | (state, .thrown error) =>
    (⟨state.env, some error⟩, if L.tries = [] then .returns true else .jumps .catchBlock)
  | (state, .timeout) => (⟨state.env, none⟩, .timeout)

variable {env fuel} {L : Lowerer} {loops : List ℕ} {stray : Bool}

theorem complete_of_ne_normal (leaves : result.2 ≠ .normal) :
    complete env fuel L stray result = leaveDown env fuel L stray L.defers result := by
  obtain ⟨state, outcome⟩ := result
  cases outcome with
  | normal => exact absurd rfl leaves
  | leaves exit crossed => rfl
  | thrown error => rfl
  | timeout => rfl

theorem leaveDown_notices (stack : List AstStatement) (result : RunState σ × Outcome ε)
    (strayed : result.1.strayed = true) :
    (leaveDown env fuel L stray stack result).1.strayed = true := by
  induction stack generalizing result with
  | nil => exact strayed
  | cons statement below ih =>
    obtain ⟨state, outcome⟩ := result
    rw [leaveDown]
    split
    · exact strayed
    · apply ih
      exact runDeferred_notices (fun straying => statement.exec_notices straying) _ strayed

theorem leaveAll_notices (own : List AstStatement) (result : RunState σ × Outcome ε)
    (strayed : result.1.strayed = true) : (leaveAll env fuel stray own result).1.strayed = true := by
  induction own generalizing result with
  | nil => exact strayed
  | cons statement below ih =>
    apply ih
    exact runDeferred_notices (fun straying => statement.exec_notices straying) _ strayed

theorem deferred_fits {around : List ℕ} {statement : AstStatement} (fits : Fits loops stray result)
    (scopes : statement.Scoped around) (subset : around ⊆ loops) :
    Fits loops stray
      (runDeferred (fun stray state => statement.exec env fuel stray state) stray result) := by
  apply runDeferred_fits fits
  · exact fun straying => statement.exec_notices straying
  · exact fun straying state => (statement.exec_fits scopes state).weaken subset id

theorem runDeferred_ne_normal {run : Bool → RunState σ → RunState σ × Outcome ε}
    (leaves : result.2 ≠ .normal) :
    (runDeferred run stray result).2 ≠ .normal := by
  obtain ⟨state, pending⟩ := result
  obtain ⟨rfl, late⟩ | ⟨next, -, goes_on⟩ | ⟨other, replaced⟩ :=
    runDeferred_cases run stray state pending
  · rw [late]
    exact leaves
  · rw [goes_on]
    exact leaves
  · rw [replaced]
    exact other

theorem cross_of_crossed {state : RunState σ} (fits : Fits loops true (state, outcome)) :
    outcome.cross = outcome := by
  cases outcome with
  | leaves exit crossed => rw [fits.crossed rfl exit crossed rfl, Outcome.cross]
  | normal => rfl
  | thrown error => rfl
  | timeout => rfl

theorem Fits.cross {state : RunState σ} {outcome : Outcome ε}
    (fits : Fits loops stray (state, outcome)) : Fits loops stray (state, outcome.cross) := by
  cases outcome with
  | normal => exact fits
  | timeout => exact fits
  | thrown error => exact fits
  | leaves exit crossed =>
    refine ⟨?_, ?_, by simp [Outcome.cross]⟩
    · intro isBreak loop after leaves
      obtain ⟨rfl, -⟩ := Outcome.leaves.inj leaves
      exact fits.loops isBreak loop crossed rfl
    · intro _ other after leaves
      exact (Outcome.leaves.inj leaves).2.symm

theorem Fits.seenAt {state : RunState σ} (count : ℕ) (fits : Fits loops stray (state, outcome)) :
    Fits loops stray (state, L.seenAt count outcome) := by
  rw [Lowerer.seenAt]
  split
  · exact fits.cross
  · exact fits

/-- A way out leads at least to the defers that were active before. -/
theorem downTo_le (ready : Ready L loops stray) (fits : Fits loops stray result)
    (met : result.1.strayed = false) :
    L.downTo result.2 ≤ L.defers.length := by
  obtain ⟨state, outcome⟩ := result
  cases outcome with
  | normal => exact Nat.zero_le _
  | timeout => exact Nat.zero_le _
  | thrown error =>
    cases stray with
    | false => exact ready.tries rfl
    | true =>
      rw [fits.thrown rfl error rfl] at met
      cases met
  | leaves exit crossed =>
    cases exit with
    | ret => exact Nat.zero_le _
    | loop isBreak loop =>
      obtain ⟨found, finds, count_le⟩ := ready.reachable loop (fits.loops isBreak loop crossed rfl)
      rw [Lowerer.downTo, Lowerer.findLoop, finds]
      exact count_le

theorem complete_notices (strayed : result.1.strayed = true) :
    (complete env fuel L stray result).1.strayed = true := by
  obtain ⟨state, outcome⟩ := result
  cases outcome with
  | normal => exact strayed
  | leaves exit crossed => exact leaveDown_notices _ _ strayed
  | thrown error => exact leaveDown_notices _ _ strayed
  | timeout => exact leaveDown_notices _ _ strayed

theorem unstrayed_of_complete (met : (complete env fuel L stray result).1.strayed = false) :
    result.1.strayed = false := by
  apply Bool.eq_false_iff.mpr
  intro strayed
  rw [complete_notices strayed] at met
  cases met

theorem unstrayed_of_leaveDown (met : (leaveDown env fuel L stray stack result).1.strayed = false) :
    result.1.strayed = false := by
  apply Bool.eq_false_iff.mpr
  intro strayed
  rw [leaveDown_notices stack result strayed] at met
  cases met

theorem unstrayed_of_leaveAll (met : (leaveAll env fuel stray own result).1.strayed = false) :
    result.1.strayed = false := by
  apply Bool.eq_false_iff.mpr
  intro strayed
  rw [leaveAll_notices own result strayed] at met
  cases met

theorem leaveDown_timeout (stack : List AstStatement) (state : RunState σ) :
    leaveDown env fuel L stray stack (state, (.timeout : Outcome ε)) = (state, .timeout) := by
  induction stack with
  | nil => rfl
  | cons statement below ih =>
    rw [leaveDown, Lowerer.seenAt, Outcome.cross.eq_def, ite_self, runDeferred_timeout, ih, ite_self]

theorem leaveDown_stops {state : RunState σ} (few : stack.length ≤ L.downTo outcome) :
    leaveDown env fuel L stray stack (state, outcome) = (state, outcome) := by
  cases stack with
  | nil => rfl
  | cons statement below => rw [leaveDown, if_pos (by simpa using few)]

theorem eq_of_cross_thrown {error : ε} (same : outcome.cross = .thrown error) :
    outcome = .thrown error := by
  cases outcome with
  | leaves exit crossed => simp [Outcome.cross] at same
  | normal => exact same
  | thrown other => exact same
  | timeout => exact same

theorem eq_of_cross_leaves {exit : Exit} (same : outcome.cross = .leaves exit true) :
    ∃ crossed, outcome = .leaves exit crossed := by
  cases outcome with
  | leaves other crossed =>
    obtain ⟨rfl, -⟩ := Outcome.leaves.inj same
    exact ⟨crossed, rfl⟩
  | normal => cases same
  | thrown error => cases same
  | timeout => cases same

theorem seenAt_ne_normal (count : ℕ) (leaves : outcome ≠ .normal) :
    L.seenAt count outcome ≠ .normal := by
  rw [Lowerer.seenAt]
  split
  · cases outcome with
    | normal => exact absurd rfl leaves
    | timeout => exact leaves
    | thrown error => exact leaves
    | leaves exit crossed => simp [Outcome.cross]
  · exact leaves

theorem seenAt_ne_timeout (count : ℕ) (ends : outcome ≠ .timeout) :
    L.seenAt count outcome ≠ .timeout := by
  rw [Lowerer.seenAt]
  split
  · cases outcome with
    | normal => exact ends
    | timeout => exact absurd rfl ends
    | thrown error => exact ends
    | leaves exit crossed => simp [Outcome.cross]
  · exact ends

theorem cross_seenAt (count : ℕ) (outcome : Outcome ε) :
    (L.seenAt count outcome).cross = outcome.cross := by
  rw [Lowerer.seenAt]
  split
  · cases outcome <;> rfl
  · rfl

theorem downTo_seenAt (count : ℕ) (outcome : Outcome ε) :
    L.downTo (L.seenAt count outcome) = L.downTo outcome := by
  rw [Lowerer.seenAt]
  split
  · cases outcome with
    | leaves exit crossed => cases exit <;> rfl
    | normal => rfl
    | thrown error => rfl
    | timeout => rfl
  · rfl

/-- Where a deferred statement runs on the way out, the innermost try is around it, or its errors
lose their way. -/
theorem tries_of_seenAt {count : ℕ} (leaves : outcome ≠ .normal) (ends : outcome ≠ .timeout)
    (count_le : L.downTo outcome ≤ count)
    (straying : (stray || (L.seenAt count outcome).crossed) = false) :
    L.tries.headD 0 ≤ count := by
  cases outcome with
  | normal => exact absurd rfl leaves
  | timeout => exact absurd rfl ends
  | thrown error => exact count_le
  | leaves exit crossed =>
    rw [Lowerer.seenAt] at straying
    split at straying
    · simp [Outcome.cross, Outcome.crossed] at straying
    · next not_crossed => exact Nat.not_lt.mp not_crossed

theorem leaveDown_ne_normal (stack : List AstStatement) (leaves : result.2 ≠ .normal) :
    (leaveDown env fuel L stray stack result).2 ≠ .normal := by
  induction stack generalizing result with
  | nil => exact leaves
  | cons statement below ih =>
    obtain ⟨state, outcome⟩ := result
    rw [leaveDown]
    split
    · exact leaves
    · apply ih
      exact runDeferred_ne_normal (seenAt_ne_normal _ leaves)

theorem leaveAll_ne_normal (own : List AstStatement) (leaves : result.2 ≠ .normal) :
    (leaveAll env fuel stray own result).2 ≠ .normal := by
  induction own generalizing result with
  | nil => exact leaves
  | cons statement below ih => exact ih (runDeferred_ne_normal leaves)

/-- The defers of a block are run as the block says, and then those around it. -/
theorem leaveDown_append {outer : List AstStatement}
    (ready : Ready { L with defers := outer } loops stray)
    (scopes : ∀ statement ∈ own, statement.Scoped loops) (leaves : result.2 ≠ .normal)
    (fits : Fits loops stray result) (met : (leaveAll env fuel stray own result).1.strayed = false) :
    leaveDown env fuel L stray (own ++ outer) result =
      leaveDown env fuel L stray outer (leaveAll env fuel stray own result) := by
  induction own generalizing result with
  | nil => rfl
  | cons statement below ih =>
    obtain ⟨state, outcome⟩ := result
    have count_le : L.downTo outcome ≤ outer.length :=
      downTo_le ready fits (unstrayed_of_leaveAll met)
    have no_cross : L.seenAt (below ++ outer).length outcome = outcome := by
      rw [Lowerer.seenAt]
      split
      · next crosses =>
        cases stray with
        | true => exact cross_of_crossed fits
        | false =>
          have head_le : L.tries.headD 0 ≤ outer.length := ready.tries rfl
          rw [List.length_append] at crosses
          omega
      · rfl
    rw [List.cons_append, leaveDown, if_neg (by rw [List.length_append]; omega), no_cross]
    apply ih (fun other member => scopes other (List.mem_cons_of_mem _ member))
    · exact runDeferred_ne_normal leaves
    · exact deferred_fits fits (scopes statement List.mem_cons_self) (fun _ member => member)
    · exact met

theorem leaveDown_fits (pending : Pending L.loops loops stack) (fits : Fits loops stray result) :
    Fits loops stray (leaveDown env fuel L stray stack result) := by
  induction stack generalizing loops result with
  | nil => exact fits
  | cons statement below ih =>
    obtain ⟨around, subset, scopes, -, pending⟩ := pending
    obtain ⟨state, outcome⟩ := result
    rw [leaveDown]
    split
    · exact fits
    · apply ih (pending.mono subset)
      exact deferred_fits (fits.seenAt _) scopes subset

/-- Once an exit has crossed a try, it does not matter which. -/
theorem leaveDown_crossed {other : Lowerer} (same_loops : other.loops = L.loops)
    (pending : Pending L.loops loops stack) (otherStray : Bool) (leaves : result.2 ≠ .normal)
    (fits : Fits loops true result)
    (met : (leaveDown env fuel L stray stack result).1.strayed = false) :
    leaveDown env fuel other otherStray stack result = leaveDown env fuel L stray stack result := by
  induction stack generalizing loops result with
  | nil => rfl
  | cons statement below ih =>
    obtain ⟨around, subset, scopes, -, pending⟩ := pending
    obtain ⟨state, outcome⟩ := result
    have unstrayed : state.strayed = false := unstrayed_of_leaveDown met
    cases outcome with
    | normal => exact absurd rfl leaves
    | timeout => rw [leaveDown_timeout, leaveDown_timeout]
    | thrown error =>
      rw [fits.thrown rfl error rfl] at unstrayed
      cases unstrayed
    | leaves exit crossed =>
      obtain rfl : crossed = true := fits.crossed rfl exit crossed rfl
      have same_count : other.downTo (.leaves exit true : Outcome ε) =
          L.downTo (.leaves exit true : Outcome ε) := by
        cases exit with
        | ret => rfl
        | loop isBreak loop => rw [Lowerer.downTo, Lowerer.downTo, Lowerer.findLoop, same_loops]; rfl
      have same_stray : ∀ stray : Bool,
          runDeferred (fun stray state => statement.exec env fuel stray state) stray
              (state, .leaves exit true) =
            runDeferred (fun stray state => statement.exec env fuel stray state) true
              (state, .leaves exit true) := by
        intro stray
        simp only [runDeferred, Outcome.crossed, Bool.or_true]
      rw [leaveDown] at met
      rw [leaveDown, leaveDown, same_count]
      split
      · rfl
      · next further =>
        rw [if_neg further] at met
        simp only [Lowerer.seenAt, Outcome.cross, ite_self, same_stray stray, same_stray otherStray] at met ⊢
        apply ih (pending.mono subset) _ _ met
        · exact runDeferred_ne_normal leaves
        · exact deferred_fits fits scopes subset

/-- A loop that is left already is not in the way of what leaves the statements around it. -/
theorem leaveDown_pushLoop {loop : ℕ} (other : loop ∉ loops) (pending : Pending L.loops loops stack)
    (fits : Fits loops stray result) :
    leaveDown env fuel (L.pushLoop loop) stray stack result =
      leaveDown env fuel L stray stack result := by
  induction stack generalizing result with
  | nil => rfl
  | cons statement below ih =>
    obtain ⟨around, subset, scopes, -, pending⟩ := pending
    obtain ⟨state, outcome⟩ := result
    have same_count : (L.pushLoop loop).downTo outcome = L.downTo outcome := by
      cases outcome with
      | normal => rfl
      | thrown error => rfl
      | timeout => rfl
      | leaves exit crossed =>
        cases exit with
        | ret => rfl
        | loop isBreak left =>
          have member : left ∈ loops := fits.loops isBreak left crossed rfl
          have different : loop ≠ left := fun same => other (same ▸ member)
          simp [Lowerer.downTo, Lowerer.findLoop, Lowerer.pushLoop, different]
    rw [leaveDown, leaveDown, same_count]
    split
    · rfl
    · apply ih (pending.mono subset)
      exact deferred_fits (fits.seenAt _) scopes subset

end Leaving

end Saad
