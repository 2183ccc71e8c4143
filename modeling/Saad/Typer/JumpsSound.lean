import Mathlib.Data.List.Basic
import Saad.Typer.Jumps

/-! # Where breaks, returns and defers are accepted

A statement is fine at a place by its syntax alone: what the typer has checked before has no part in
it. A run of the typer agrees with that as long as no break or continue that stands in no loop finds
one of another place in `enclosing_loop`, no deferred statement has a way out that `leaves_defer`
does not look at, and no call is the first to check a function that is not fine itself.
-/

namespace Saad.Typer

section Specification

mutual

/-- A return, or a break or continue of a loop around it, leaves the statement. A defer in it is a
deferred statement of its own. -/
def Statement.leaves (loops : ℕ) : Statement → Bool
  | .ret _ => true
  | .breakOrContinue => loops == 0
  | .block body => body.leaves loops
  | .ifElse _ thenBlock elseIfs elseBlock =>
    thenBlock.leaves loops || elseIfs.leaves loops || elseBlock.leaves loops
  | .loop _ _ body => body.leaves (loops + 1)
  | .switch _ chain _ => chain.leaves loops
  | .tryCatch body handler => body.leaves loops || handler.leaves loops
  | .declaration _ | .simple _ | .defer _ => false

def Statements.leaves (loops : ℕ) : Statements → Bool
  | .nil => false
  | .cons first rest => first.leaves loops || rest.leaves loops

end

mutual

/-- What a statement needs to be accepted where it stands. -/
def Statement.Fine (here : Place) : Statement → Prop
  | .breakOrContinue => here.loops ≠ []
  | .ret values => here.function ≠ none ∧ values.Fine here
  | .declaration uses | .simple uses => uses.Fine here
  | .block body => body.Fine here
  | .ifElse condition thenBlock elseIfs elseBlock =>
    ((condition.Fine here ∧ thenBlock.Fine here) ∧ elseIfs.Fine here) ∧ elseBlock.Fine here
  | .loop node header body =>
    header.Fine (here.insideLoop node) ∧ body.Fine (here.insideLoop node)
  | .switch subject chain rest => (subject.Fine here ∧ chain.Fine here) ∧ rest.Fine here
  | .tryCatch body handler => body.Fine here ∧ handler.Fine here
  | .defer statement =>
    (statement.leaves 0 || statement.isDefer || statement.isDeclaration) = false ∧
      statement.Fine here.insideDefer

def Statements.Fine (here : Place) : Statements → Prop
  | .nil => True
  | .cons first rest => first.Fine here ∧ rest.Fine here

def Uses.Fine (here : Place) : Uses → Prop
  | .nil => True
  | .mistyped => False
  | .call _ rest => here.function ≠ none ∧ rest.Fine here
  | .function node returns body rest =>
    (body.Fine (.bodyOf node) ∧ returns = true) ∧ rest.Fine here

end

def FunctionDefn.Fine (node : ℕ) (function : FunctionDefn) : Prop :=
  function.body.Fine (.bodyOf node) ∧ function.returns = true

mutual

/-- Every break and continue has a loop of its function, every return a function, and none of them
leaves a deferred statement. -/
def Statement.WellPlaced (here : Place) : Statement → Prop
  | .breakOrContinue => here.loops ≠ [] ∧ here.loopsInDefer ≠ some 0
  | .ret values => (here.function ≠ none ∧ here.loopsInDefer = none) ∧ values.WellPlaced here
  | .declaration uses | .simple uses => uses.WellPlaced here
  | .block body => body.WellPlaced here
  | .ifElse condition thenBlock elseIfs elseBlock =>
    condition.WellPlaced here ∧ thenBlock.WellPlaced here ∧ elseIfs.WellPlaced here ∧
      elseBlock.WellPlaced here
  | .loop node header body =>
    header.WellPlaced (here.insideLoop node) ∧ body.WellPlaced (here.insideLoop node)
  | .switch subject chain rest =>
    subject.WellPlaced here ∧ chain.WellPlaced here ∧ rest.WellPlaced here
  | .tryCatch body handler => body.WellPlaced here ∧ handler.WellPlaced here
  | .defer statement => statement.WellPlaced here.insideDefer

def Statements.WellPlaced (here : Place) : Statements → Prop
  | .nil => True
  | .cons first rest => first.WellPlaced here ∧ rest.WellPlaced here

def Uses.WellPlaced (here : Place) : Uses → Prop
  | .nil | .mistyped => True
  | .call _ rest => rest.WellPlaced here
  | .function node _ body rest => body.WellPlaced (.bodyOf node) ∧ rest.WellPlaced here

end

/-- The step does not go wrong: see the top of the module. An instance of a generic is also not
made too deep in others. -/
def Clean : Event → Prop
  | .jump here loops => here.loops = [] → loops = []
  | .defer statement => statement.leavesDefer 0 = statement.leaves 0
  | .firstCall node isInstance function genericDepth =>
    function.Fine node ∧ (isInstance = true → genericDepth < genericDepthLimit)
  | .alreadyChecked node function => function.Fine node
  | .ret _ _ | .verdict _ _ _ => True

/-- A break or continue goes to the innermost loop of its function around it, a return leaves the
function that it stands in, and a verdict is about the statement and its place alone. -/
def Right : Event → Prop
  | .jump here loops => loops.head? = here.loops.head?
  | .ret here enclosingFunction => enclosingFunction = here.function
  | .verdict here statement ok => ok = true ↔ statement.Fine here
  | .defer _ | .firstCall _ _ _ _ | .alreadyChecked _ _ => True

end Specification

section WellPlaced

/-- No way out of the deferred statement around the place, when there is one. -/
def Stays (here : Place) (leaves : ℕ → Bool) : Prop :=
  ∀ loops, here.loopsInDefer = some loops → leaves loops = false

theorem Stays.insideLoop {here : Place} {leaves : ℕ → Bool} (node : ℕ)
    (stays : Stays here fun loops => leaves (loops + 1)) : Stays (here.insideLoop node) leaves := by
  intro loops inDefer
  obtain ⟨outer, deferred, rfl⟩ := Option.map_eq_some_iff.mp inDefer
  exact stays outer deferred

theorem Stays.insideDefer {here : Place} {leaves : ℕ → Bool} (stays : leaves 0 = false) :
    Stays here.insideDefer leaves := by
  intro loops inDefer
  cases Option.some.inj inDefer
  exact stays

theorem stays_bodyOf (node : ℕ) (leaves : ℕ → Bool) : Stays (.bodyOf node) leaves := by
  intro loops inDefer
  cases inDefer

theorem Stays.or {here : Place} {left right : ℕ → Bool}
    (stays : Stays here fun loops => left loops || right loops) :
    Stays here left ∧ Stays here right :=
  ⟨fun loops inDefer => (Bool.or_eq_false_iff.mp (stays loops inDefer)).1,
    fun loops inDefer => (Bool.or_eq_false_iff.mp (stays loops inDefer)).2⟩

mutual

theorem Statement.Fine.wellPlaced {here : Place} : ∀ {statement : Statement}, statement.Fine here →
    Stays here statement.leaves → statement.WellPlaced here
  | .breakOrContinue, fine, stays => by
    refine ⟨fine, fun inDefer => ?_⟩
    exact absurd (stays 0 inDefer) (by simp [Statement.leaves])
  | .ret values, fine, stays => by
    refine ⟨⟨fine.1, ?_⟩, fine.2.wellPlaced⟩
    refine Option.eq_none_iff_forall_ne_some.mpr fun loops inDefer => ?_
    exact absurd (stays loops inDefer) (by simp [Statement.leaves])
  | .declaration uses, fine, _ => Uses.Fine.wellPlaced fine
  | .simple uses, fine, _ => Uses.Fine.wellPlaced fine
  | .block body, fine, stays => Statements.Fine.wellPlaced fine stays
  | .ifElse condition thenBlock elseIfs elseBlock, fine, stays => by
    obtain ⟨⟨⟨condition, thenBlock⟩, elseIfs⟩, elseBlock⟩ := fine
    obtain ⟨stays, staysElse⟩ := Stays.or stays
    obtain ⟨staysThen, staysElseIfs⟩ := Stays.or stays
    exact ⟨condition.wellPlaced, thenBlock.wellPlaced staysThen, elseIfs.wellPlaced staysElseIfs,
      elseBlock.wellPlaced staysElse⟩
  | .loop node header body, fine, stays =>
    ⟨Uses.Fine.wellPlaced fine.1, Statements.Fine.wellPlaced fine.2 (Stays.insideLoop node stays)⟩
  | .switch subject chain rest, fine, stays => by
    obtain ⟨⟨subject, chain⟩, rest⟩ := fine
    exact ⟨subject.wellPlaced, chain.wellPlaced stays, rest.wellPlaced⟩
  | .tryCatch body handler, fine, stays =>
    ⟨Statements.Fine.wellPlaced fine.1 (Stays.or stays).1,
      Statements.Fine.wellPlaced fine.2 (Stays.or stays).2⟩
  | .defer statement, fine, _ => by
    obtain ⟨stays, fine⟩ := fine
    simp only [Bool.or_eq_false_iff] at stays
    exact fine.wellPlaced (Stays.insideDefer stays.1.1)

theorem Statements.Fine.wellPlaced {here : Place} : ∀ {statements : Statements},
    statements.Fine here → Stays here statements.leaves → statements.WellPlaced here
  | .nil, _, _ => trivial
  | .cons _ _, fine, stays =>
    ⟨Statement.Fine.wellPlaced fine.1 (Stays.or stays).1,
      Statements.Fine.wellPlaced fine.2 (Stays.or stays).2⟩

theorem Uses.Fine.wellPlaced {here : Place} : ∀ {uses : Uses}, uses.Fine here → uses.WellPlaced here
  | .nil, _ => trivial
  | .mistyped, fine => fine.elim
  | .call _ rest, fine => by
    obtain ⟨_, fine⟩ := fine
    exact fine.wellPlaced
  | .function node _ body rest, fine =>
    ⟨Statements.Fine.wellPlaced fine.1.1 (stays_bodyOf node _), Uses.Fine.wellPlaced fine.2⟩

end

end WellPlaced

end Saad.Typer

/-! # The typer accepts what is fine where it stands

A check that succeeds gives the stack of functions and the loops back as they were; only the outermost
loop of the typer stays. One that fails leaves functions on the stack, which `restore_typer_state`
takes away. So the typer's function is always the one that the statement stands in, and its loops
are those of the statement, followed by loops of other places.
-/

namespace Saad.Typer

section States

variable {here : Place} {state next : State}

/-- The fields of the typer at a place. -/
structure At (here : Place) (state : State) : Prop where
  function : here.function = state.enclosingFunction
  stack : state.enclosingFunction = state.functionStack.head?
  loops : here.loops <+: state.loops

/-- What every check leaves. -/
structure Left (state next : State) : Prop where
  stack : state.functionStack <:+ next.functionStack
  checked : state.checked ⊆ next.checked
  depth : next.genericDepth = state.genericDepth

/-- What a check that succeeds gives back. -/
structure Kept (state next : State) : Prop extends Left state next where
  enclosing : next.enclosingFunction = state.enclosingFunction
  sameStack : next.functionStack = state.functionStack
  loops : next.loops = state.loops ∨ state.loops = []

theorem Left.refl (state : State) : Left state state := ⟨List.suffix_rfl, List.Subset.refl _, rfl⟩

theorem Left.trans {last : State} (first : Left state next) (second : Left next last) :
    Left state last :=
  ⟨first.stack.trans second.stack, List.Subset.trans first.checked second.checked,
    second.depth.trans first.depth⟩

theorem Kept.refl (state : State) : Kept state state := ⟨.refl state, rfl, rfl, .inl rfl⟩

theorem Kept.trans {last : State} (first : Kept state next) (second : Kept next last) :
    Kept state last where
  toLeft := first.toLeft.trans second.toLeft
  enclosing := second.enclosing.trans first.enclosing
  sameStack := second.sameStack.trans first.sameStack
  loops := by
    rcases first.loops with same | none
    · rcases second.loops with again | none
      · exact .inl (again.trans same)
      · exact .inr (same ▸ none)
    · exact .inr none

theorem At.of_kept (place : At here state) (kept : Kept state next) : At here next where
  function := place.function.trans kept.enclosing.symm
  stack := by rw [kept.enclosing, kept.sameStack, place.stack]
  loops := by
    rcases kept.loops with same | none
    · exact same ▸ place.loops
    · have outside : here.loops = [] := List.prefix_nil.mp (none ▸ place.loops)
      exact outside ▸ List.nil_prefix

theorem At.insideLoop (place : At here state) (node : ℕ) :
    At (here.insideLoop node) (state.pushEnclosingLoop node) :=
  ⟨place.function, place.stack, (List.prefix_cons_inj node).mpr place.loops⟩

theorem At.insideDefer (place : At here state) : At here.insideDefer state :=
  ⟨place.function, place.stack, place.loops⟩

/-- The outermost loop is not taken away, so there is a loop afterwards that was not there before. -/
theorem Kept.popEnclosingLoop {node : ℕ} (kept : Kept (state.pushEnclosingLoop node) next) :
    Kept state next.popEnclosingLoop := by
  obtain ⟨⟨stack, checked, depth⟩, enclosing, sameStack, loops⟩ := kept
  have loops : next.loops = node :: state.loops := by
    rcases loops with same | none
    · exact same
    · exact absurd none (List.cons_ne_nil _ _)
  unfold State.popEnclosingLoop
  cases outer : state.loops with
  | nil =>
    rw [loops, outer]
    exact ⟨⟨stack, checked, depth⟩, enclosing, sameStack, .inr outer⟩
  | cons parent rest =>
    rw [loops, outer]
    exact ⟨⟨stack, checked, depth⟩, enclosing, sameStack, .inl outer.symm⟩

theorem Left.restoreTyperState (left : Left state next) : Kept state (state.restoreTyperState next) := by
  have stack : (state.restoreTyperState next).functionStack = state.functionStack :=
    (List.suffix_iff_eq_drop.mp left.stack).symm
  exact ⟨⟨stack ▸ List.suffix_rfl, left.checked, left.depth⟩, rfl, stack, .inl rfl⟩

end States

section Sound

variable {state : State} {fine other : Prop} {outcome : Outcome}

/-- A clean check accepts exactly what is fine, and everything it met is right. -/
structure Agrees (state : State) (fine : Prop) (outcome : Outcome) : Prop where
  accepts : outcome.ok = true ↔ fine
  kept : outcome.ok = true → Kept state outcome.state
  left : Left state outcome.state
  right : ∀ event ∈ outcome.events, Right event

def Sound (state : State) (fine : Prop) (outcome : Outcome) : Prop :=
  (∀ event ∈ outcome.events, Clean event) → Agrees state fine outcome

theorem sound_done (state : State) : Sound state True (.done state) := fun _ =>
  ⟨⟨fun _ => trivial, fun _ => rfl⟩, fun _ => .refl state, .refl state,
    fun _ met => absurd met List.not_mem_nil⟩

theorem sound_failed (state : State) (wrong : ¬ fine) : Sound state fine (.failed state) := fun _ =>
  ⟨⟨fun ok => absurd ok Bool.false_ne_true, fun holds => absurd holds wrong⟩,
    fun ok => absurd ok Bool.false_ne_true, .refl state, fun _ met => absurd met List.not_mem_nil⟩

theorem Sound.congr (sound : Sound state fine outcome) (same : fine ↔ other) :
    Sound state other outcome := fun clean =>
  ⟨(sound clean).accepts.trans same, (sound clean).kept, (sound clean).left, (sound clean).right⟩

theorem Sound.andThen {next : State → Outcome} (first : Sound state fine outcome)
    (second : Kept state outcome.state → Sound outcome.state other (next outcome.state)) :
    Sound state (fine ∧ other) (outcome.andThen next) := by
  intro clean
  unfold Outcome.andThen at clean ⊢
  split_ifs at clean ⊢ with ok
  · simp only [List.mem_append] at clean ⊢
    have start := first fun event met => clean event (.inl met)
    have finish := second (start.kept ok) fun event met => clean event (.inr met)
    exact ⟨⟨fun holds => ⟨start.accepts.mp ok, finish.accepts.mp holds⟩,
      fun holds => finish.accepts.mpr holds.2⟩, fun holds => (start.kept ok).trans (finish.kept holds),
      start.left.trans finish.left,
      fun event met => (List.mem_append.mp met).elim (start.right event) (finish.right event)⟩
  · have start := first clean
    exact ⟨⟨fun holds => absurd holds ok, fun holds => absurd (start.accepts.mpr holds.1) ok⟩,
      fun holds => absurd holds ok, start.left, start.right⟩

/-- After an error the check goes on from the state before it. -/
theorem Sound.andAlso {next : State → Outcome} (first : Sound state fine outcome)
    (second : ∀ middle, Kept state middle → Sound middle other (next middle)) :
    Sound state (fine ∧ other) ((outcome.recovered state).andAlso next) := by
  intro clean
  unfold Outcome.andAlso at clean ⊢
  simp only [List.mem_append] at clean ⊢
  have events : (outcome.recovered state).events = outcome.events := by
    unfold Outcome.recovered
    split_ifs <;> rfl
  have ok : (outcome.recovered state).ok = outcome.ok := by
    unfold Outcome.recovered
    split_ifs <;> rfl
  rw [events] at clean ⊢
  have start := first fun event met => clean event (.inl met)
  have kept : Kept state (outcome.recovered state).state := by
    unfold Outcome.recovered
    split_ifs with accepted
    · exact start.kept accepted
    · exact start.left.restoreTyperState
  have finish := second _ kept fun event met => clean event (.inr met)
  refine ⟨?_, fun holds => ?_, kept.toLeft.trans finish.left, fun event met => ?_⟩
  · rw [ok, Bool.and_eq_true, start.accepts, finish.accepts]
  · exact kept.trans (finish.kept (Bool.and_eq_true _ _ ▸ holds).2)
  · exact (List.mem_append.mp met).elim (start.right event) (finish.right event)

theorem Sound.recovered (sound : Sound state fine outcome) :
    Sound state fine (outcome.recovered state) := by
  unfold Outcome.recovered
  split_ifs with ok
  · exact sound
  · intro clean
    have found := sound clean
    exact ⟨found.accepts, fun holds => absurd holds ok, found.left.restoreTyperState.toLeft, found.right⟩

theorem Sound.judged {here : Place} {statement : Statement}
    (sound : Sound state (statement.Fine here) outcome) :
    Sound state (statement.Fine here) (outcome.judged here statement) := by
  intro clean
  simp only [Outcome.judged, List.mem_append, List.mem_singleton] at clean
  have found := sound fun event met => clean event (.inl met)
  refine ⟨found.accepts, found.kept, found.left, fun event met => ?_⟩
  rcases List.mem_append.mp met with inside | last
  · exact found.right event inside
  · cases List.mem_singleton.mp last
    exact found.accepts

theorem Sound.preceded {event : Event} (right : Right event)
    (sound : Clean event → Sound state fine outcome) :
    Sound state fine (outcome.preceded event) := by
  intro clean
  have found := sound (clean event List.mem_cons_self)
    fun event met => clean event (List.mem_cons_of_mem _ met)
  refine ⟨found.accepts, found.kept, found.left, fun other met => ?_⟩
  rcases List.mem_cons.mp met with same | inside
  · exact same ▸ right
  · exact found.right other inside

end Sound

section Functions

variable (program : Program) {state next : State}

/-- How many of the functions are not marked yet. -/
def unchecked (state : State) : ℕ :=
  (program.functions.map (·.1)).countP (· ∉ state.checked)

theorem unchecked_le (checked : state.checked ⊆ next.checked) :
    unchecked program next ≤ unchecked program state := by
  refine List.countP_mono_left fun node _ new => ?_
  simp only [decide_eq_true_eq] at new ⊢
  exact fun old => new (checked old)

theorem mem_of_function? {node : ℕ} {function : FunctionDefn}
    (found : program.function? node = some function) : node ∈ program.functions.map (·.1) := by
  obtain ⟨_, _, split, _⟩ := List.lookup_eq_some_iff.mp found
  rw [split]
  simp

theorem unchecked_lt {node : ℕ} {function : FunctionDefn} (found : program.function? node = some function)
    (new : node ∉ state.checked) (checked : next.checked = node :: state.checked) :
    unchecked program next < unchecked program state := by
  obtain ⟨before, after, split⟩ := List.append_of_mem (mem_of_function? program found)
  unfold unchecked
  rw [split, List.countP_append, List.countP_append, List.countP_cons_of_neg (by simp [checked]),
    List.countP_cons_of_pos (by simp [new])]
  have left : before.countP (· ∉ next.checked) ≤ before.countP (· ∉ state.checked) :=
    List.countP_mono_left fun other _ => by simp +contextual [checked]
  have right : after.countP (· ∉ next.checked) ≤ after.countP (· ∉ state.checked) :=
    List.countP_mono_left fun other _ => by simp +contextual [checked]
  omega

/-- A place with its fields, and functions left for `bound` checks in each other. -/
structure Ready (bound : ℕ) (here : Place) (state : State) : Prop extends At here state where
  room : unchecked program state ≤ bound

variable {program} {bound : ℕ} {here : Place}

theorem Ready.of_kept (ready : Ready program bound here state) (kept : Kept state next) :
    Ready program bound here next :=
  ⟨ready.toAt.of_kept kept, Nat.le_trans (unchecked_le program kept.checked) ready.room⟩

theorem Ready.insideLoop (ready : Ready program bound here state) (node : ℕ) :
    Ready program bound (here.insideLoop node) (state.pushEnclosingLoop node) :=
  ⟨ready.toAt.insideLoop node, ready.room⟩

theorem Ready.insideDefer (ready : Ready program bound here state) :
    Ready program bound here.insideDefer state :=
  ⟨ready.toAt.insideDefer, ready.room⟩

/-- The function that the stack has on its top. In a call of an unchecked function the stack is a new
one, and the field is still the caller. -/
def State.linked (state : State) : State :=
  { state with enclosingFunction := state.functionStack.head? }

theorem At.linked_eq (place : At here state) : state.linked = state := by
  unfold State.linked
  rw [← place.stack]

def State.enterFunction (state : State) (node : ℕ) : State :=
  { state.pushEnclosingFunction node with checked := node :: state.checked }

theorem ready_bodyOf {node : ℕ} (room : unchecked program (state.enterFunction node) ≤ bound) :
    Ready program bound (.bodyOf node) (state.enterFunction node) :=
  ⟨⟨rfl, rfl, List.nil_prefix⟩, room⟩

/-- A function is left with the stack and the function from before it. -/
theorem Kept.popEnclosingFunction {node : ℕ} (kept : Kept (state.enterFunction node) next) :
    Kept state.linked next.popEnclosingFunction := by
  have stack : next.functionStack.tail = state.functionStack := by rw [kept.sameStack]; rfl
  refine ⟨⟨stack ▸ List.suffix_rfl, ?_, kept.depth⟩, ?_, stack, kept.loops⟩
  · exact List.Subset.trans (List.subset_cons_self _ _) kept.checked
  · exact congrArg List.head? stack

theorem Left.of_enterFunction {node : ℕ} (left : Left (state.enterFunction node) next) :
    Left state.linked next :=
  ⟨(List.suffix_cons _ _).trans left.stack, List.Subset.trans (List.subset_cons_self _ _) left.checked, left.depth⟩

theorem sound_body {node : ℕ} {returns : Bool} {body : Statements} {outcome : Outcome}
    (sound : Sound (state.enterFunction node) (body.Fine (.bodyOf node)) outcome) :
    Sound state.linked (FunctionDefn.Fine node ⟨returns, body⟩)
      (outcome.andThen fun state => ⟨state.popEnclosingFunction, returns, []⟩) := by
  intro clean
  unfold Outcome.andThen at clean ⊢
  split_ifs at clean ⊢ with ok
  · simp only [List.append_nil] at clean ⊢
    have inner := sound clean
    have kept := (inner.kept ok).popEnclosingFunction
    exact ⟨⟨fun returned => ⟨inner.accepts.mp ok, returned⟩, fun fine => fine.2⟩, fun _ => kept,
      kept.toLeft, inner.right⟩
  · have inner := sound clean
    exact ⟨⟨fun holds => absurd holds ok, fun fine => absurd (inner.accepts.mpr fine.1) ok⟩,
      fun holds => absurd holds ok, inner.left.of_enterFunction, inner.right⟩

end Functions

section Calls

variable {program : Program} {checkDefn : ℕ → State → Outcome} {bound : ℕ} {state : State}

/-- The checks of the functions that calls come to. -/
def DefnsSound (program : Program) (checkDefn : ℕ → State → Outcome) (bound : ℕ) : Prop :=
  ∀ (node : ℕ) (function : FunctionDefn) (state : State), program.function? node = some function →
    node ∉ state.checked → unchecked program state ≤ bound →
    Sound state.linked (function.Fine node) (checkDefn node state)

variable {node : ℕ} {function : FunctionDefn}

theorem sound_callee (fine : function.Fine node)
    (sound : Sound { state with functionStack := [] }.linked (function.Fine node)
      (checkDefn node { state with functionStack := [] })) :
    Sound state True (checkCallee checkDefn node state) := by
  intro clean
  unfold checkCallee at clean ⊢
  dsimp only at clean ⊢
  split_ifs at clean ⊢ with ok
  · have inner := sound clean
    exact ⟨⟨fun _ => trivial, fun _ => ok⟩, fun _ =>
      ⟨⟨List.suffix_rfl, inner.left.checked, inner.left.depth⟩, rfl, rfl, .inl rfl⟩,
      ⟨List.suffix_rfl, inner.left.checked, inner.left.depth⟩, inner.right⟩
  · exact absurd ((sound clean).accepts.mpr fine) ok

theorem sound_instance (fine : function.Fine node) (shallow : state.genericDepth < genericDepthLimit)
    (sound : Sound { state with loops := [], genericDepth := state.genericDepth + 1 }.linked
      (function.Fine node)
      (checkDefn node { state with loops := [], genericDepth := state.genericDepth + 1 })) :
    Sound state True (instantiateGenericFunction checkDefn node state) := by
  intro clean
  unfold instantiateGenericFunction at clean ⊢
  rw [if_neg (Nat.not_le.mpr shallow)] at clean ⊢
  have inner := sound clean
  have ok := inner.accepts.mpr fine
  have kept := inner.kept ok
  exact ⟨⟨fun _ => trivial, fun _ => ok⟩, fun _ =>
    ⟨⟨inner.left.stack, inner.left.checked, rfl⟩, rfl, kept.sameStack, .inl rfl⟩,
    ⟨inner.left.stack, inner.left.checked, rfl⟩, inner.right⟩

theorem sound_functionCall {here : Place} (defns : DefnsSound program checkDefn bound)
    (ready : Ready program bound here state) (node : ℕ) :
    Sound state (here.function ≠ none) (checkFunctionCall program checkDefn node state) := by
  unfold checkFunctionCall
  by_cases outside : state.enclosingFunction.isNone
  · rw [if_pos outside]
    exact sound_failed _ fun inside =>
      inside (ready.function.trans (Option.isNone_iff_eq_none.mp outside))
  rw [if_neg outside]
  have inside : here.function ≠ none := fun none =>
    outside (Option.isNone_iff_eq_none.mpr (ready.function.symm.trans none))
  refine Sound.congr (?_ : Sound state True _) ⟨fun _ => inside, fun _ => trivial⟩
  cases found : program.function? node with
  | none => exact sound_done state
  | some function =>
    dsimp only
    split_ifs with checked isInstance
    · exact sound_done state
    · refine Sound.preceded trivial fun ⟨fine, shallow⟩ => ?_
      exact sound_instance fine (shallow isInstance) (defns node function _ found checked ready.room)
    · refine Sound.preceded trivial fun ⟨fine, _⟩ => ?_
      exact sound_callee fine (defns node function _ found checked ready.room)

end Calls

section Statements

variable {program : Program} {checkDefn : ℕ → State → Outcome} {bound : ℕ}

theorem sound_alreadyChecked (state : State) (node : ℕ) (function : FunctionDefn) :
    Sound state (function.Fine node) ⟨state, true, [.alreadyChecked node function]⟩ := by
  intro clean
  refine ⟨⟨fun _ => clean _ List.mem_cons_self, fun _ => rfl⟩, fun _ => .refl state, .refl state,
    fun event met => ?_⟩
  cases List.mem_singleton.mp met
  trivial

theorem sound_loop {state : State} {node : ℕ} {fine : Prop} {outcome : Outcome}
    (sound : Sound (state.pushEnclosingLoop node) fine outcome) :
    Sound state fine (outcome.andThen fun state => .done state.popEnclosingLoop) := by
  intro clean
  unfold Outcome.andThen at clean ⊢
  split_ifs at clean ⊢ with ok
  · simp only [Outcome.done, List.append_nil] at clean ⊢
    have inner := sound clean
    have kept := (inner.kept ok).popEnclosingLoop
    exact ⟨⟨fun _ => inner.accepts.mp ok, fun _ => rfl⟩, fun _ => kept, kept.toLeft, inner.right⟩
  · have inner := sound clean
    exact ⟨inner.accepts, fun holds => absurd holds ok,
      ⟨inner.left.stack, inner.left.checked, inner.left.depth⟩, inner.right⟩

theorem sound_jump {here : Place} {state : State} (place : At here state) :
    Sound state (here.loops ≠ []) ⟨state, !state.loops.isEmpty, [.jump here state.loops]⟩ := by
  intro clean
  have clean : here.loops = [] → state.loops = [] := clean _ List.mem_cons_self
  obtain ⟨stale, loops⟩ := place.loops
  refine ⟨?_, fun _ => .refl state, .refl state, fun event met => ?_⟩
  · cases own : here.loops with
    | nil => simp [clean own]
    | cons loop rest => simp [← loops, own]
  · cases List.mem_singleton.mp met
    change state.loops.head? = here.loops.head?
    cases own : here.loops with
    | nil => rw [clean own]
    | cons loop rest => rw [← loops, own]; rfl

mutual

theorem sound_statement (defns : DefnsSound program checkDefn bound) :
    ∀ (statement : Statement) {here : Place} {state : State}, Ready program bound here state →
      Sound state (statement.Fine here) (checkStatement program checkDefn here state statement)
  | .breakOrContinue, _, _, ready => sound_jump ready.toAt
  | .ret values, here, state, ready => by
    unfold checkStatement
    split_ifs with outside
    · exact sound_failed _ fun fine =>
        fine.1 (ready.function.trans (Option.isNone_iff_eq_none.mp outside))
    have inside : here.function ≠ none := fun none =>
      outside (Option.isNone_iff_eq_none.mpr (ready.function.symm.trans none))
    refine Sound.preceded ready.function.symm fun _ => ?_
    exact (sound_uses defns values ready).congr ⟨fun fine => ⟨inside, fine⟩, fun fine => fine.2⟩
  | .declaration uses, _, _, ready => sound_uses defns uses ready
  | .simple uses, _, _, ready => sound_uses defns uses ready
  | .block body, _, _, ready => sound_block defns body ready
  | .ifElse condition thenBlock elseIfs elseBlock, _, _, ready =>
    (((sound_uses defns condition ready).andThen fun kept =>
      sound_block defns thenBlock (ready.of_kept kept)).andThen fun kept =>
      sound_elseIfs defns elseIfs (ready.of_kept kept)).andThen fun kept =>
      sound_block defns elseBlock (ready.of_kept kept)
  | .loop node header body, here, state, ready => by
    refine sound_loop ((sound_uses defns header (ready.insideLoop node)).andThen fun kept => ?_)
    exact sound_block defns body ((ready.insideLoop node).of_kept kept)
  | .switch subject chain rest, here, state, ready => by
    refine (Sound.andThen (sound_uses defns subject ready) fun kept => ?_).andThen fun kept =>
      sound_uses defns rest (ready.of_kept kept)
    have judged := (sound_statement defns chain (ready.of_kept kept)).judged
    dsimp only
    split_ifs
    · exact judged
    · exact judged.recovered
  | .tryCatch body handler, _, _, ready =>
    (sound_block defns body ready).andThen fun kept => sound_block defns handler (ready.of_kept kept)
  | .defer statement, here, state, ready => by
    refine Sound.preceded trivial fun same => ?_
    have same : statement.leavesDefer 0 = statement.leaves 0 := same
    split_ifs with wrong
    · exact sound_failed _ fun fine => absurd (same ▸ wrong) (by simp [fine.1])
    · refine (sound_statement defns statement ready.insideDefer).judged.congr
        ⟨fun fine => ⟨?_, fine⟩, fun fine => fine.2⟩
      rw [← same]
      exact Bool.eq_false_iff.mpr wrong

theorem sound_block (defns : DefnsSound program checkDefn bound) :
    ∀ (statements : Statements) {here : Place} {state : State}, Ready program bound here state →
      Sound state (statements.Fine here) (checkBlock program checkDefn here state statements)
  | .nil, _, state, _ => sound_done state
  | .cons first rest, here, state, ready => by
    have judged := (sound_statement defns first ready).judged
    unfold checkBlock
    dsimp only
    split_ifs
    · exact judged.andThen fun kept => sound_block defns rest (ready.of_kept kept)
    · exact judged.andAlso fun _ kept => sound_block defns rest (ready.of_kept kept)

theorem sound_elseIfs (defns : DefnsSound program checkDefn bound) :
    ∀ (statements : Statements) {here : Place} {state : State}, Ready program bound here state →
      Sound state (statements.Fine here) (checkElseIfs program checkDefn here state statements)
  | .nil, _, state, _ => sound_done state
  | .cons first rest, _, _, ready =>
    (sound_statement defns first ready).judged.andThen fun kept =>
      sound_elseIfs defns rest (ready.of_kept kept)

theorem sound_uses (defns : DefnsSound program checkDefn bound) :
    ∀ (uses : Uses) {here : Place} {state : State}, Ready program bound here state →
      Sound state (uses.Fine here) (checkUses program checkDefn here state uses)
  | .nil, _, state, _ => sound_done state
  | .mistyped, _, _, _ => sound_failed _ id
  | .call node rest, _, _, ready =>
    (sound_functionCall defns ready node).andThen fun kept => sound_uses defns rest (ready.of_kept kept)
  | .function node returns body rest, here, state, ready => by
    refine Sound.andThen ?_ fun kept => sound_uses defns rest (ready.of_kept kept)
    split_ifs with checked
    · exact sound_alreadyChecked state node ⟨returns, body⟩
    · have room : unchecked program (state.enterFunction node) ≤ bound :=
        Nat.le_trans (unchecked_le program (List.subset_cons_self _ _)) ready.room
      have sound : Sound state.linked (FunctionDefn.Fine node ⟨returns, body⟩) _ :=
        sound_body (sound_block defns body (ready_bodyOf room))
      rwa [ready.toAt.linked_eq] at sound

end

end Statements

section Programs

variable (program : Program)

theorem checkFunctionDefn_sound : ∀ fuel,
    DefnsSound program (checkFunctionDefn program fuel) fuel
  | 0, node, function, state, found, new, room => by
    have marked : unchecked program (state.enterFunction node) < unchecked program state :=
      unchecked_lt program found new rfl
    omega
  | fuel + 1, node, function, state, found, new, room => by
    have marked : unchecked program (state.enterFunction node) < unchecked program state :=
      unchecked_lt program found new rfl
    have room : unchecked program (state.enterFunction node) ≤ fuel := by omega
    have body : Sound state.linked (function.Fine node) _ :=
      sound_body (sound_block (checkFunctionDefn_sound fuel) function.body (ready_bodyOf room))
    unfold checkFunctionDefn
    rw [found]
    dsimp only [checkUses]
    rw [if_neg new]
    exact (body.andThen fun _ => sound_done _).congr ⟨fun fine => fine.1, fun fine => ⟨fine, trivial⟩⟩

theorem unchecked_le_length (state : State) : unchecked program state ≤ program.functions.length :=
  Nat.le_trans List.countP_le_length (Nat.le_of_eq (List.length_map _))

theorem checkFile_sound (state : State) (file : Statements) :
    Sound { state with enclosingFunction := none, functionStack := [], loops := [], genericDepth := 0 }
      (file.Fine .topLevel) (checkFile program state file) :=
  sound_block (checkFunctionDefn_sound program _) file
    ⟨⟨rfl, rfl, List.nil_prefix⟩, Nat.le_succ_of_le (unchecked_le_length program _)⟩

theorem checkFiles_sound : ∀ (files : List Statements) (state : State),
    (∀ event ∈ (checkFiles program state files).events, Clean event) →
      ((checkFiles program state files).ok = true ↔ ∀ file ∈ files, file.Fine .topLevel) ∧
        ∀ event ∈ (checkFiles program state files).events, Right event
  | [], _, _ => ⟨⟨fun _ _ met => absurd met List.not_mem_nil, fun _ => rfl⟩,
    fun _ met => absurd met List.not_mem_nil⟩
  | file :: rest, state, clean => by
    simp only [checkFiles, Outcome.andAlso, List.mem_append] at clean ⊢
    have first := checkFile_sound program state file fun event met => clean event (.inl met)
    have others := checkFiles_sound rest (checkFile program state file).state
      fun event met => clean event (.inr met)
    refine ⟨?_, fun event met => met.elim (first.right event) (others.2 event)⟩
    rw [Bool.and_eq_true, first.accepts, others.1, List.forall_mem_cons]

/-- `main :: () { for { f(); break; } }` above `f :: () { defer for { continue; } return; }`. -/
def breaksAndDefers : Program where
  files :=
    [.cons (.declaration (.function 0 true
        (.cons (.loop 10 .nil (.cons (.simple (.call 1 .nil)) (.cons .breakOrContinue .nil))) .nil)
        .nil))
      (.cons (.declaration (.function 1 true
        (.cons (.defer (.loop 11 .nil (.cons .breakOrContinue .nil))) (.cons (.ret .nil) .nil))
        .nil)) .nil)]
  instances := []

/-- `leaves_defer` does not look at a switch, so the break leaves the deferred statement. -/
example : Accepted ⟨[.cons (.declaration (.function 0 true
    (.cons (.loop 10 .nil (.cons (.defer (.switch .nil (.ifElse .nil (.cons .breakOrContinue .nil)
      .nil .nil) .nil)) .nil)) .nil) .nil)) .nil], []⟩ := rfl

def breaks : Statement := .declaration (.function 0 true (.cons .breakOrContinue .nil) .nil)

def callsInLoop : Statement :=
  .declaration (.function 1 true (.cons (.loop 10 .nil (.cons (.simple (.call 0 .nil)) .nil)) .nil) .nil)

/-- `f :: () { break; }` is accepted when it is called in a loop first. -/
example : Accepted ⟨[.cons callsInLoop (.cons breaks .nil)], []⟩ ∧
    ¬ Accepted ⟨[.cons breaks (.cons callsInLoop .nil)], []⟩ :=
  ⟨rfl, Bool.false_ne_true⟩

end Programs

end Saad.Typer
