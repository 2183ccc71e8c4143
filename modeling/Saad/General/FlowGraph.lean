import Mathlib.Logic.Function.Basic
import Mathlib.Logic.Relation

/-! # Liveness on flow graphs

A flow graph has points, edges between them, and at each point the variables it uses and defines.
A variable is live at a point when some path reaches a use of it before any definition. Liveness is
stated over paths; `LiveAt.subset` is the only rule a dataflow solution needs to cover it.
-/

namespace Saad.General

open Relation

/-- Points with their edges, uses and definitions. -/
structure FlowGraph (P V : Type*) where
  Next : P → P → Prop
  Use : P → V → Prop
  Def : P → V → Prop

namespace FlowGraph

variable {P V : Type*} (G : FlowGraph P V)

/-- Some path from the point reaches a use of the variable with no definition before it. -/
inductive LiveAt (v : V) : P → Prop
  | use {p : P} : G.Use p v → LiveAt v p
  | step {p q : P} : ¬ G.Def p v → G.Next p q → LiveAt v q → LiveAt v p

/-- The paths of the graph. -/
abbrev Path (p q : P) : Prop := ReflTransGen G.Next p q

variable {G} {v : V} {p q : P}

theorem LiveAt.cases_of_not_use (live : G.LiveAt v p) (unused : ¬ G.Use p v) :
    ¬ G.Def p v ∧ ∃ q, G.Next p q ∧ G.LiveAt v q := by
  cases live with
  | use used => exact absurd used unused
  | step undefined edge rest => exact ⟨undefined, _, edge, rest⟩

/-- Liveness as one path: it leads to a use, and no point that it leaves defines the variable. -/
theorem liveAt_iff_path :
    G.LiveAt v p ↔ ∃ q, ReflTransGen (fun p next => ¬ G.Def p v ∧ G.Next p next) p q ∧ G.Use q v := by
  constructor
  · intro live
    induction live with
    | use used => exact ⟨_, .refl, used⟩
    | step undefined edge _ ih =>
      obtain ⟨q, path, used⟩ := ih
      exact ⟨q, .head ⟨undefined, edge⟩ path, used⟩
  · rintro ⟨q, path, used⟩
    induction path using ReflTransGen.head_induction_on with
    | refl => exact .use used
    | head edge _ ih => exact .step edge.1 edge.2 ih

/-- Any set of points that contains the uses and is closed backwards over non-defining points
contains every point at which the variable is live. -/
theorem LiveAt.subset {S : P → Prop} (uses : ∀ p, G.Use p v → S p)
    (closed : ∀ p q, ¬ G.Def p v → G.Next p q → S q → S p) (live : G.LiveAt v p) : S p := by
  induction live with
  | use used => exact uses _ used
  | step undefined edge _ ih => exact closed _ _ undefined edge ih

/-- When every definition of a variable also uses it, the variable is live on every path to a point
where it is live. -/
theorem LiveAt.of_path_of_defs_used (path : G.Path p q) (live : G.LiveAt v q)
    (used : ∀ d, G.Def d v → G.Use d v) : G.LiveAt v p := by
  induction path using ReflTransGen.head_induction_on with
  | refl => exact live
  | @head a c edge _ ih =>
    by_cases defined : G.Def a v
    · exact .use (used a defined)
    · exact .step defined edge ih

end FlowGraph

end Saad.General

/-! # Running a program on locations instead of variables

A program reads some variables at each point, and from the values and a world it may write one
variable, change the world and go on. Renaming its variables to locations runs the same actions on
a store of locations. When every written location is different from those of the other variables
that are live next, the two runs read the same values forever.
-/

namespace Saad.General

open Relation

/-- A program over variables `V` with values `Val` and everything else in a world `W`. -/
structure Program (P V Val W : Type*) where
  reads : P → List V
  writes : P → Option V
  /-- From the values read and the world: the value to write, the next world and point. -/
  act : P → List Val → W → Val → W → P → Prop

namespace Program

variable {P V L Val W : Type*}

/-- A point with the values of the variables and the world. -/
structure State (P V Val W : Type*) where
  point : P
  vars : V → Val
  world : W

/-- The store after an optional write. -/
def write [DecidableEq V] (vars : V → Val) (var : Option V) (value : Val) : V → Val :=
  match var with
  | none => vars
  | some v => Function.update vars v value

section Step

variable [DecidableEq V] (prog : Program P V Val W)

def Step (before after : State P V Val W) : Prop :=
  ∃ value, prog.act before.point ((prog.reads before.point).map before.vars) before.world value
      after.world after.point ∧
    after.vars = write before.vars (prog.writes before.point) value

abbrev Run : State P V Val W → State P V Val W → Prop := ReflTransGen prog.Step

end Step

/-- The program with a location for each variable. -/
def rename (prog : Program P V Val W) (loc : V → L) : Program P L Val W where
  reads p := (prog.reads p).map loc
  writes p := (prog.writes p).map loc
  act := prog.act

/-- The graph has the moves, reads and writes of the program. -/
structure Follows (prog : Program P V Val W) (G : FlowGraph P V) : Prop where
  next : ∀ {p vals world value world' q}, prog.act p vals world value world' q → G.Next p q
  use : ∀ {p v}, v ∈ prog.reads p → G.Use p v
  defines : ∀ {p v}, G.Def p v ↔ prog.writes p = some v

/-- Every variable that is live at the point has its value in its location. -/
def Agrees (G : FlowGraph P V) (loc : V → L) (p : P) (vars : V → Val) (store : L → Val) : Prop :=
  ∀ v, G.LiveAt v p → store (loc v) = vars v

/-- A write never hits the location of another variable that is live after it. -/
def Separates (prog : Program P V Val W) (G : FlowGraph P V) (loc : V → L) : Prop :=
  ∀ p q d v, prog.writes p = some d → G.Next p q → G.LiveAt v q → v ≠ d → loc v ≠ loc d

variable {prog : Program P V Val W} {G : FlowGraph P V} {loc : V → L}

theorem Agrees.reads (follows : prog.Follows G) {p : P} {vars : V → Val} {store : L → Val}
    (agrees : Agrees G loc p vars store) :
    ((prog.rename loc).reads p).map store = (prog.reads p).map vars := by
  simp only [rename, List.map_map]
  exact List.map_congr_left fun v mem => agrees v (.use (follows.use mem))

variable [DecidableEq V] [DecidableEq L]

/-- The same write on both sides keeps the agreement. -/
theorem Agrees.write (follows : prog.Follows G) (separates : prog.Separates G loc) {p q : P}
    (edge : G.Next p q) {vars : V → Val} {store : L → Val} (agrees : Agrees G loc p vars store)
    (value : Val) :
    Agrees G loc q (Program.write vars (prog.writes p) value)
      (Program.write store ((prog.rename loc).writes p) value) := by
  intro v live
  simp only [rename]
  cases written : prog.writes p with
  | none =>
    refine agrees v (.step ?_ edge live)
    simp [follows.defines, written]
  | some d =>
    by_cases same : v = d
    · subst same
      simp [Program.write]
    · have apart := separates p q d v written edge live same
      have notDef : ¬ G.Def p v := by simpa [follows.defines, written] using Ne.symm same
      simpa [Program.write, same, apart] using agrees v (.step notDef edge live)

/-- One step on variables is one step on locations. -/
theorem Agrees.step (follows : prog.Follows G) (separates : prog.Separates G loc)
    {before after : State P V Val W} {store : L → Val}
    (agrees : Agrees G loc before.point before.vars store) (step : prog.Step before after) :
    ∃ store', (prog.rename loc).Step ⟨before.point, store, before.world⟩
        ⟨after.point, store', after.world⟩ ∧ Agrees G loc after.point after.vars store' := by
  obtain ⟨value, acts, written⟩ := step
  rw [← agrees.reads follows] at acts
  refine ⟨_, ⟨value, acts, rfl⟩, ?_⟩
  rw [written]
  exact agrees.write follows separates (follows.next acts) value

/-- One step on locations is one step on variables. -/
theorem Agrees.step_back (follows : prog.Follows G) (separates : prog.Separates G loc)
    {before after : State P L Val W} {vars : V → Val}
    (agrees : Agrees G loc before.point vars before.vars)
    (step : (prog.rename loc).Step before after) :
    ∃ vars', prog.Step ⟨before.point, vars, before.world⟩ ⟨after.point, vars', after.world⟩ ∧
      Agrees G loc after.point vars' after.vars := by
  obtain ⟨value, acts, written⟩ := step
  rw [agrees.reads follows] at acts
  refine ⟨_, ⟨value, acts, rfl⟩, ?_⟩
  rw [written]
  exact agrees.write follows separates (follows.next acts) value

/-- A run on variables is a run on locations that agrees at its end. -/
theorem Agrees.run (follows : prog.Follows G) (separates : prog.Separates G loc)
    {first last : State P V Val W} {store : L → Val}
    (agrees : Agrees G loc first.point first.vars store) (run : prog.Run first last) :
    ∃ store', (prog.rename loc).Run ⟨first.point, store, first.world⟩
        ⟨last.point, store', last.world⟩ ∧ Agrees G loc last.point last.vars store' := by
  induction run with
  | refl => exact ⟨store, .refl, agrees⟩
  | tail _ step ih =>
    obtain ⟨middle, before, agreesBefore⟩ := ih
    obtain ⟨store', next, agreesAfter⟩ := agreesBefore.step follows separates step
    exact ⟨store', before.tail next, agreesAfter⟩

/-- A run on locations is a run on variables that agrees at its end. -/
theorem Agrees.run_back (follows : prog.Follows G) (separates : prog.Separates G loc)
    {first last : State P L Val W} {vars : V → Val}
    (agrees : Agrees G loc first.point vars first.vars) (run : (prog.rename loc).Run first last) :
    ∃ vars', prog.Run ⟨first.point, vars, first.world⟩ ⟨last.point, vars', last.world⟩ ∧
      Agrees G loc last.point vars' last.vars := by
  induction run with
  | refl => exact ⟨vars, .refl, agrees⟩
  | tail _ step ih =>
    obtain ⟨middle, before, agreesBefore⟩ := ih
    obtain ⟨vars', next, agreesAfter⟩ := agreesBefore.step_back follows separates step
    exact ⟨vars', before.tail next, agreesAfter⟩

end Program

end Saad.General
