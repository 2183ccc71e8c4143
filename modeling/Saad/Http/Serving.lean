import Mathlib.Algebra.BigOperators.Group.List.Basic
import Mathlib.Algebra.Order.Ring.Nat
import Saad.General.Grouped

/-! # The poller, the workers and shutdown

Each step is a section under the mutex or an operation on a socket. The poller waits for the listener
and the idle connections, and gives a connection with a request to the workers. A worker gives it back
when it is kept alive, and wakes the poller with a byte, unless one is on its way.
-/

namespace Saad.Serving

/-- Connections are numbered in the order in which they are accepted. -/
abbrev Connection := ℕ

/-- Where a worker thread is. -/
inductive Worker where
  | looking
  | waiting
  | answering (c : Connection)
  | keeping (c : Connection)
  | closing (c : Connection)
  | ended
deriving DecidableEq, Repr

/-- The connection in the hands of a worker. -/
def Worker.hand : Worker → List Connection
  | .answering c => [c]
  | .keeping c => [c]
  | .closing c => [c]
  | _ => []

def Worker.asked : Worker → List Connection
  | .answering c => [c]
  | _ => []

/-- A worker that waits for the condition looks again when it is woken. -/
def Worker.woken : Worker → Worker
  | .waiting => .looking
  | w => w

/-- What a poll gives. -/
structure Ready where
  listener : Bool := false
  wake : Bool := false
  connections : List Connection := []
deriving DecidableEq, Repr

/-- `n > 0` -/
def Ready.some (ready : Ready) : Bool := ready.listener || ready.wake || !ready.connections.isEmpty

/-- Where the poller is. -/
inductive Phase where
  | checking
  | polling
  | polled (ready : Option Ready)
  | giving (ready : Ready)
  | draining (ready : Ready)
  | taking (ready : Ready)
  | accepting (ready : Ready)
  | expiring
  | ending
  | joining
  | closing
  | returned
deriving DecidableEq, Repr

structure State where
  phase : Phase := .checking
  /-- The list of the poller, and the part of it that a loop over it has kept. -/
  idle : List Connection := []
  kept : List Connection := []
  queue : List Connection := []
  returned : List Connection := []
  closed : List Connection := []
  workers : List Worker
  accepted : ℕ := 0
  stopping : Bool := false
  woke : Bool := false
  /-- `server.wake` isn't null. -/
  wake : Bool := true
  /-- The bytes on the way to the poller. -/
  pipe : ℕ := 0
  /-- What was given to the workers, and what they were done with, over the whole run. -/
  queued : List Connection := []
  answered : List Connection := []
deriving DecidableEq, Repr

/-- The threads were started. -/
def start (workers : ℕ) : State := { workers := List.replicate workers .looking }

/-- A signal wakes one of the workers that wait. -/
inductive Signal : List Worker → List Worker → Prop
  | one (before after : List Worker) :
      Signal (before ++ .waiting :: after) (before ++ .looking :: after)
  | nobody (workers : List Worker) : .waiting ∉ workers → Signal workers workers

/-- `serve` -/
inductive PollerStep : State → State → Prop
  | stops (s : State) : s.phase = .checking → s.stopping = true →
      PollerStep s { s with phase := .ending }
  | goes (s : State) : s.phase = .checking → s.stopping = false →
      PollerStep s { s with phase := .polling }
  | pollFails (s : State) : s.phase = .polling → PollerStep s { s with phase := .polled none }
  | poll (s : State) (ready : Ready) : s.phase = .polling → (ready.wake = true → 0 < s.pipe) →
      (∀ c ∈ ready.connections, c ∈ s.idle) → PollerStep s { s with phase := .polled ready }
  | breaks (s : State) : s.phase = .polled none → PollerStep s { s with phase := .ending }
  | breaksOff (s : State) (ready : Ready) : s.phase = .polled ready → s.stopping = true →
      PollerStep s { s with phase := .ending }
  | somethingCame (s : State) (ready : Ready) : s.phase = .polled ready → s.stopping = false →
      ready.some = true → PollerStep s { s with phase := .giving ready }
  | nothingCame (s : State) (ready : Ready) : s.phase = .polled ready → s.stopping = false →
      ready.some = false → PollerStep s { s with phase := .expiring }
  | give (s : State) (ready : Ready) (c : Connection) (rest : List Connection)
      (workers : List Worker) : s.phase = .giving ready → s.idle = c :: rest →
      c ∈ ready.connections → Signal s.workers workers →
      PollerStep s { s with idle := rest, queue := s.queue ++ [c], queued := s.queued ++ [c], workers }
  | keep (s : State) (ready : Ready) (c : Connection) (rest : List Connection) :
      s.phase = .giving ready → s.idle = c :: rest → c ∉ ready.connections →
      PollerStep s { s with idle := rest, kept := s.kept ++ [c] }
  | given (s : State) (ready : Ready) : s.phase = .giving ready → s.idle = [] →
      PollerStep s { s with phase := .draining ready, idle := s.kept, kept := [] }
  | drain (s : State) (ready : Ready) (n : ℕ) : s.phase = .draining ready → ready.wake = true →
      0 < n → n ≤ 64 → n ≤ s.pipe →
      PollerStep s { s with phase := .taking ready, pipe := s.pipe - n }
  | notWoken (s : State) (ready : Ready) : s.phase = .draining ready → ready.wake = false →
      PollerStep s { s with phase := .accepting ready }
  | take (s : State) (ready : Ready) : s.phase = .taking ready →
      PollerStep s
        { s with phase := .accepting ready, woke := false, idle := s.idle ++ s.returned, returned := [] }
  | accept (s : State) (ready : Ready) : s.phase = .accepting ready → ready.listener = true →
      PollerStep s
        { s with phase := .expiring, idle := s.idle ++ [s.accepted], accepted := s.accepted + 1 }
  /-- No connection came, or accepting it failed. -/
  | acceptNone (s : State) (ready : Ready) : s.phase = .accepting ready →
      PollerStep s { s with phase := .expiring }
  | expire (s : State) (c : Connection) (rest : List Connection) : s.phase = .expiring →
      s.idle = c :: rest → PollerStep s { s with idle := rest, closed := s.closed ++ [c] }
  | stay (s : State) (c : Connection) (rest : List Connection) : s.phase = .expiring →
      s.idle = c :: rest → PollerStep s { s with idle := rest, kept := s.kept ++ [c] }
  | expired (s : State) : s.phase = .expiring → s.idle = [] →
      PollerStep s { s with phase := .checking, idle := s.kept, kept := [] }
  | finish (s : State) : s.phase = .ending →
      PollerStep s
        { s with phase := .joining, stopping := true, workers := s.workers.map Worker.woken }
  | join (s : State) : s.phase = .joining → (∀ w ∈ s.workers, w = .ended) →
      PollerStep s { s with phase := .closing }
  | closeIdle (s : State) (c : Connection) (rest : List Connection) : s.phase = .closing →
      s.idle = c :: rest → PollerStep s { s with idle := rest, closed := s.closed ++ [c] }
  | closeReturned (s : State) (c : Connection) (rest : List Connection) : s.phase = .closing →
      s.idle = [] → s.returned = c :: rest →
      PollerStep s { s with returned := rest, closed := s.closed ++ [c] }
  | returns (s : State) : s.phase = .closing → s.idle = [] → s.returned = [] →
      PollerStep s { s with phase := .returned, wake := false }

/-- `work` -/
inductive WorkerStep : State → State → Prop
  | wait (s : State) (before after : List Worker) : s.workers = before ++ .looking :: after →
      s.queue = [] → s.stopping = false →
      WorkerStep s { s with workers := before ++ .waiting :: after }
  | quit (s : State) (before after : List Worker) : s.workers = before ++ .looking :: after →
      s.queue = [] → s.stopping = true →
      WorkerStep s { s with workers := before ++ .ended :: after }
  | take (s : State) (before after : List Worker) (c : Connection) (rest : List Connection) :
      s.workers = before ++ .looking :: after → s.queue = c :: rest →
      WorkerStep s { s with workers := before ++ .answering c :: after, queue := rest }
  /-- `serveRequests` answered what came, and the connection is kept alive. -/
  | keep (s : State) (before after : List Worker) (c : Connection) :
      s.workers = before ++ .answering c :: after →
      WorkerStep s { s with workers := before ++ .keeping c :: after, answered := s.answered ++ [c] }
  | drop (s : State) (before after : List Worker) (c : Connection) :
      s.workers = before ++ .answering c :: after →
      WorkerStep s { s with workers := before ++ .closing c :: after, answered := s.answered ++ [c] }
  | giveBack (s : State) (before after : List Worker) (c : Connection) :
      s.workers = before ++ .keeping c :: after →
      WorkerStep s
        { s with
          workers := before ++ .looking :: after
          returned := s.returned ++ [c]
          woke := s.woke || s.wake
          pipe := if s.wake && !s.woke then s.pipe + 1 else s.pipe }
  | close (s : State) (before after : List Worker) (c : Connection) :
      s.workers = before ++ .closing c :: after →
      WorkerStep s { s with workers := before ++ .looking :: after, closed := s.closed ++ [c] }

/-- A step of a thread of the server. -/
def ThreadStep (s t : State) : Prop := PollerStep s t ∨ WorkerStep s t

/-- What happens to the server: a shutdown at any point, or a worker that wakes for no reason. -/
inductive OtherStep : State → State → Prop
  | shutdown (s : State) :
      OtherStep s
        { s with
          stopping := true
          workers := s.workers.map Worker.woken
          pipe := if s.wake then s.pipe + 1 else s.pipe }
  | wakeUp (s : State) (before after : List Worker) : s.workers = before ++ .waiting :: after →
      OtherStep s { s with workers := before ++ .looking :: after }

def Step (s t : State) : Prop := ThreadStep s t ∨ OtherStep s t

end Saad.Serving
