import Mathlib.Algebra.BigOperators.Group.List.Basic
import Mathlib.Algebra.Order.Ring.Nat
import Saad.Std.Int32

/-! # A pool of connections

Each step is a section under the mutex of the pool, or what a thread does without it. A signal wakes a
thread that waits, if there is one; a thread can also wake without a reason. A thread that was woken
looks again when it has the mutex.
-/

namespace Saad.Pool

/-- Connections are numbered as they are made. -/
abbrev Connection := ℕ

/-- What a thread is doing at the pool. -/
inductive Doing where
  /-- Nothing, or it waits for the mutex at the start of a method. -/
  | running
  /-- In `wait`. -/
  | waiting
  /-- In `wait` as well, but woken, by a signal or without a reason. -/
  | woken (signalled : Bool)
  /-- In `connect`, without the mutex. -/
  | connecting
  /-- In `put` behind the mutex, before the connection is closed. -/
  | closing (c : Connection)
deriving DecidableEq, Repr

/-- A thread and the connections that it got and didn't give back. -/
structure Thread where
  doing : Doing := .running
  held : List Connection := []
deriving DecidableEq, Repr

/-- What a broadcast does to a thread. -/
def Thread.wake (t : Thread) : Thread :=
  if t.doing = .waiting then { t with doing := .woken true } else t

/-- The thread goes on with the loop of `get`, or calls it. -/
def Thread.Looks (t : Thread) : Prop := t.doing = .running ∨ ∃ signalled, t.doing = .woken signalled

structure State where
  size : ℤ
  idle : List Connection := []
  open_ : ℤ := 0
  closed : Bool := false
  threads : List Thread
  /-- The number of connections that were made, and those that were closed, in order. -/
  made : ℕ := 0
  closings : List Connection := []
deriving DecidableEq, Repr

def newPool (size : ℤ) (threads : ℕ) : State := { size, threads := List.replicate threads {} }

inductive Signal : List Thread → List Thread → Prop
  | one (before after : List Thread) (t : Thread) : t.doing = .waiting →
      Signal (before ++ t :: after) (before ++ { t with doing := .woken true } :: after)
  | nobody (threads : List Thread) : (∀ t ∈ threads, t.doing ≠ .waiting) → Signal threads threads

inductive Step : State → State → Prop
  /-- `get` -/
  | getClosed (s : State) (before after : List Thread) (t : Thread) :
      s.threads = before ++ t :: after → t.Looks → s.closed = true →
      Step s { s with threads := before ++ { t with doing := .running } :: after }
  | getIdle (s : State) (before after : List Thread) (t : Thread) (rest : List Connection)
      (c : Connection) : s.threads = before ++ t :: after → t.Looks → s.closed = false →
      s.idle = rest ++ [c] →
      Step s
        { s with
          idle := rest
          threads := before ++ { t with doing := .running, held := c :: t.held } :: after }
  | getNew (s : State) (before after : List Thread) (t : Thread) :
      s.threads = before ++ t :: after → t.Looks → s.closed = false → s.idle = [] →
      s.open_ < s.size →
      Step s
        { s with
          open_ := s.open_ + 1
          threads := before ++ { t with doing := .connecting } :: after }
  | getWaits (s : State) (before after : List Thread) (t : Thread) :
      s.threads = before ++ t :: after → t.Looks → s.closed = false → s.idle = [] →
      ¬s.open_ < s.size →
      Step s { s with threads := before ++ { t with doing := .waiting } :: after }
  | connects (s : State) (before after : List Thread) (t : Thread) :
      s.threads = before ++ t :: after → t.doing = .connecting →
      Step s
        { s with
          made := s.made + 1
          threads := before ++ { t with doing := .running, held := s.made :: t.held } :: after }
  | connectFails (s : State) (before after threads : List Thread) (t : Thread) :
      s.threads = before ++ t :: after → t.doing = .connecting →
      Signal (before ++ { t with doing := .running } :: after) threads →
      Step s { s with open_ := s.open_ - 1, threads }
  /-- `put` -/
  | putClosed (s : State) (before after : List Thread) (t : Thread) (c : Connection) :
      s.threads = before ++ t :: after → t.doing = .running → c ∈ t.held → s.closed = true →
      Step s
        { s with
          open_ := s.open_ - 1
          threads := before ++ { t with doing := .closing c, held := t.held.erase c } :: after }
  | putIdle (s : State) (before after threads : List Thread) (t : Thread) (c : Connection) :
      s.threads = before ++ t :: after → t.doing = .running → c ∈ t.held → s.closed = false →
      Signal (before ++ { t with held := t.held.erase c } :: after) threads →
      Step s { s with idle := s.idle ++ [c], threads }
  | closeGiven (s : State) (before after : List Thread) (t : Thread) (c : Connection) :
      s.threads = before ++ t :: after → t.doing = .closing c →
      Step s
        { s with
          closings := s.closings ++ [c]
          threads := before ++ { t with doing := .running } :: after }
  /-- `close` -/
  | close (s : State) :
      Step s
        { s with
          closed := true
          idle := []
          open_ := s.open_ - s.idle.length
          closings := s.closings ++ s.idle
          threads := s.threads.map Thread.wake }
  /-- `openCount` only reads, as `put` of null does. -/
  | openCount (s : State) : Step s s
  | wakeUp (s : State) (before after : List Thread) (t : Thread) :
      s.threads = before ++ t :: after → t.doing = .waiting →
      Step s { s with threads := before ++ { t with doing := .woken false } :: after }

/-- In every order of the steps. -/
def Reachable (size : ℤ) (threads : ℕ) (s : State) : Prop :=
  Relation.ReflTransGen Step (newPool size threads) s

section Counts

/-- The connections of the thread that aren't closed. -/
def Thread.has (t : Thread) : List Connection :=
  match t.doing with
  | .closing c => c :: t.held
  | _ => t.held

def Thread.connects (t : Thread) : ℕ := if t.doing = .connecting then 1 else 0

def Thread.signals (t : Thread) : ℕ := if t.doing = .woken true then 1 else 0

def Thread.closes (t : Thread) : ℕ :=
  match t.doing with
  | .closing _ => 1
  | _ => 0

def Thread.waits (t : Thread) : ℕ := if t.doing = .waiting then 1 else 0

/-- The connections in use, and the connects under way. -/
def State.inUse (s : State) : ℕ := (s.threads.map fun t => t.held.length).sum

def State.connecting (s : State) : ℕ := (s.threads.map Thread.connects).sum

/-- The signals on their way to a thread that waits. -/
def State.pending (s : State) : ℕ := (s.threads.map Thread.signals).sum

def State.waiters (s : State) : ℕ := (s.threads.map Thread.waits).sum

/-- The connections that were taken out of the count, and are closed next. -/
def State.toClose (s : State) : ℕ := (s.threads.map Thread.closes).sum

/-- How often a connection is somewhere. -/
def State.copies (s : State) (c : Connection) : ℕ :=
  s.idle.count c + (s.threads.map fun t => t.has.count c).sum + s.closings.count c

/-- How often a connection is in use, and how many threads are about to close it. -/
def State.holders (s : State) (c : Connection) : ℕ := (s.threads.map fun t => t.held.count c).sum

def State.closers (s : State) (c : Connection) : ℕ :=
  (s.threads.map fun t => if t.doing = .closing c then 1 else 0).sum

end Counts

/-- What a pool is for. -/
structure Safe (s : State) : Prop where
  /-- Connections that are open, those on the way to it included. -/
  within : (s.idle.length + s.inUse + s.toClose + s.connecting : ℤ) ≤ max s.size 0
  counted : s.open_ = s.idle.length + s.inUse + s.connecting
  /-- Every connection that was made is idle, in use by one thread, or closed, and only once. -/
  one_place : ∀ c, s.copies c = if c < s.made then 1 else 0
  closed : s.closed = true → s.idle = []
  /-- No wake-up is lost. -/
  woken : s.closed = false → (∃ t ∈ s.threads, t.doing = .waiting) →
    s.idle ≠ [] ∨ s.open_ < s.size → ∃ t ∈ s.threads, t.doing = .woken true

end Saad.Pool
