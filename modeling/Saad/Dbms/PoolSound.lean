import Saad.Dbms.Pool

/-! # The pool keeps what it is for -/

namespace Saad.Pool

section Sums

variable {threads after before : List Thread} {t t' : Thread}

/-- A thread did something, and the others nothing. -/
theorem sum_replace (f : Thread → ℕ) :
    ((before ++ t' :: after).map f).sum + f t = ((before ++ t :: after).map f).sum + f t' := by
  simp only [List.map_append, List.map_cons, List.sum_append, List.sum_cons]
  omega

theorem Signal.sum (f : Thread → ℕ)
    (same : ∀ t : Thread, t.doing = .waiting → f { t with doing := .woken true } = f t)
    {woken : List Thread} (signal : Signal threads woken) :
    (woken.map f).sum = (threads.map f).sum := by
  cases signal with
  | one before after t waits =>
    have := @sum_replace after before t { t with doing := .woken true } f
    rw [same t waits] at this
    omega
  | nobody => rfl

theorem sum_waits_eq_zero : (threads.map Thread.waits).sum = 0 ↔ ∀ t ∈ threads, t.doing ≠ .waiting := by
  induction threads with
  | nil => simp
  | cons t rest ih =>
    simp only [List.map_cons, List.sum_cons, Nat.add_eq_zero_iff, ih, Thread.waits, List.forall_mem_cons]
    split <;> simp_all

theorem sum_signals_pos :
    0 < (threads.map Thread.signals).sum ↔ ∃ t ∈ threads, t.doing = .woken true := by
  induction threads with
  | nil => simp
  | cons t rest ih =>
    simp only [List.map_cons, List.sum_cons, Thread.signals]
    split <;> simp_all

/-- A signal reaches a thread if one waits. -/
theorem Signal.reaches {woken : List Thread} (signal : Signal threads woken) :
    (woken.map Thread.waits).sum = 0 ∨
      (woken.map Thread.waits).sum < (threads.map Thread.waits).sum ∧
        (woken.map Thread.signals).sum = (threads.map Thread.signals).sum + 1 := by
  cases signal with
  | one before after t waiting =>
    right
    have replace := @sum_replace after before t { t with doing := .woken true }
    have waits := replace Thread.waits
    have signals := replace Thread.signals
    simp only [Thread.waits, Thread.signals, waiting, reduceCtorEq, ↓reduceIte] at waits signals
    omega
  | nobody _ none => exact .inl (sum_waits_eq_zero.mpr none)

end Sums

section Steps

/-- What holds after every section under the mutex. -/
structure Consistent (s : State) : Prop where
  within : (s.idle.length + s.inUse + s.toClose + s.connecting : ℤ) ≤ max s.size 0
  counted : s.open_ = s.idle.length + s.inUse + s.connecting
  one_place : ∀ c, s.copies c = if c < s.made then 1 else 0
  closed : s.closed = true → s.idle = []
  closing : s.closed = false → s.toClose = 0
  /-- There is a signal under way for each connection that a waiting thread could have. -/
  signalled : s.closed = false → 0 < s.waiters → s.idle.length + (s.size - s.open_) ≤ s.pending

theorem Consistent.safe {s : State} (consistent : Consistent s) : Safe s where
  within := consistent.within
  counted := consistent.counted
  one_place := consistent.one_place
  closed := consistent.closed
  woken := by
    intro open_ waits free
    have waiters : 0 < s.waiters := by
      rw [Nat.pos_iff_ne_zero, State.waiters, Ne, sum_waits_eq_zero]
      simpa using waits
    have signalled := consistent.signalled open_ waiters
    have counted := consistent.counted
    have within := consistent.within
    apply sum_signals_pos.mp
    change 0 < s.pending
    rcases free with idle | place
    · have := List.length_pos_iff.mpr idle
      omega
    · omega

theorem consistent_newPool (size : ℤ) (threads : ℕ) : Consistent (newPool size threads) := by
  have none (f : Thread → ℕ) (zero : f {} = 0) :
      ((newPool size threads).threads.map f).sum = 0 := by
    simp [newPool, zero]
  have inUse := none (fun t => t.held.length) rfl
  have connecting := none Thread.connects rfl
  have toClose := none Thread.closes rfl
  have waiters := none Thread.waits rfl
  refine
    { within := ?_, counted := ?_, one_place := fun c => ?_, closed := fun _ => rfl,
      closing := fun _ => toClose, signalled := fun _ waits => ?_ }
  · simp only [State.inUse, State.connecting, State.toClose, inUse, connecting, toClose]
    simp [newPool]
  · simp only [State.inUse, State.connecting, inUse, connecting]
    simp [newPool]
  · simp only [State.copies, none (fun t => t.has.count c) rfl]
    simp [newPool]
  · exact absurd waits (by simp only [State.waiters, waiters]; omega)

variable {s s' : State} {before after : List Thread} {t t' : Thread}

/-- What a step does to the connections of thread `t` it does to the sums. -/
structure Moved (s s' : State) (t t' : Thread) : Prop where
  inUse : s'.inUse + t.held.length = s.inUse + t'.held.length
  connecting : s'.connecting + t.connects = s.connecting + t'.connects
  toClose : s'.toClose + t.closes = s.toClose + t'.closes
  has : ∀ c, (s'.threads.map fun t => t.has.count c).sum + t.has.count c =
    (s.threads.map fun t => t.has.count c).sum + t'.has.count c

theorem replaced (is : s.threads = before ++ t :: after) (becomes : s'.threads = before ++ t' :: after) :
    Moved s s' t t' ∧ s'.waiters + t.waits = s.waiters + t'.waits ∧
      s'.pending + t.signals = s.pending + t'.signals := by
  have sums (f : Thread → ℕ) : (s'.threads.map f).sum + f t = (s.threads.map f).sum + f t' := by
    rw [is, becomes]
    exact sum_replace f
  exact ⟨⟨sums _, sums _, sums _, fun c => sums _⟩, sums _, sums _⟩

theorem replaced_signal (is : s.threads = before ++ t :: after)
    (signal : Signal (before ++ t' :: after) s'.threads) (quiet : t.signals = 0 ∧ t'.signals = 0) :
    Moved s s' t t' ∧
      (s'.waiters = 0 ∨ s'.waiters < s.waiters + t'.waits ∧ s'.pending = s.pending + 1) := by
  have sums (f : Thread → ℕ)
      (same : ∀ t : Thread, t.doing = .waiting → f { t with doing := .woken true } = f t) :
      (s'.threads.map f).sum + f t = (s.threads.map f).sum + f t' := by
    rw [is, signal.sum f same]
    exact sum_replace f
  refine ⟨⟨sums _ fun _ _ => rfl, sums _ ?_, sums _ ?_, fun c => sums _ ?_⟩, ?_⟩
  · intro t waits
    simp [Thread.connects, waits]
  · intro t waits
    simp [Thread.closes, waits]
  · intro t waits
    simp [Thread.has, waits]
  · have waits := @sum_replace after before t t' Thread.waits
    have signals := @sum_replace after before t t' Thread.signals
    rw [← is] at waits signals
    have := signal.reaches
    simp only [State.waiters, State.pending]
    omega

/-- A step of one thread, by what it does to the thread and to the fields of the pool. -/
structure Moves (s s' : State) (t t' : Thread) : Prop where
  size : s'.size = s.size
  closed : s'.closed = s.closed
  idle : s.closed = true → s'.idle = s.idle
  within : s'.idle.length + t'.held.length + t'.closes + t'.connects ≤
        s.idle.length + t.held.length + t.closes + t.connects ∨
      s.closed = false ∧ s'.open_ ≤ s.size
  counted : s'.open_ + s.idle.length + t.held.length + t.connects =
      s.open_ + s'.idle.length + t'.held.length + t'.connects
  closes : s.closed = false → t'.closes = 0
  place : ∀ c, s'.idle.count c + t'.has.count c + s'.closings.count c + (if c < s.made then 1 else 0) =
      s.idle.count c + t.has.count c + s.closings.count c + if c < s'.made then 1 else 0

theorem Consistent.moved (ok : Consistent s) (moved : Moved s s' t t') (moves : Moves s s' t t')
    (signalled : s.closed = false → 0 < s'.waiters →
      s'.idle.length + (s.size - s'.open_) ≤ s'.pending) : Consistent s' := by
  obtain ⟨size, closed, idle, within, counted, closes, place⟩ := moves
  have closing : s.closed = false → s'.toClose = 0 := by
    intro isOpen
    have := ok.closing isOpen
    have := closes isOpen
    have := moved.toClose
    omega
  have counted : s'.open_ = s'.idle.length + s'.inUse + s'.connecting := by
    have := ok.counted
    have := moved.inUse
    have := moved.connecting
    omega
  refine
    { within := ?_, counted, one_place := fun c => ?_, closed := fun isClosed => ?_,
      closing := closed ▸ closing, signalled := closed ▸ size ▸ signalled }
  · rw [size]
    rcases within with less | ⟨isOpen, free⟩
    · have := ok.within
      have := moved.inUse
      have := moved.connecting
      have := moved.toClose
      omega
    · have := closing isOpen
      omega
  · have := ok.one_place c
    have := moved.has c
    have := place c
    simp only [State.copies] at *
    omega
  · rw [closed] at isClosed
    rw [idle isClosed, ok.closed isClosed]

theorem Consistent.replaced (ok : Consistent s) (is : s.threads = before ++ t :: after)
    (becomes : s'.threads = before ++ t' :: after) (moves : Moves s s' t t')
    (signalled : s.closed = false → s'.idle = [] ∧ s.size ≤ s'.open_ ∨ t'.waits = 0 ∧
      s'.idle.length + s.open_ + t.signals ≤ s.idle.length + s'.open_ + t'.signals) :
    Consistent s' := by
  obtain ⟨moved, waiters, pending⟩ := Pool.replaced is becomes
  refine ok.moved moved moves fun isOpen waits => ?_
  have before := ok.signalled isOpen
  rcases signalled isOpen with ⟨none, full⟩ | ⟨running, fewer⟩
  · rw [none, List.length_nil]
    omega
  · omega

theorem Consistent.replaced_signal (ok : Consistent s) (is : s.threads = before ++ t :: after)
    (signal : Signal (before ++ t' :: after) s'.threads) (quiet : t.signals = 0 ∧ t'.signals = 0)
    (moves : Moves s s' t t') (running : t'.waits = 0)
    (more : s'.idle.length + s.open_ ≤ s.idle.length + s'.open_ + 1) : Consistent s' := by
  obtain ⟨moved, reaches⟩ := Pool.replaced_signal is signal quiet
  refine ok.moved moved moves fun isOpen waits => ?_
  have before := ok.signalled isOpen
  omega

theorem Thread.Looks.zero (looks : t.Looks) :
    t.connects = 0 ∧ t.closes = 0 ∧ t.waits = 0 ∧ t.has = t.held := by
  rcases looks with running | ⟨signalled, woken⟩
  · simp [Thread.connects, Thread.closes, Thread.waits, Thread.has, running]
  · simp [Thread.connects, Thread.closes, Thread.waits, Thread.has, woken]

theorem Thread.signals_le (t : Thread) : t.signals ≤ 1 := by
  unfold Thread.signals
  split <;> omega

@[simp] theorem Thread.connects_mk (doing : Doing) (held : List Connection) :
    Thread.connects ⟨doing, held⟩ = if doing = .connecting then 1 else 0 := rfl

@[simp] theorem Thread.signals_mk (doing : Doing) (held : List Connection) :
    Thread.signals ⟨doing, held⟩ = if doing = .woken true then 1 else 0 := rfl

@[simp] theorem Thread.waits_mk (doing : Doing) (held : List Connection) :
    Thread.waits ⟨doing, held⟩ = if doing = .waiting then 1 else 0 := rfl

@[simp] theorem Thread.closes_running (held : List Connection) :
    Thread.closes ⟨.running, held⟩ = 0 := rfl

@[simp] theorem Thread.has_running (held : List Connection) : Thread.has ⟨.running, held⟩ = held := rfl

@[simp] theorem Thread.has_waiting (held : List Connection) : Thread.has ⟨.waiting, held⟩ = held := rfl

@[simp] theorem Thread.has_connecting (held : List Connection) :
    Thread.has ⟨.connecting, held⟩ = held := rfl

/-- `close` under the mutex wakes all threads that wait. -/
theorem Consistent.close (ok : Consistent s) :
    Consistent
      { s with
        closed := true
        idle := []
        open_ := s.open_ - s.idle.length
        closings := s.closings ++ s.idle
        threads := s.threads.map Thread.wake } := by
  have sums (f : Thread → ℕ) (same : ∀ t : Thread, f t.wake = f t) :
      ((s.threads.map Thread.wake).map f).sum = (s.threads.map f).sum := by
    rw [List.map_map, Function.comp_def]
    simp only [same]
  have inUse := sums (fun t => t.held.length) fun t => by unfold Thread.wake; split <;> rfl
  have connecting := sums Thread.connects fun t => by
    unfold Thread.wake
    split_ifs with waits <;> simp [Thread.connects, waits]
  have toClose := sums Thread.closes fun t => by
    unfold Thread.wake
    split_ifs with waits <;> simp [Thread.closes, waits]
  have has (c : Connection) := sums (fun t => t.has.count c) fun t => by
    unfold Thread.wake
    split_ifs with waits <;> simp [Thread.has, waits]
  obtain ⟨within, counted, one_place, -, -, -⟩ := ok
  simp only [State.inUse, State.connecting, State.toClose, State.copies] at within counted one_place
  refine ⟨?_, ?_, fun c => ?_, fun _ => rfl, ?_, ?_⟩
  · simp only [State.inUse, State.connecting, State.toClose, inUse, connecting, toClose, List.length_nil]
    omega
  · simp only [State.inUse, State.connecting, inUse, connecting, List.length_nil]
    omega
  · have := one_place c
    simp only [State.copies, has, List.count_nil, List.count_append]
    omega
  · simp
  · simp

theorem Consistent.step (ok : Consistent s) (step : Step s s') : Consistent s' := by
  cases step with
  | getClosed before after t is looks isClosed =>
    obtain ⟨connects, closes, waits, has⟩ := looks.zero
    refine ok.replaced is rfl ⟨rfl, rfl, fun _ => rfl, .inl ?_, ?_, fun _ => rfl, fun c => ?_⟩ ?_
    · simp [connects, closes]
    · simp [connects]
    · simp [has]
    · simp [isClosed]
  | getIdle before after t rest c is looks isOpen idle =>
    obtain ⟨connects, closes, waits, has⟩ := looks.zero
    have signals := t.signals_le
    refine ok.replaced is rfl ⟨rfl, rfl, ?_, .inl ?_, ?_, fun _ => rfl, fun x => ?_⟩ fun _ => .inr ⟨rfl, ?_⟩
    · simp [isOpen]
    · simp [connects, closes, idle]
      omega
    · simp [connects, idle]
      omega
    · simp [has, idle, List.count_cons]
      omega
    · simp [idle]
      omega
  | getNew before after t is looks isOpen idle free =>
    obtain ⟨connects, closes, waits, has⟩ := looks.zero
    have signals := t.signals_le
    refine ok.replaced is rfl
      ⟨rfl, rfl, fun _ => rfl, .inr ⟨isOpen, ?_⟩, ?_, fun _ => rfl, fun c => ?_⟩ fun _ => .inr ⟨rfl, ?_⟩
    · dsimp only
      omega
    · simp [connects]
      omega
    · simp [has]
    · simp
      omega
  | getWaits before after t is looks isOpen idle full =>
    obtain ⟨connects, closes, waits, has⟩ := looks.zero
    refine ok.replaced is rfl
      ⟨rfl, rfl, fun _ => rfl, .inl ?_, ?_, fun _ => rfl, fun c => ?_⟩ fun _ => .inl ⟨idle, ?_⟩
    · simp [connects, Thread.closes]
    · simp [connects]
    · simp [has]
    · dsimp only
      omega
  | connects before after t is connecting =>
    refine ok.replaced is rfl
      ⟨rfl, rfl, fun _ => rfl, .inl ?_, ?_, fun _ => rfl, fun c => ?_⟩ fun _ => .inr ⟨rfl, ?_⟩
    · simp [Thread.connects, Thread.closes, connecting]
      omega
    · simp [Thread.connects, connecting]
      omega
    · rcases Nat.lt_trichotomy c s.made with less | same | more
      · simp [Thread.has, connecting, less, less.ne', Nat.lt_succ_of_lt less]
      · subst same
        simp [Thread.has, connecting]
        omega
      · simp [Thread.has, connecting, more.ne, Nat.not_lt.mpr more.le]
        exact more
    · simp [Thread.signals, connecting]
  | connectFails before after threads t is connecting signal =>
    refine ok.replaced_signal is signal ?_
      ⟨rfl, rfl, fun _ => rfl, .inl ?_, ?_, fun _ => rfl, fun c => ?_⟩ rfl ?_
    · simp [Thread.signals, connecting]
    · simp [Thread.connects, Thread.closes, connecting]
    · simp [Thread.connects, connecting]
      omega
    · simp [Thread.has, connecting]
    · dsimp only
      omega
  | putClosed before after t c is running held isClosed =>
    have length := List.length_erase_of_mem held
    have pos := List.length_pos_of_mem held
    refine ok.replaced is rfl ⟨rfl, rfl, fun _ => rfl, .inl ?_, ?_, ?_, fun x => ?_⟩ ?_
    · simp [Thread.connects, Thread.closes, running, length]
      omega
    · simp [Thread.connects, running, length]
      omega
    · simp [isClosed]
    · simp [Thread.has, running, (List.perm_cons_erase held).count_eq x]
    · simp [isClosed]
  | putIdle before after threads t c is running held isOpen signal =>
    have length := List.length_erase_of_mem held
    have pos := List.length_pos_of_mem held
    refine ok.replaced_signal is signal ?_ ⟨rfl, rfl, ?_, .inl ?_, ?_, ?_, fun x => ?_⟩ ?_ ?_
    · simp [Thread.signals, running]
    · simp [isOpen]
    · simp [Thread.connects, Thread.closes, running, length]
      omega
    · simp [Thread.connects, running, length]
      omega
    · simp [Thread.closes, running]
    · simp [Thread.has, running, (List.perm_cons_erase held).count_eq x, List.count_cons]
      omega
    · simp [running]
    · simp
      omega
  | closeGiven before after t c is closing =>
    refine ok.replaced is rfl
      ⟨rfl, rfl, fun _ => rfl, .inl ?_, ?_, fun _ => rfl, fun x => ?_⟩ fun _ => .inr ⟨rfl, ?_⟩
    · simp [Thread.connects, Thread.closes, closing]
    · simp [Thread.connects, closing]
    · simp [Thread.has, closing, List.count_cons]
      omega
    · simp [Thread.signals, closing]
  | close => exact ok.close
  | openCount => exact ok
  | wakeUp before after t is waiting =>
    refine ok.replaced is rfl
      ⟨rfl, rfl, fun _ => rfl, .inl ?_, ?_, fun _ => rfl, fun c => ?_⟩ fun _ => .inr ⟨rfl, ?_⟩
    · simp [Thread.connects, Thread.closes, waiting]
    · simp [Thread.connects, waiting]
    · simp [Thread.has, waiting]
    · simp [Thread.signals, waiting]

end Steps

section Closed

variable {s s' : State} {c : Connection}

theorem State.has_eq (s : State) (c : Connection) :
    (s.threads.map fun t => t.has.count c).sum = s.holders c + s.closers c := by
  rw [State.holders, State.closers, ← List.sum_map_add]
  refine congrArg List.sum (List.map_congr_left fun t _ => ?_)
  unfold Thread.has
  split
  · next d doing => simp [doing, List.count_cons]
  · next other => rw [if_neg (other c), Nat.add_zero]

/-- The pool is closed, and the connection was given back to it. -/
structure GivenBack (c : Connection) (s : State) : Prop where
  closed : s.closed = true
  made : c < s.made
  holders : s.holders c = 0

theorem holders_replace {before after : List Thread} {t t' : Thread}
    (is : s.threads = before ++ t :: after) (becomes : s'.threads = before ++ t' :: after)
    (fewer : t'.held.count c ≤ t.held.count c) : s'.holders c ≤ s.holders c := by
  have := @sum_replace after before t t' fun t => t.held.count c
  rw [State.holders, State.holders, is, becomes]
  omega

theorem GivenBack.step (given : GivenBack c s) (step : Step s s') : GivenBack c s' := by
  obtain ⟨closed, made, holders⟩ := given
  cases step with
  | getClosed before after t is =>
    exact ⟨closed, made, Nat.le_zero.mp (holders ▸ holders_replace is rfl le_rfl)⟩
  | getIdle before after t rest c is looks isOpen => exact absurd isOpen (by simp [closed])
  | getNew before after t is looks isOpen => exact absurd isOpen (by simp [closed])
  | getWaits before after t is looks isOpen => exact absurd isOpen (by simp [closed])
  | connects before after t is =>
    refine ⟨closed, Nat.lt_succ_of_lt made, Nat.le_zero.mp (holders ▸ holders_replace is rfl ?_)⟩
    rw [List.count_cons_of_ne made.ne']
  | connectFails before after threads t is connecting signal =>
    refine ⟨closed, made, ?_⟩
    have same := signal.sum (fun t => t.held.count c) fun _ _ => rfl
    have fewer : State.holders { s with threads := before ++ { t with doing := .running } :: after } c ≤
        s.holders c := holders_replace is rfl le_rfl
    rw [holders] at fewer
    exact same.trans (Nat.le_zero.mp fewer)
  | putClosed before after t d is =>
    exact ⟨closed, made, Nat.le_zero.mp (holders ▸ holders_replace is rfl (List.erase_sublist.count_le c))⟩
  | putIdle before after threads t d is running held isOpen => exact absurd isOpen (by simp [closed])
  | closeGiven before after t d is =>
    exact ⟨closed, made, Nat.le_zero.mp (holders ▸ holders_replace is rfl le_rfl)⟩
  | close =>
    refine ⟨rfl, made, ?_⟩
    rw [State.holders, List.map_map]
    refine (congrArg List.sum (List.map_congr_left fun t _ => ?_)).trans holders
    rw [Function.comp_apply, Thread.wake]
    split <;> rfl
  | openCount => exact ⟨closed, made, holders⟩
  | wakeUp before after t is =>
    exact ⟨closed, made, Nat.le_zero.mp (holders ▸ holders_replace is rfl le_rfl)⟩

theorem Consistent.run (ok : Consistent s) (run : Relation.ReflTransGen Step s s') : Consistent s' := by
  induction run with
  | refl => exact ok
  | tail _ step ih => exact ih.step step

theorem Step.stays_closed (step : Step s s') (closed : s.closed = true) : s'.closed = true := by
  cases step <;> first | exact closed | rfl

theorem GivenBack.run (given : GivenBack c s) (run : Relation.ReflTransGen Step s s') : GivenBack c s' := by
  induction run with
  | refl => exact given
  | tail _ step ih => exact ih.step step

theorem stays_closed (run : Relation.ReflTransGen Step s s') (closed : s.closed = true) :
    s'.closed = true := by
  induction run with
  | refl => exact closed
  | tail _ step ih => exact step.stays_closed ih

theorem Consistent.closed_once (ok : Consistent s) (given : GivenBack c s) :
    s.closings.count c + s.closers c = 1 := by
  have place := ok.one_place c
  rw [State.copies, ok.closed given.closed, State.has_eq, given.holders, if_pos given.made,
    List.count_nil] at place
  omega

end Closed

/-- A pool is safe after any steps of its threads, in any order. After `close` no connection becomes
idle, and one that isn't in use is closed once, or by a thread that is about to do it. -/
theorem reachable_safe {size : ℤ} {threads : ℕ} {s : State} (reachable : Reachable size threads s) :
    Safe s ∧ ∀ {later : State}, Relation.ReflTransGen Step s later → s.closed = true →
      later.closed = true ∧ later.idle = [] ∧
        ∀ c, c < s.made → s.holders c = 0 →
          later.holders c = 0 ∧ later.closings.count c + later.closers c = 1 := by
  have ok : Consistent s := (consistent_newPool size threads).run reachable
  refine ⟨ok.safe, fun {later} run closed => ?_⟩
  have okLater := ok.run run
  have closedLater := stays_closed run closed
  refine ⟨closedLater, okLater.closed closedLater, fun c made holders => ?_⟩
  have given : GivenBack c later := GivenBack.run ⟨closed, made, holders⟩ run
  exact ⟨given.holders, okLater.closed_once given⟩

/-- Two threads and one connection: the second waits for the first, and is woken when it comes back. -/
theorem reachable_safe_handedOver :
    Safe ⟨1, [0], 1, false, [⟨.running, []⟩, ⟨.woken true, []⟩], 1, []⟩ := by
  refine (@reachable_safe 1 2 _ ?_).1
  have getNew := Step.getNew (newPool 1 2) [] [{}] {} rfl (.inl rfl) rfl rfl (by decide)
  have connects := Step.connects ⟨1, [], 1, false, [⟨.connecting, []⟩, {}], 0, []⟩ [] [{}] _ rfl rfl
  have waits := Step.getWaits ⟨1, [], 1, false, [⟨.running, [0]⟩, {}], 1, []⟩ [⟨.running, [0]⟩] [] {}
    rfl (.inl rfl) rfl rfl (by decide)
  have putIdle := Step.putIdle ⟨1, [], 1, false, [⟨.running, [0]⟩, ⟨.waiting, []⟩], 1, []⟩ []
    [⟨.waiting, []⟩] _ _ 0 rfl rfl (List.mem_singleton.mpr rfl) rfl
    (.one [⟨.running, []⟩] [] ⟨.waiting, []⟩ rfl)
  exact (((Relation.ReflTransGen.single getNew).tail connects).tail waits).tail putIdle

end Saad.Pool
