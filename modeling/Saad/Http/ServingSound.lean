import Saad.Http.Serving

/-! # Every connection is in one place

What holds of the poller, the workers and shutdown in every order of their steps. A connection is only
lost when it is given to the queue after the last worker has ended.
-/

namespace Saad.Serving

open General Relation

variable {s t : State}

/-- In how many places a connection is. -/
def State.copies (s : State) (c : Connection) : ℕ :=
  s.idle.count c + s.kept.count c + s.queue.count c + (s.workers.flatMap Worker.hand).count c +
    s.returned.count c + s.closed.count c

section Workers

variable {workers woken : List Worker}

theorem flatMap_hand_woken (workers : List Worker) :
    (workers.map Worker.woken).flatMap Worker.hand = workers.flatMap Worker.hand := by
  rw [List.flatMap_map]
  congr 1
  funext w
  cases w <;> rfl

theorem flatMap_asked_woken (workers : List Worker) :
    (workers.map Worker.woken).flatMap Worker.asked = workers.flatMap Worker.asked := by
  rw [List.flatMap_map]
  congr 1
  funext w
  cases w <;> rfl

theorem waiting_notMem_woken (workers : List Worker) : .waiting ∉ workers.map Worker.woken := by
  rw [List.mem_map]
  rintro ⟨w, -, same⟩
  cases w <;> cases same

theorem Signal.hands (signal : Signal workers woken) :
    woken.flatMap Worker.hand = workers.flatMap Worker.hand := by
  cases signal with
  | one before after => simp [List.flatMap_append, Worker.hand]
  | nobody => rfl

theorem Signal.asked (signal : Signal workers woken) :
    woken.flatMap Worker.asked = workers.flatMap Worker.asked := by
  cases signal with
  | one before after => simp [List.flatMap_append, Worker.asked]
  | nobody => rfl

theorem Signal.waiting (signal : Signal workers woken) (nobody : .waiting ∉ workers) :
    .waiting ∉ woken := by
  cases signal with
  | one before after => exact absurd (by simp) nobody
  | nobody => exact nobody

theorem Signal.ended (signal : Signal workers woken) (ended : ∀ w ∈ woken, w = .ended) :
    ∀ w ∈ workers, w = .ended := by
  cases signal with
  | one before after => cases ended .looking (by simp)
  | nobody => exact ended

theorem ended_of_woken {w : Worker} (ended : w.woken = .ended) : w = .ended := by
  cases w with
  | ended => rfl
  | _ => cases ended

end Workers

section Places

/-- A step moves a connection from one place to another. -/
theorem PollerStep.copies (step : PollerStep s t) (c : Connection) :
    t.copies c + (if c < s.accepted then 1 else 0) =
      s.copies c + (if c < t.accepted then 1 else 0) := by
  simp only [State.copies]
  cases step with
  | give ready d rest workers phase idle member signal =>
    simp only [idle, signal.hands, List.count_cons, List.count_append, List.count_nil]
    omega
  | keep ready d rest phase idle absent =>
    simp only [idle, List.count_cons, List.count_append, List.count_nil]
    omega
  | given ready phase idle =>
    simp only [idle, List.count_nil]
    omega
  | take ready phase =>
    simp only [List.count_append, List.count_nil]
    omega
  | accept ready phase came =>
    simp only [List.count_append, List.count_singleton]
    obtain lt | rfl | gt := Nat.lt_trichotomy c s.accepted
    · rw [if_neg (by simpa using Nat.ne_of_gt lt), if_pos lt, if_pos (Nat.lt_succ_of_lt lt)]
      omega
    · rw [if_pos (by simp), if_neg (Nat.lt_irrefl _), if_pos (Nat.lt_succ_self _)]
      omega
    · rw [if_neg (by simpa using Nat.ne_of_lt gt), if_neg (Nat.not_lt_of_gt gt),
        if_neg (Nat.not_lt_of_le gt)]
      omega
  | expire d rest phase idle =>
    simp only [idle, List.count_cons, List.count_append, List.count_nil]
    omega
  | stay d rest phase idle =>
    simp only [idle, List.count_cons, List.count_append, List.count_nil]
    omega
  | expired phase idle =>
    simp only [idle, List.count_nil]
    omega
  | finish phase => rw [flatMap_hand_woken]
  | closeIdle d rest phase idle =>
    simp only [idle, List.count_cons, List.count_append, List.count_nil]
    omega
  | closeReturned d rest phase idle returned =>
    simp only [returned, List.count_cons, List.count_append, List.count_nil]
    omega
  | _ => rfl

theorem WorkerStep.copies (step : WorkerStep s t) (c : Connection) :
    t.copies c = s.copies c ∧ t.accepted = s.accepted := by
  simp only [State.copies]
  cases step with
  | wait before after workers => simp [workers, Worker.hand]
  | quit before after workers => simp [workers, Worker.hand]
  | take before after d rest workers queue =>
    simp only [workers, queue, List.flatMap_append, List.flatMap_cons, Worker.hand,
      List.count_append, List.count_cons, List.count_nil, and_true]
    omega
  | keep before after d workers => simp [workers, Worker.hand]
  | drop before after d workers => simp [workers, Worker.hand]
  | giveBack before after d workers =>
    simp only [workers, List.flatMap_append, List.flatMap_cons, Worker.hand,
      List.count_append, List.count_cons, List.count_nil, and_true]
    omega
  | close before after d workers =>
    simp only [workers, List.flatMap_append, List.flatMap_cons, Worker.hand,
      List.count_append, List.count_cons, List.count_nil, and_true]
    omega

theorem OtherStep.copies (step : OtherStep s t) (c : Connection) :
    t.copies c = s.copies c ∧ t.accepted = s.accepted := by
  simp only [State.copies]
  cases step with
  | shutdown => exact ⟨by rw [flatMap_hand_woken], rfl⟩
  | wakeUp before after workers => simp [workers, Worker.hand]

/-- What was given to the workers is in the queue, being answered, or answered. -/
def State.Accounted (s : State) : Prop :=
  ∀ c, s.queued.count c =
    s.queue.count c + (s.workers.flatMap Worker.asked).count c + s.answered.count c

theorem PollerStep.accounted (step : PollerStep s t) (accounted : s.Accounted) : t.Accounted := by
  intro c
  have now := accounted c
  cases step with
  | give ready d rest workers phase idle member signal =>
    simp only [signal.asked, List.count_append]
    omega
  | finish phase =>
    rw [flatMap_asked_woken]
    exact now
  | _ => exact now

theorem WorkerStep.accounted (step : WorkerStep s t) (accounted : s.Accounted) : t.Accounted := by
  intro c
  have now := accounted c
  cases step with
  | wait before after workers => simpa [workers, Worker.asked] using now
  | quit before after workers => simpa [workers, Worker.asked] using now
  | take before after d rest workers queue =>
    simp only [workers, queue, List.flatMap_append, List.flatMap_cons, Worker.asked,
      List.count_append, List.count_cons, List.count_nil] at now ⊢
    omega
  | keep before after d workers =>
    simp only [workers, List.flatMap_append, List.flatMap_cons, Worker.asked,
      List.count_append, List.count_cons, List.count_nil] at now ⊢
    omega
  | drop before after d workers =>
    simp only [workers, List.flatMap_append, List.flatMap_cons, Worker.asked,
      List.count_append, List.count_cons, List.count_nil] at now ⊢
    omega
  | giveBack before after d workers => simpa [workers, Worker.asked] using now
  | close before after d workers => simpa [workers, Worker.asked] using now

theorem OtherStep.accounted (step : OtherStep s t) (accounted : s.Accounted) : t.Accounted := by
  intro c
  have now := accounted c
  cases step with
  | shutdown =>
    rw [flatMap_asked_woken]
    exact now
  | wakeUp before after workers => simpa [workers, Worker.asked] using now

end Places

section Phases

/-- What the parts of the server know of each other. -/
structure Consistent (s : State) : Prop where
  one_place : ∀ c, s.copies c = if c < s.accepted then 1 else 0
  accounted : s.Accounted
  woken : s.returned ≠ [] → s.woke = true
  byte : s.woke = true → 0 < s.pipe ∨ ∃ ready, s.phase = .taking ready
  wake : s.phase ≠ .returned → s.wake = true
  all_ended : s.phase = .closing ∨ s.phase = .returned → ∀ w ∈ s.workers, w = .ended
  ready : ∀ ready, s.phase = .polled (some ready) ∨ s.phase = .giving ready ∨
    s.phase = .draining ready → ready.wake = true → 0 < s.pipe
  nobody_waits : s.stopping = true → .waiting ∉ s.workers
  stopped : s.phase = .joining ∨ s.phase = .closing ∨ s.phase = .returned → s.stopping = true
  kept : s.kept ≠ [] → s.phase = .expiring ∨ ∃ ready, s.phase = .giving ready
  done : s.phase = .returned → s.idle = [] ∧ s.returned = []

theorem consistent_start (workers : ℕ) : Consistent (start workers) where
  one_place c := by
    have no_hand : (List.replicate workers Worker.looking).flatMap Worker.hand = [] := by
      simp [Worker.hand]
    simp [start, State.copies, no_hand]
  accounted c := by
    have none_asked : (List.replicate workers Worker.looking).flatMap Worker.asked = [] := by
      simp [Worker.asked]
    simp [start, none_asked]
  woken nonempty := absurd rfl nonempty
  byte woke := by cases woke
  wake _ := rfl
  all_ended phase := by obtain phase | phase := phase <;> cases phase
  ready ready phase := by obtain phase | phase | phase := phase <;> cases phase
  nobody_waits stopping := by cases stopping
  stopped phase := by obtain phase | phase | phase := phase <;> cases phase
  kept nonempty := absurd rfl nonempty
  done phase := by cases phase

theorem PollerStep.consistent (step : PollerStep s t) (now : Consistent s) : Consistent t where
  one_place c := by
    have moved := step.copies c
    have place := now.one_place c
    omega
  accounted := step.accounted now.accounted
  woken := by
    have := now.woken
    cases step <;> simp_all
  byte := by
    have := now.byte
    cases step <;> simp_all
  wake := by
    have := now.wake
    cases step <;> simp_all
  all_ended := by
    have := now.all_ended
    cases step <;> simp_all <;> assumption
  ready := by
    have := now.ready
    cases step <;> simp_all
  nobody_waits := by
    have := now.nobody_waits
    cases step with
    | give ready c rest workers phase idle member signal =>
      exact fun stopping => signal.waiting (this stopping)
    | finish phase => exact fun _ => waiting_notMem_woken s.workers
    | _ => exact this
  stopped := by
    have := now.stopped
    cases step <;> simp_all
  kept := by
    have := now.kept
    cases step <;> simp_all
  done := by
    have := now.done
    cases step <;> simp_all

/-- A worker that has ended takes no step, so workers step only before the poller goes on. -/
theorem WorkerStep.not_over (step : WorkerStep s t) (now : Consistent s) :
    s.phase ≠ .closing ∧ s.phase ≠ .returned := by
  rw [← not_or]
  intro all_ended
  have ended := now.all_ended all_ended
  cases step with
  | wait before after workers => cases ended .looking (by simp [workers])
  | quit before after workers => cases ended .looking (by simp [workers])
  | take before after c rest workers => cases ended .looking (by simp [workers])
  | keep before after c workers => cases ended (.answering c) (by simp [workers])
  | drop before after c workers => cases ended (.answering c) (by simp [workers])
  | giveBack before after c workers => cases ended (.keeping c) (by simp [workers])
  | close before after c workers => cases ended (.closing c) (by simp [workers])

/-- A step of a worker leaves the poller where it is. -/
theorem WorkerStep.frame (step : WorkerStep s t) :
    t.phase = s.phase ∧ t.idle = s.idle ∧ t.kept = s.kept ∧ t.stopping = s.stopping ∧
      t.wake = s.wake ∧ t.queued = s.queued ∧ s.pipe ≤ t.pipe := by
  cases step with
  | giveBack before after c workers =>
    refine ⟨rfl, rfl, rfl, rfl, rfl, rfl, ?_⟩
    dsimp only
    split
    · exact Nat.le_succ _
    · exact Nat.le_refl _
  | _ => exact ⟨rfl, rfl, rfl, rfl, rfl, rfl, Nat.le_refl _⟩

theorem WorkerStep.consistent (step : WorkerStep s t) (now : Consistent s) : Consistent t := by
  obtain ⟨phase, idle, kept, stopping, wake, -, pipe⟩ := step.frame
  obtain ⟨not_closing, not_returned⟩ := step.not_over now
  refine ⟨?_, step.accounted now.accounted, ?_, ?_, ?_, ?_, ?_, ?_, ?_, ?_, ?_⟩
  · intro c
    obtain ⟨moved, accepted⟩ := step.copies c
    rw [moved, accepted]
    exact now.one_place c
  · have woken := now.woken
    have open_ := now.wake not_returned
    cases step <;> simp_all
  · rw [phase]
    have byte := now.byte
    have open_ := now.wake not_returned
    cases step with
    | giveBack before after c workers =>
      intro _
      cases woke : s.woke with
      | true => simpa [woke] using byte woke
      | false => simp [open_]
    | _ => exact byte
  · rw [phase, wake]
    exact now.wake
  · rw [phase]
    rintro (closing | returned)
    · exact absurd closing not_closing
    · exact absurd returned not_returned
  · rw [phase]
    exact fun ready at_ woken => Nat.lt_of_lt_of_le (now.ready ready at_ woken) pipe
  · rw [stopping]
    intro stops
    have nobody := now.nobody_waits stops
    cases step <;> simp_all
  · rw [phase, stopping]
    exact now.stopped
  · rw [phase, kept]
    exact now.kept
  · rw [phase]
    exact fun returned => absurd returned not_returned

theorem OtherStep.consistent (step : OtherStep s t) (now : Consistent s) : Consistent t := by
  refine ⟨?_, step.accounted now.accounted, ?_, ?_, ?_, ?_, ?_, ?_, ?_, ?_, ?_⟩
  · intro c
    obtain ⟨moved, accepted⟩ := step.copies c
    rw [moved, accepted]
    exact now.one_place c
  · have := now.woken
    cases step <;> exact this
  · have byte := now.byte
    cases step with
    | shutdown =>
      intro woke
      obtain some_bytes | taking := byte woke
      · left
        dsimp only
        split <;> omega
      · exact .inr taking
    | wakeUp before after workers => exact byte
  · have := now.wake
    cases step <;> exact this
  · have all_ended := now.all_ended
    cases step with
    | shutdown =>
      intro phase w member
      obtain ⟨w, among, rfl⟩ := List.mem_map.mp member
      rw [all_ended phase w among]
      rfl
    | wakeUp before after workers =>
      intro phase
      cases all_ended phase .waiting (by simp [workers])
  · have ready := now.ready
    cases step with
    | shutdown =>
      intro given phase woken
      have := ready given phase woken
      dsimp only
      split <;> omega
    | wakeUp before after workers => exact ready
  · have nobody := now.nobody_waits
    cases step with
    | shutdown => exact fun _ => waiting_notMem_woken s.workers
    | wakeUp before after workers =>
      intro stopping
      exact absurd (by simp [workers]) (nobody stopping)
  · have := now.stopped
    cases step with
    | shutdown => exact fun _ => rfl
    | wakeUp before after workers => exact this
  · have := now.kept
    cases step <;> exact this
  · have := now.done
    cases step <;> exact this

theorem Step.consistent (step : Step s t) (now : Consistent s) : Consistent t := by
  obtain (poller | worker) | other := step
  · exact poller.consistent now
  · exact worker.consistent now
  · exact other.consistent now

end Phases

section Ends

/-- The steps that a poller that is asked to stop still takes itself. -/
def Phase.weight : Phase → ℕ
  | .polling => 13
  | .polled _ => 12
  | .giving _ => 11
  | .draining _ => 10
  | .taking _ => 9
  | .accepting _ => 8
  | .expiring => 5
  | .checking => 4
  | .ending => 3
  | .joining => 2
  | .closing => 1
  | .returned => 0

/-- What is still to be done with a connection of the poller. -/
def Phase.idleWeight : Phase → ℕ
  | .polling => 6
  | .polled _ => 6
  | .giving _ => 6
  | .draining _ => 2
  | .taking _ => 2
  | .accepting _ => 2
  | .expiring => 2
  | _ => 1

def Phase.keptWeight : Phase → ℕ
  | .expiring => 1
  | _ => 2

def Worker.weight : Worker → ℕ
  | .ended => 0
  | .looking => 1
  | .waiting => 2
  | .answering _ => 5
  | .keeping _ => 4
  | .closing _ => 2

/-- A bound on the steps of the threads after a shutdown. -/
def State.work (s : State) : ℕ :=
  s.phase.weight + s.phase.idleWeight * s.idle.length + s.phase.keptWeight * s.kept.length +
    5 * s.queue.length + 2 * s.returned.length + (s.workers.map Worker.weight).sum

theorem sum_weight_woken (workers : List Worker) :
    ((workers.map Worker.woken).map Worker.weight).sum ≤ (workers.map Worker.weight).sum := by
  induction workers with
  | nil => exact Nat.le_refl _
  | cons w workers ih =>
    have less : w.woken.weight ≤ w.weight := by
      cases w with
      | waiting => exact Nat.le_succ 1
      | _ => exact Nat.le_refl _
    simp only [List.map_cons, List.sum_cons]
    omega

theorem Signal.weight {workers woken : List Worker} (signal : Signal workers woken) :
    (woken.map Worker.weight).sum ≤ (workers.map Worker.weight).sum := by
  cases signal with
  | one before after =>
    simp only [List.map_append, List.map_cons, List.sum_append, List.sum_cons, Worker.weight]
    omega
  | nobody => exact Nat.le_refl _

theorem PollerStep.work_lt (step : PollerStep s t) (now : Consistent s)
    (stopping : s.stopping = true) : t.work < s.work ∧ t.stopping = true := by
  have kept := now.kept
  cases step with
  | goes phase running => simp [stopping] at running
  | somethingCame ready phase running => simp [stopping] at running
  | nothingCame ready phase running => simp [stopping] at running
  | give ready c rest workers phase idle member signal =>
    have less := signal.weight
    refine ⟨?_, stopping⟩
    simp only [State.work, phase, idle, Phase.weight, Phase.idleWeight, Phase.keptWeight,
      List.length_append, List.length_cons, List.length_nil]
    omega
  | finish phase =>
    have less := sum_weight_woken s.workers
    refine ⟨?_, rfl⟩
    simp only [State.work, phase, Phase.weight, Phase.idleWeight, Phase.keptWeight]
    omega
  | _ =>
    refine ⟨?_, stopping⟩
    simp_all only [State.work, Phase.weight, Phase.idleWeight, Phase.keptWeight,
      List.length_append, List.length_cons, List.length_nil]
    omega

theorem WorkerStep.work_lt (step : WorkerStep s t) (stopping : s.stopping = true) :
    t.work < s.work ∧ t.stopping = true := by
  cases step with
  | wait before after workers queue running => simp [stopping] at running
  | _ =>
    refine ⟨?_, stopping⟩
    simp_all only [State.work, Worker.weight, List.map_append, List.map_cons, List.sum_append,
      List.sum_cons, List.length_append, List.length_cons, List.length_nil]
    omega

theorem OtherStep.work_le (step : OtherStep s t) (stopping : s.stopping = true) :
    t.work ≤ s.work ∧ t.stopping = true := by
  cases step with
  | shutdown =>
    have less := sum_weight_woken s.workers
    refine ⟨?_, rfl⟩
    simp only [State.work]
    omega
  | wakeUp before after workers =>
    refine ⟨?_, stopping⟩
    simp only [State.work, workers, Worker.weight, List.map_append, List.map_cons, List.sum_append,
      List.sum_cons]
    omega

/-- After a shutdown, the threads take at most so many steps. -/
theorem steps_le_work (now : Consistent s) (stopping : s.stopping = true) {n : ℕ}
    (run : CountedRun ThreadStep OtherStep n s t) : n ≤ s.work := by
  let invariant := fun s : State => Consistent s ∧ s.stopping = true
  have holds : invariant s := ⟨now, stopping⟩
  have bound := @CountedRun.length_le _ ThreadStep OtherStep invariant State.work n s t holds
    (by
      rintro b c ⟨now, stopping⟩ (poller | worker)
      · obtain ⟨less, still⟩ := poller.work_lt now stopping
        exact ⟨⟨poller.consistent now, still⟩, less⟩
      · obtain ⟨less, still⟩ := worker.work_lt stopping
        exact ⟨⟨worker.consistent now, still⟩, less⟩)
    (by
      rintro b c ⟨now, stopping⟩ other
      obtain ⟨less, still⟩ := other.work_le stopping
      exact ⟨⟨other.consistent now, still⟩, less⟩)
    run
  omega

/-- A worker that hasn't ended has a step to take when the server stops. -/
theorem worker_goes_on (now : Consistent s) (stopping : s.stopping = true) {w : Worker}
    (member : w ∈ s.workers) (alive : w ≠ .ended) : ∃ t, WorkerStep s t := by
  obtain ⟨before, after, workers⟩ := List.append_of_mem member
  cases w with
  | looking =>
    cases queue : s.queue with
    | nil => exact ⟨_, .quit s before after workers queue stopping⟩
    | cons c rest => exact ⟨_, .take s before after c rest workers queue⟩
  | waiting => exact absurd member (now.nobody_waits stopping)
  | answering c => exact ⟨_, .keep s before after c workers⟩
  | keeping c => exact ⟨_, .giveBack s before after c workers⟩
  | closing c => exact ⟨_, .close s before after c workers⟩
  | ended => exact absurd rfl alive

theorem exists_signal (workers : List Worker) : ∃ woken, Signal workers woken := by
  by_cases waits : .waiting ∈ workers
  · obtain ⟨before, after, rfl⟩ := List.append_of_mem waits
    exact ⟨_, .one before after⟩
  · exact ⟨_, .nobody workers waits⟩

/-- Until it has returned, a server that stops has a step to take. -/
theorem goes_on (now : Consistent s) (stopping : s.stopping = true)
    (running : s.phase ≠ .returned) : ∃ t, ThreadStep s t := by
  cases phase : s.phase with
  | checking => exact ⟨_, .inl (.stops s phase stopping)⟩
  | polling => exact ⟨_, .inl (.pollFails s phase)⟩
  | polled ready =>
    cases ready with
    | none => exact ⟨_, .inl (.breaks s phase)⟩
    | some ready => exact ⟨_, .inl (.breaksOff s ready phase stopping)⟩
  | giving ready =>
    cases idle : s.idle with
    | nil => exact ⟨_, .inl (.given s ready phase idle)⟩
    | cons c rest =>
      by_cases came : c ∈ ready.connections
      · obtain ⟨woken, signal⟩ := exists_signal s.workers
        exact ⟨_, .inl (.give s ready c rest woken phase idle came signal)⟩
      · exact ⟨_, .inl (.keep s ready c rest phase idle came)⟩
  | draining ready =>
    cases woken : ready.wake with
    | false => exact ⟨_, .inl (.notWoken s ready phase woken)⟩
    | true =>
      have bytes := now.ready ready (.inr (.inr phase)) woken
      exact ⟨_, .inl (.drain s ready 1 phase woken Nat.one_pos (by decide) bytes)⟩
  | taking ready => exact ⟨_, .inl (.take s ready phase)⟩
  | accepting ready => exact ⟨_, .inl (.acceptNone s ready phase)⟩
  | expiring =>
    cases idle : s.idle with
    | nil => exact ⟨_, .inl (.expired s phase idle)⟩
    | cons c rest => exact ⟨_, .inl (.stay s c rest phase idle)⟩
  | ending => exact ⟨_, .inl (.finish s phase)⟩
  | joining =>
    by_cases all_ended : ∀ w ∈ s.workers, w = .ended
    · exact ⟨_, .inl (.join s phase all_ended)⟩
    · push Not at all_ended
      obtain ⟨w, member, alive⟩ := all_ended
      obtain ⟨t, step⟩ := worker_goes_on now stopping member alive
      exact ⟨t, .inr step⟩
  | closing =>
    cases idle : s.idle with
    | cons c rest => exact ⟨_, .inl (.closeIdle s c rest phase idle)⟩
    | nil =>
      cases returned : s.returned with
      | cons c rest => exact ⟨_, .inl (.closeReturned s c rest phase idle returned)⟩
      | nil => exact ⟨_, .inl (.returns s phase idle returned)⟩
  | returned => exact absurd phase running

end Ends

section Served

/-- When the poller is about to give a connection to the workers, one of them hasn't ended. -/
def Staffed (s : State) : Prop :=
  ∀ ready c rest, s.phase = .giving ready → s.idle = c :: rest → c ∈ ready.connections →
    ∃ w ∈ s.workers, w ≠ .ended

/-- The last worker leaves an empty queue behind. -/
def Served (s : State) : Prop := (∀ w ∈ s.workers, w = .ended) → s.queue = []

theorem PollerStep.served (step : PollerStep s t) (staffed : Staffed s) (served : Served s) :
    Served t := by
  cases step with
  | give ready c rest workers phase idle member signal =>
    intro ended
    obtain ⟨w, among, alive⟩ := staffed ready c rest phase idle member
    exact absurd (signal.ended ended w among) alive
  | finish phase =>
    intro ended
    apply served
    exact fun w member => ended_of_woken (ended w.woken (List.mem_map_of_mem member))
  | _ => exact served

theorem WorkerStep.served (step : WorkerStep s t) : Served t := by
  cases step with
  | wait before after workers queue running => exact fun _ => queue
  | quit before after workers queue stopping => exact fun _ => queue
  | take before after c rest workers queue =>
    intro ended
    cases ended (.answering c) (by simp)
  | keep before after c workers =>
    intro ended
    cases ended (.keeping c) (by simp)
  | drop before after c workers =>
    intro ended
    cases ended (.closing c) (by simp)
  | giveBack before after c workers =>
    intro ended
    cases ended .looking (by simp)
  | close before after c workers =>
    intro ended
    cases ended .looking (by simp)

theorem OtherStep.served (step : OtherStep s t) (served : Served s) : Served t := by
  cases step with
  | shutdown =>
    intro ended
    apply served
    exact fun w member => ended_of_woken (ended w.woken (List.mem_map_of_mem member))
  | wakeUp before after workers =>
    intro ended
    cases ended .looking (by simp)

/-- What the server owes in every state. -/
structure Serves (s : State) : Prop where
  /-- Every accepted connection is in one place, which may be that it was closed once. -/
  one_place : ∀ c, s.copies c = if c < s.accepted then 1 else 0
  /-- The poller is woken for a returned connection. -/
  woken : s.returned ≠ [] → 0 < s.pipe ∨ ∃ ready, s.phase = .taking ready
  /-- After a shutdown, `serve` returns. -/
  ends : s.stopping = true → (∀ n t, CountedRun ThreadStep OtherStep n s t → n ≤ s.work) ∧
    (s.phase ≠ .returned → ∃ t, ThreadStep s t)
  /-- Then every connection was closed once, and what was in the queue was answered. -/
  closed : s.phase = .returned → ∀ c,
    s.closed.count c = (if c < s.accepted then 1 else 0) ∧ s.answered.count c = s.queued.count c

theorem serves_of_consistent (now : Consistent s) (served : Served s) : Serves s where
  one_place := now.one_place
  woken nonempty := now.byte (now.woken nonempty)
  ends stopping := ⟨fun _ _ => steps_le_work now stopping, goes_on now stopping⟩
  closed phase c := by
    have ended := now.all_ended (.inr phase)
    have queue := served ended
    obtain ⟨idle, returned⟩ := now.done phase
    have kept : s.kept = [] := by
      by_contra nonempty
      obtain other | ⟨ready, other⟩ := now.kept nonempty
      · cases phase.symm.trans other
      · cases phase.symm.trans other
    have no_hand : s.workers.flatMap Worker.hand = [] := by
      rw [List.flatMap_eq_nil_iff]
      intro w member
      rw [ended w member]
      rfl
    have none_asked : s.workers.flatMap Worker.asked = [] := by
      rw [List.flatMap_eq_nil_iff]
      intro w member
      rw [ended w member]
      rfl
    have place := now.one_place c
    have account := now.accounted c
    rw [State.copies, idle, kept, queue, no_hand, returned] at place
    rw [queue, none_asked] at account
    simp only [List.count_nil] at place account
    exact ⟨by omega, by omega⟩

/-- In every order of the steps, as long as no connection is given to workers that have all ended. -/
theorem serves_of_run {workers : ℕ}
    (run : ReflTransGen (fun s t => Step s t ∧ Staffed s) (start workers) s) : Serves s := by
  have both : Consistent s ∧ Served s := by
    induction run with
    | refl => exact ⟨consistent_start workers, fun _ => rfl⟩
    | tail _ last ih =>
      obtain ⟨now, served⟩ := ih
      obtain ⟨step, staffed⟩ := last
      refine ⟨step.consistent now, ?_⟩
      obtain (poller | worker) | other := step
      · exact poller.served staffed served
      · exact worker.served
      · exact other.served served
  exact serves_of_consistent both.1 both.2

theorem staffed_of_not_giving (other : ∀ ready, s.phase ≠ .giving ready) : Staffed s :=
  fun ready _ _ phase => absurd phase (other ready)

/-- A connection has come, and now a request on it. -/
def askedServer : State where
  phase := .giving { connections := [0] }
  idle := [0]
  workers := [.looking]
  accepted := 1

/-- The poller accepts a connection and sees a request on it. -/
theorem run_askedServer :
    ReflTransGen (fun s t => Step s t ∧ Staffed s) (start 1) askedServer := by
  have run : ReflTransGen (fun s t => Step s t ∧ Staffed s) (start 1) (start 1) := .refl
  replace run := run.tail ⟨.inl (.inl (.goes _ rfl rfl)), staffed_of_not_giving nofun⟩
  replace run := run.tail ⟨.inl (.inl (.poll _ { listener := true } rfl nofun nofun)),
    staffed_of_not_giving nofun⟩
  replace run := run.tail ⟨.inl (.inl (.somethingCame _ _ rfl rfl rfl)), staffed_of_not_giving nofun⟩
  replace run := run.tail ⟨.inl (.inl (.given _ _ rfl rfl)), nofun⟩
  replace run := run.tail ⟨.inl (.inl (.notWoken _ _ rfl rfl)), staffed_of_not_giving nofun⟩
  replace run := run.tail ⟨.inl (.inl (.accept _ _ rfl rfl)), staffed_of_not_giving nofun⟩
  replace run := run.tail ⟨.inl (.inl (.stay _ 0 [] rfl rfl)), staffed_of_not_giving nofun⟩
  replace run := run.tail ⟨.inl (.inl (.expired _ rfl rfl)), staffed_of_not_giving nofun⟩
  replace run := run.tail ⟨.inl (.inl (.goes _ rfl rfl)), staffed_of_not_giving nofun⟩
  replace run := run.tail ⟨.inl (.inl (.poll _ { connections := [0] } rfl nofun
    fun _ member => member)), staffed_of_not_giving nofun⟩
  exact run.tail ⟨.inl (.inl (.somethingCame _ _ rfl rfl rfl)), staffed_of_not_giving nofun⟩

theorem serves_askedServer : Serves askedServer := serves_of_run run_askedServer

/-- The server has returned, and the connection is still in the queue. -/
def leftServer : State where
  phase := .returned
  queue := [0]
  workers := [.ended]
  accepted := 1
  stopping := true
  wake := false
  pipe := 1
  queued := [0]

/-- A shutdown after the poll, and the worker ends before the connection is given to it. -/
theorem run_leftServer : ReflTransGen Step askedServer leftServer := by
  have run : ReflTransGen Step askedServer askedServer := .refl
  replace run := run.tail (.inr (.shutdown _))
  replace run := run.tail (.inl (.inr (.quit _ [] [] rfl rfl rfl)))
  replace run := run.tail (.inl (.inl (.give _ _ 0 [] [.ended] rfl rfl (List.mem_singleton_self 0)
    (.nobody [.ended] nofun))))
  replace run := run.tail (.inl (.inl (.given _ _ rfl rfl)))
  replace run := run.tail (.inl (.inl (.notWoken _ _ rfl rfl)))
  replace run := run.tail (.inl (.inl (.acceptNone _ _ rfl)))
  replace run := run.tail (.inl (.inl (.expired _ rfl rfl)))
  replace run := run.tail (.inl (.inl (.stops _ rfl rfl)))
  replace run := run.tail (.inl (.inl (.finish _ rfl)))
  replace run := run.tail (.inl (.inl (.join _ rfl fun w member => List.mem_singleton.mp member)))
  exact run.tail (.inl (.inl (.returns _ rfl rfl rfl)))

theorem reachable_not_serves : ∃ s, ReflTransGen Step (start 1) s ∧ ¬Serves s := by
  refine ⟨leftServer, ?_, ?_⟩
  · exact (run_askedServer.lift id fun _ _ step => step.1).trans run_leftServer
  · intro serves
    obtain ⟨once, -⟩ := serves.closed rfl 0
    revert once
    decide

end Served

end Saad.Serving
