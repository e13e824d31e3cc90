import LigDataParsing.Machine
import LigDataParsing.Positions

/-! The pool of posting threads: workers that share a queue under `queue_mutex` and sleep
on `condition`. A step is one critical section, one call on the condition variable, the
end of a task or one `join`; the order of the steps is open. -/
namespace LigDataParsing

inductive Worker (τ : Type*) where
  /-- About to lock `queue_mutex` and read `stop` and `tasks`. -/
  | ready
  /-- Asleep on `condition`. -/
  | waiting
  | running (task : τ)
  /-- Returned from its loop. -/
  | exited

namespace Worker

variable {τ : Type*}

def isReady : Worker τ → Bool
  | .ready => true
  | _ => false

def isWaiting : Worker τ → Bool
  | .waiting => true
  | _ => false

def task? : Worker τ → Option τ
  | .running task => some task
  | _ => none

def woken : Worker τ → Worker τ
  | .waiting => .ready
  | worker => worker

/-- How many steps a worker has left at most once the pool has stopped, besides those for queued tasks. -/
def weight : Worker τ → ℕ
  | .ready => 1
  | .waiting | .running _ => 2
  | .exited => 0

/-- How many steps a worker has left at most until it sleeps, besides those for queued tasks. -/
def turns : Worker τ → ℕ
  | .waiting => 1
  | .ready => 2
  | .running _ => 3
  | .exited => 0

end Worker

inductive Owner where
  | inUse
  /-- `stop` is set, `notify_all` is still to come. -/
  | stopping
  /-- The first `joined` workers have been joined. -/
  | joining (joined : ℕ)
  deriving DecidableEq

def Owner.stage (threads : ℕ) : Owner → ℕ
  | .inUse => threads + 2
  | .stopping => threads + 1
  | .joining joined => threads - joined

def Owner.phase (threads : ℕ) : Owner → ℕ
  | .inUse => 2 * threads + 2
  | .stopping => 2 * threads + 1
  | .joining joined => threads - joined

structure ThreadPool (τ : Type*) where
  workers : List (Worker τ)
  tasks : List τ
  stop : Bool
  /-- Calls of `enqueue` that have pushed their task and not called `notify_one` yet. -/
  notifying : ℕ
  owner : Owner

inductive PoolAction (τ : Type*) where
  | enqueue (task : τ)
  /-- Wakes one of the sleeping workers, if any sleeps. -/
  | notifyOne (woken : Option ℕ)
  /-- Locks the mutex and runs the critical section of the worker's loop. -/
  | lock (i : ℕ)
  | finish (i : ℕ)
  | wakeUp (i : ℕ)
  | destroy
  | notifyAll
  | join

inductive PoolEvent (τ : Type*) where
  | enqueued (task : τ)
  /-- `enqueue on stopped ThreadPool` -/
  | rejected (task : τ)
  | started (i : ℕ) (task : τ)
  | finished (i : ℕ) (task : τ)
  /-- A wake-up without a notification. -/
  | spurious
  | silent

namespace ThreadPool

variable {τ : Type*}

def start (threads : ℕ) : ThreadPool τ := ⟨List.replicate threads .ready, [], false, 0, .inUse⟩

def enqueue (s : ThreadPool τ) (task : τ) : PoolEvent τ × ThreadPool τ :=
  if s.stop then (.rejected task, s)
  else (.enqueued task, { s with tasks := s.tasks ++ [task], notifying := s.notifying + 1 })

/-- The critical section of worker `i`: it sleeps while `stop || !tasks.empty()` is false,
returns if `stop && tasks.empty()`, and takes the front task otherwise. -/
def turn (s : ThreadPool τ) (i : ℕ) : PoolEvent τ × ThreadPool τ :=
  match s.tasks, s.stop with
  | [], false => (.silent, { s with workers := s.workers.set i .waiting })
  | [], true => (.silent, { s with workers := s.workers.set i .exited })
  | task :: rest, _ => (.started i task, { s with workers := s.workers.set i (.running task), tasks := rest })

def notifyOne (s : ThreadPool τ) (woken : Option ℕ) : Option (ThreadPool τ) :=
  if s.notifying = 0 then none
  else match woken with
    | none =>
      if s.workers.any Worker.isWaiting then none else some { s with notifying := s.notifying - 1 }
    | some i => match s.workers[i]? with
      | some .waiting => some { s with workers := s.workers.set i .ready, notifying := s.notifying - 1 }
      | _ => none

def step (s : ThreadPool τ) : PoolAction τ → Option (PoolEvent τ × ThreadPool τ)
  | .enqueue task => some (s.enqueue task)
  | .notifyOne woken => (s.notifyOne woken).map (Prod.mk .silent)
  | .lock i => match s.workers[i]? with
    | some .ready => some (s.turn i)
    | _ => none
  | .finish i => match s.workers[i]? with
    | some (.running task) => some (.finished i task, { s with workers := s.workers.set i .ready })
    | _ => none
  | .wakeUp i => match s.workers[i]? with
    | some .waiting => some (.spurious, { s with workers := s.workers.set i .ready })
    | _ => none
  | .destroy => if s.owner = .inUse then some (.silent, { s with stop := true, owner := .stopping }) else none
  | .notifyAll =>
    if s.owner = .stopping then
      some (.silent, { s with workers := s.workers.map Worker.woken, owner := .joining 0 })
    else none
  | .join => match s.owner with
    | .joining joined => match s.workers[joined]? with
      | some .exited => some (.silent, { s with owner := .joining (joined + 1) })
      | _ => none
    | _ => none

def Destroyed (s : ThreadPool τ) : Prop := s.owner = .joining s.workers.length

instance (s : ThreadPool τ) : Decidable s.Destroyed := inferInstanceAs (Decidable (_ = _))

def runningTasks (s : ThreadPool τ) : List τ := s.workers.filterMap Worker.task?

end ThreadPool

def PoolEvent.enqueued? {τ : Type*} : PoolEvent τ → Option τ
  | .enqueued task => some task
  | _ => none

def PoolEvent.started? {τ : Type*} : PoolEvent τ → Option τ
  | .started _ task => some task
  | _ => none

def PoolEvent.finished? {τ : Type*} : PoolEvent τ → Option τ
  | .finished _ task => some task
  | _ => none

def PoolEvent.isRejected {τ : Type*} : PoolEvent τ → Bool
  | .rejected _ => true
  | _ => false

def PoolEvent.isSpurious {τ : Type*} : PoolEvent τ → Bool
  | .spurious => true
  | _ => false

def PoolEvent.allowance {τ : Type*} : PoolEvent τ → ℕ
  | .enqueued _ => 5
  | .rejected _ => 1
  | .spurious => 2
  | _ => 0

section Tasks

variable {τ : Type*} (events : List (PoolEvent τ))

def enqueuedTasks : List τ := events.filterMap PoolEvent.enqueued?

def startedTasks : List τ := events.filterMap PoolEvent.started?

def finishedTasks : List τ := events.filterMap PoolEvent.finished?

end Tasks

abbrev PoolRuns {τ : Type*} (threads : ℕ) (events : List (PoolEvent τ)) (s : ThreadPool τ) : Prop :=
  Machine.Reaches ThreadPool.step (ThreadPool.start threads) events s

/-- Steps that neither a caller nor chance has to bring. -/
def PoolAction.own {τ : Type*} : PoolAction τ → Bool
  | .notifyOne _ | .lock _ | .finish _ | .notifyAll | .join => true
  | .enqueue _ | .wakeUp _ | .destroy => false

namespace ThreadPool

section Inversion

variable {τ : Type*} {s next : ThreadPool τ} {event : PoolEvent τ} {a : PoolAction τ}

inductive Steps (s : ThreadPool τ) : PoolAction τ → PoolEvent τ → ThreadPool τ → Prop where
  | enqueue (task : τ) (going : s.stop = false) :
      Steps s (.enqueue task) (.enqueued task) { s with tasks := s.tasks ++ [task], notifying := s.notifying + 1 }
  | reject (task : τ) (stopped : s.stop = true) : Steps s (.enqueue task) (.rejected task) s
  | notifyNobody (due : 0 < s.notifying) (awake : Worker.waiting ∉ s.workers) :
      Steps s (.notifyOne none) .silent { s with notifying := s.notifying - 1 }
  | notify (i : ℕ) (due : 0 < s.notifying) (asleep : s.workers[i]? = some .waiting) :
      Steps s (.notifyOne (some i)) .silent { s with workers := s.workers.set i .ready, notifying := s.notifying - 1 }
  | sleep (i : ℕ) (held : s.workers[i]? = some .ready) (empty : s.tasks = []) (going : s.stop = false) :
      Steps s (.lock i) .silent { s with workers := s.workers.set i .waiting }
  | exit (i : ℕ) (held : s.workers[i]? = some .ready) (empty : s.tasks = []) (stopped : s.stop = true) :
      Steps s (.lock i) .silent { s with workers := s.workers.set i .exited }
  | take (i : ℕ) (held : s.workers[i]? = some .ready) (task : τ) (rest : List τ) (front : s.tasks = task :: rest) :
      Steps s (.lock i) (.started i task) { s with workers := s.workers.set i (.running task), tasks := rest }
  | finish (i : ℕ) (task : τ) (held : s.workers[i]? = some (.running task)) :
      Steps s (.finish i) (.finished i task) { s with workers := s.workers.set i .ready }
  | wakeUp (i : ℕ) (asleep : s.workers[i]? = some .waiting) :
      Steps s (.wakeUp i) .spurious { s with workers := s.workers.set i .ready }
  | destroy (inUse : s.owner = .inUse) : Steps s .destroy .silent { s with stop := true, owner := .stopping }
  | notifyAll (stopping : s.owner = .stopping) :
      Steps s .notifyAll .silent { s with workers := s.workers.map Worker.woken, owner := .joining 0 }
  | join (joined : ℕ) (joining : s.owner = .joining joined) (held : s.workers[joined]? = some .exited) :
      Steps s .join .silent { s with owner := .joining (joined + 1) }

theorem any_isWaiting (workers : List (Worker τ)) : workers.any Worker.isWaiting = true ↔ Worker.waiting ∈ workers := by
  rw [List.any_eq_true]
  constructor
  · rintro ⟨worker, member, asleep⟩
    cases worker <;> first | exact member | simp [Worker.isWaiting] at asleep
  · exact fun member => ⟨_, member, rfl⟩

theorem step_cases (stepped : s.step a = some (event, next)) : Steps s a event next := by
  cases a with
  | enqueue task =>
    simp only [step, enqueue, Option.some.injEq] at stepped
    split_ifs at stepped with stop
    · cases stepped
      exact .reject task stop
    · cases stepped
      exact .enqueue task (Bool.eq_false_iff.mpr stop)
  | notifyOne woken =>
    obtain ⟨t, notified, done⟩ := Option.map_eq_some_iff.mp stepped
    cases done
    by_cases idle : s.notifying = 0
    · simp [notifyOne, idle] at notified
    have due := Nat.pos_of_ne_zero idle
    simp only [notifyOne, idle, if_false] at notified
    cases woken with
    | none =>
      dsimp only at notified
      split_ifs at notified with asleep
      cases notified
      exact .notifyNobody due (fun member => asleep ((any_isWaiting _).mpr member))
    | some i =>
      dsimp only at notified
      split at notified
      · rename_i asleep
        cases notified
        exact .notify i due asleep
      · contradiction
  | lock i =>
    simp only [step] at stepped
    split at stepped
    · rename_i held
      simp only [turn, Option.some.injEq] at stepped
      split at stepped
      · rename_i empty going
        cases stepped
        exact .sleep i held empty going
      · rename_i empty stopped
        cases stepped
        exact .exit i held empty stopped
      · rename_i _ task rest front
        cases stepped
        exact .take i held task rest front
    · contradiction
  | finish i =>
    simp only [step] at stepped
    split at stepped
    · rename_i task held
      cases stepped
      exact .finish i task held
    · contradiction
  | wakeUp i =>
    simp only [step] at stepped
    split at stepped
    · rename_i asleep
      cases stepped
      exact .wakeUp i asleep
    · contradiction
  | destroy =>
    simp only [step] at stepped
    split_ifs at stepped with inUse
    cases stepped
    exact .destroy inUse
  | notifyAll =>
    simp only [step] at stepped
    split_ifs at stepped with stopping
    cases stepped
    exact .notifyAll stopping
  | join =>
    simp only [step] at stepped
    split at stepped
    · rename_i joined joining
      split at stepped
      · rename_i held
        cases stepped
        exact .join joined joining held
      · contradiction
    · contradiction

end Inversion

section Accounting

variable {τ : Type*} {threads : ℕ} {events : List (PoolEvent τ)} {s next : ThreadPool τ} {event : PoolEvent τ}
  {a : PoolAction τ} {i : ℕ} {old new : Worker τ}

theorem enqueuedTasks_snoc (events : List (PoolEvent τ)) (event : PoolEvent τ) :
    enqueuedTasks (events ++ [event]) = enqueuedTasks events ++ event.enqueued?.toList :=
  Machine.filterMap_snoc _ events event

theorem startedTasks_snoc (events : List (PoolEvent τ)) (event : PoolEvent τ) :
    startedTasks (events ++ [event]) = startedTasks events ++ event.started?.toList :=
  Machine.filterMap_snoc _ events event

theorem finishedTasks_snoc (events : List (PoolEvent τ)) (event : PoolEvent τ) :
    finishedTasks (events ++ [event]) = finishedTasks events ++ event.finished?.toList :=
  Machine.filterMap_snoc _ events event

/-- Where every task is: tasks start in the order of the queue, and one that has started is
finished or on a worker. -/
structure Accounted (events : List (PoolEvent τ)) (s : ThreadPool τ) : Prop where
  order : enqueuedTasks events = startedTasks events ++ s.tasks
  once : (startedTasks events).Perm (finishedTasks events ++ s.runningTasks)

theorem Accounted.turn (accounted : Accounted events s) (held : s.workers[i]? = some old)
    (idle : old.task? = none) (idles : new.task? = none) (notifying : ℕ)
    (quiet : event = .silent ∨ event = .spurious) :
    Accounted (events ++ [event]) { s with workers := s.workers.set i new, notifying := notifying } := by
  have kept := Slots.filterMap_set_perm Worker.task? held new
  simp only [idle, idles, Option.toList_none, List.nil_append] at kept
  have ⟨enqueues, starts, ends⟩ : event.enqueued? = none ∧ event.started? = none ∧ event.finished? = none := by
    rcases quiet with rfl | rfl <;> exact ⟨rfl, rfl, rfl⟩
  refine ⟨?_, ?_⟩
  · rw [enqueuedTasks_snoc, startedTasks_snoc, enqueues, starts]
    simpa using accounted.order
  · rw [startedTasks_snoc, finishedTasks_snoc, starts, ends]
    simp only [Option.toList_none, List.append_nil]
    exact accounted.once.trans (kept.symm.append_left _)

theorem steps_accounted (accounted : Accounted events s) (steps : Steps s a event next) :
    Accounted (events ++ [event]) next := by
  have ⟨order, once⟩ := accounted
  cases steps with
  | enqueue task =>
    refine ⟨?_, ?_⟩
    · rw [enqueuedTasks_snoc, startedTasks_snoc, order]
      simp [PoolEvent.enqueued?, PoolEvent.started?]
    · simpa [startedTasks_snoc, finishedTasks_snoc, PoolEvent.started?, PoolEvent.finished?, runningTasks] using once
  | reject | notifyNobody | destroy | join =>
    refine ⟨?_, ?_⟩
    · simpa [enqueuedTasks_snoc, startedTasks_snoc, PoolEvent.enqueued?, PoolEvent.started?] using order
    · simpa [startedTasks_snoc, finishedTasks_snoc, PoolEvent.started?, PoolEvent.finished?, runningTasks] using once
  | notify i due asleep => exact accounted.turn asleep rfl rfl _ (.inl rfl)
  | sleep i held | exit i held => exact accounted.turn held rfl rfl _ (.inl rfl)
  | wakeUp i asleep => exact accounted.turn asleep rfl rfl _ (.inr rfl)
  | take i held task rest front =>
    have moved := Slots.filterMap_set_perm Worker.task? held (.running task)
    refine ⟨?_, ?_⟩
    · rw [enqueuedTasks_snoc, startedTasks_snoc, order, front]
      simp [PoolEvent.enqueued?, PoolEvent.started?]
    · rw [startedTasks_snoc, finishedTasks_snoc]
      simp only [PoolEvent.started?, PoolEvent.finished?, Option.toList_some, Option.toList_none, List.append_nil]
      have before : (startedTasks events ++ [task]).Perm (finishedTasks events ++ s.runningTasks ++ [task]) :=
        once.append_right [task]
      rw [List.append_assoc] at before
      exact before.trans ((List.perm_append_comm.trans moved.symm).append_left _)
  | finish i task held =>
    have moved := Slots.filterMap_set_perm Worker.task? held .ready
    refine ⟨?_, ?_⟩
    · simpa [enqueuedTasks_snoc, startedTasks_snoc, PoolEvent.enqueued?, PoolEvent.started?] using order
    · rw [startedTasks_snoc, finishedTasks_snoc]
      simp only [PoolEvent.started?, PoolEvent.finished?, Option.toList_some, Option.toList_none, List.append_nil,
        List.append_assoc]
      exact once.trans (moved.symm.append_left _)
  | notifyAll =>
    have same : (s.workers.map Worker.woken).filterMap Worker.task? = s.workers.filterMap Worker.task? := by
      rw [List.filterMap_map]
      congr 1
      funext worker
      cases worker <;> rfl
    refine ⟨?_, ?_⟩
    · simpa [enqueuedTasks_snoc, startedTasks_snoc, PoolEvent.enqueued?, PoolEvent.started?] using order
    · rw [startedTasks_snoc, finishedTasks_snoc]
      simpa [PoolEvent.started?, PoolEvent.finished?, runningTasks, same] using once

theorem runs_accounted (reached : PoolRuns threads events s) : Accounted events s := by
  apply reached.invariant Accounted
  · refine ⟨rfl, ?_⟩
    have idle : (start threads : ThreadPool τ).runningTasks = [] := by
      simp [runningTasks, start, List.filterMap_replicate, Worker.task?]
    simp [idle, startedTasks, finishedTasks]
  · intro _ _ _ _ _ _ accounted stepped
    exact steps_accounted accounted (step_cases stepped)

end Accounting

section Order

variable {τ : Type*} {threads : ℕ} {events : List (PoolEvent τ)} {s next : ThreadPool τ} {event : PoolEvent τ}
  {a : PoolAction τ} {i : ℕ} {old new : Worker τ}

structure Orderly (threads : ℕ) (s : ThreadPool τ) : Prop where
  size : s.workers.length = threads
  stopped : s.stop = true ↔ s.owner ≠ .inUse
  awake : ∀ joined, s.owner = .joining joined → Worker.waiting ∉ s.workers
  gone : Worker.exited ∈ s.workers → s.stop = true ∧ s.tasks = []
  joined : ∀ joined, s.owner = .joining joined → ∀ j < joined, s.workers[j]? = some .exited

theorem start_orderly : Orderly threads (start threads : ThreadPool τ) := by
  refine ⟨by simp [start], by simp [start], by simp [start], ?_, by simp [start]⟩
  intro gone
  simp [start] at gone

theorem Orderly.turn (orderly : Orderly threads s) (held : s.workers[i]? = some old) (alive : old ≠ .exited)
    (sleeps : new = .waiting → s.stop = false) (ends : new = .exited → s.stop = true ∧ s.tasks = [])
    {rest : List τ} (fewer : s.tasks = [] → rest = []) (notifying : ℕ) :
    Orderly threads { s with workers := s.workers.set i new, tasks := rest, notifying := notifying } := by
  obtain ⟨size, stopped, awake, gone, joined⟩ := orderly
  refine ⟨by simpa using size, stopped, ?_, ?_, ?_⟩
  · intro k joining asleep
    rcases List.mem_or_eq_of_mem_set asleep with before | now
    · exact awake k joining before
    · have stop := stopped.mpr (by simp [show s.owner = _ from joining])
      simp [sleeps now.symm] at stop
  · intro exited
    rcases List.mem_or_eq_of_mem_set exited with before | now
    · exact ⟨(gone before).1, fewer (gone before).2⟩
    · exact ⟨(ends now.symm).1, fewer (ends now.symm).2⟩
  · intro k joining j below
    have exited := joined k joining j below
    have other : i ≠ j := by
      rintro rfl
      rw [held] at exited
      exact alive (Option.some.inj exited)
    simpa [List.getElem?_set_ne other] using exited

theorem steps_orderly (orderly : Orderly threads s) (steps : Steps s a event next) : Orderly threads next := by
  have ⟨size, stopped, awake, gone, joined⟩ := orderly
  cases steps with
  | enqueue task going =>
    refine ⟨size, stopped, awake, fun exited => ?_, joined⟩
    have stop := (gone exited).1
    simp [going] at stop
  | reject => exact orderly
  | notifyNobody => exact ⟨size, stopped, awake, gone, joined⟩
  | notify i due asleep => exact orderly.turn asleep (by simp) (by simp) (by simp) id _
  | sleep i held empty going => exact orderly.turn held (by simp) (fun _ => going) (by simp) id _
  | exit i held empty stop => exact orderly.turn held (by simp) (by simp) (fun _ => ⟨stop, empty⟩) id _
  | take i held task rest front =>
    exact orderly.turn held (by simp) (by simp) (by simp) (fun empty => by simp [empty] at front) _
  | finish i task held => exact orderly.turn held (by simp) (by simp) (by simp) id _
  | wakeUp i asleep => exact orderly.turn asleep (by simp) (by simp) (by simp) id _
  | destroy inUse =>
    refine ⟨size, by simp, by simp, fun exited => ⟨rfl, (gone exited).2⟩, by simp⟩
  | notifyAll stopping =>
    have stop : s.stop = true := stopped.mpr (by simp [stopping])
    refine ⟨by simpa using size, by simpa using stop, ?_, ?_, by simp⟩
    · intro _ _ asleep
      obtain ⟨worker, _, woken⟩ := List.mem_map.mp asleep
      cases worker <;> simp [Worker.woken] at woken
    · intro exited
      obtain ⟨worker, member, woken⟩ := List.mem_map.mp exited
      cases worker <;> simp [Worker.woken] at woken
      exact gone member
  | join k joining held =>
    have stop : s.stop = true := stopped.mpr (by simp [joining])
    refine ⟨size, by simpa using stop, fun _ _ => awake k joining, gone, ?_⟩
    intro k' same j below
    obtain rfl : k + 1 = k' := Owner.joining.inj same
    rcases Nat.lt_succ_iff_lt_or_eq.mp below with earlier | rfl
    · exact joined k joining j earlier
    · exact held

theorem runs_orderly (reached : PoolRuns threads events s) : Orderly threads s := by
  apply reached.invariant (fun _ => Orderly threads)
  · exact start_orderly
  · intro _ _ _ _ _ _ orderly stepped
    exact steps_orderly orderly (step_cases stepped)

/-- While a worker sleeps, as many workers are on their way to the queue, or notifications
on their way to the workers, as tasks are queued. -/
def Served (s : ThreadPool τ) : Prop :=
  s.stop = false → Worker.waiting ∈ s.workers → s.tasks.length ≤ s.workers.countP Worker.isReady + s.notifying

theorem Served.turn (served : Served s) (asleep : new ≠ .waiting)
    {rest : List τ} {notifying : ℕ}
    (balance : rest.length + s.workers.countP Worker.isReady + s.notifying ≤
      s.tasks.length + (s.workers.set i new).countP Worker.isReady + notifying) :
    Served { s with workers := s.workers.set i new, tasks := rest, notifying := notifying } := by
  intro going member
  have before : Worker.waiting ∈ s.workers := by
    rcases List.mem_or_eq_of_mem_set member with before | now
    · exact before
    · exact absurd now.symm asleep
  have bound := served going before
  dsimp only
  omega

theorem steps_served (served : Served s) (steps : Steps s a event next) : Served next := by
  cases steps with
  | enqueue task going =>
    intro _ member
    have bound := served going member
    simp only [List.length_append, List.length_singleton]
    omega
  | reject => exact served
  | notifyNobody due awake => exact fun _ member => absurd member awake
  | notify i due asleep =>
    have counted := Slots.countP_set Worker.isReady asleep .ready
    simp only [Worker.isReady, if_true, Bool.false_eq_true, if_false] at counted
    exact served.turn (by simp) (by omega)
  | sleep i held empty => exact fun _ _ => by simp [empty]
  | exit i held empty stopped => exact fun going => by simp [stopped] at going
  | take i held task rest front =>
    have counted := Slots.countP_set Worker.isReady held (.running task)
    simp only [Worker.isReady, if_true, Bool.false_eq_true, if_false] at counted
    exact served.turn (by simp) (by rw [front, List.length_cons]; omega)
  | finish i task held =>
    have counted := Slots.countP_set Worker.isReady held .ready
    simp only [Worker.isReady, if_true, Bool.false_eq_true, if_false] at counted
    exact served.turn (by simp) (by omega)
  | wakeUp i asleep =>
    have counted := Slots.countP_set Worker.isReady asleep .ready
    simp only [Worker.isReady, if_true, Bool.false_eq_true, if_false] at counted
    exact served.turn (by simp) (by omega)
  | destroy => exact fun going => by simp at going
  | notifyAll =>
    intro _ member
    obtain ⟨worker, _, woken⟩ := List.mem_map.mp member
    cases worker <;> simp [Worker.woken] at woken
  | join => exact served

theorem runs_served (reached : PoolRuns threads events s) : Served s := by
  apply reached.invariant (fun _ => Served)
  · exact fun _ _ => by simp [start]
  · intro _ _ _ _ _ _ served stepped
    exact steps_served served (step_cases stepped)

end Order

section Progress

variable {τ : Type*} {threads : ℕ} {events : List (PoolEvent τ)} {s next : ThreadPool τ} {event : PoolEvent τ}
  {a : PoolAction τ} {i : ℕ} {worker : Worker τ}

def Active (s : ThreadPool τ) : Prop := ∃ a, a.own = true ∧ (s.step a).isSome = true

theorem worker_active (held : s.workers[i]? = some worker) (awake : worker ≠ .waiting) (alive : worker ≠ .exited) :
    s.Active := by
  cases worker with
  | ready => exact ⟨.lock i, rfl, by simp [step, held]⟩
  | running task => exact ⟨.finish i, rfl, by simp [step, held]⟩
  | waiting => exact absurd rfl awake
  | exited => exact absurd rfl alive

/-- A stopped pool stands still only after its destructor. -/
theorem stopped_active (orderly : Orderly threads s) (stop : s.stop = true) (live : ¬ s.Destroyed) : s.Active := by
  obtain ⟨-, stopped, awake, -, joined⟩ := orderly
  cases owner : s.owner with
  | inUse => exact absurd owner (stopped.mp stop)
  | stopping => exact ⟨.notifyAll, rfl, by simp [step, owner]⟩
  | joining k =>
    have within : k < s.workers.length := by
      rcases Nat.lt_trichotomy k s.workers.length with below | equal | above
      · exact below
      · exact absurd (owner.trans (by rw [equal])) live
      · have exited := joined k owner _ above
        simp at exited
    have held : s.workers[k]? = some s.workers[k] := List.getElem?_eq_getElem within
    by_cases exited : s.workers[k] = .exited
    · rw [exited] at held
      exact ⟨.join, rfl, by simp [step, owner, held]⟩
    · apply worker_active held _ exited
      exact fun asleep => awake k owner (asleep ▸ List.getElem_mem within)

/-- A queue with tasks in it is not left to sleeping workers. -/
theorem queued_active (orderly : Orderly threads s) (served : Served s) (workers : 0 < threads)
    (queued : s.tasks ≠ []) (going : s.stop = false) : s.Active := by
  by_cases asleep : ∀ worker ∈ s.workers, worker = .waiting
  · have positive : 0 < s.workers.length := by rw [orderly.size]; exact workers
    have first : s.workers[0] = .waiting := asleep _ (List.getElem_mem positive)
    have bound := served going (first ▸ List.getElem_mem positive)
    have nobody : s.workers.countP Worker.isReady = 0 := by
      rw [List.countP_eq_zero]
      intro worker member
      simp [asleep worker member, Worker.isReady]
    have due : s.notifying ≠ 0 := by
      have := List.length_pos_iff.mpr queued
      omega
    have held : s.workers[0]? = some .waiting := by rw [List.getElem?_eq_getElem positive, first]
    exact ⟨.notifyOne (some 0), rfl, by simp [step, notifyOne, due, held]⟩
  · push Not at asleep
    obtain ⟨worker, member, awake⟩ := asleep
    obtain ⟨i, held⟩ := List.mem_iff_getElem?.mp member
    apply worker_active held awake
    rintro rfl
    have stop := (orderly.gone member).1
    simp [going] at stop

def remaining (s : ThreadPool τ) : ℕ :=
  2 * s.tasks.length + (s.workers.map Worker.weight).sum + s.notifying + s.owner.stage s.workers.length

theorem sum_woken (workers : List (Worker τ)) :
    ((workers.map Worker.woken).map Worker.weight).sum ≤ (workers.map Worker.weight).sum := by
  induction workers with
  | nil => simp
  | cons worker workers ih =>
    have lighter : worker.woken.weight ≤ worker.weight := by
      cases worker <;> simp [Worker.woken, Worker.weight]
    simpa using Nat.add_le_add lighter ih

theorem steps_remaining (stop : s.stop = true) (steps : Steps s a event next) :
    next.stop = true ∧ (event.isRejected = false → next.remaining < s.remaining) := by
  cases steps with
  | enqueue task going | sleep i held empty going => simp [stop] at going
  | reject => exact ⟨stop, by simp [PoolEvent.isRejected]⟩
  | notifyNobody due =>
    refine ⟨stop, fun _ => ?_⟩
    simp only [remaining]
    omega
  | notify i due asleep =>
    have moved := Slots.sum_map_set Worker.weight asleep .ready
    refine ⟨stop, fun _ => ?_⟩
    simp only [remaining, Worker.weight, List.length_set] at moved ⊢
    omega
  | exit i held =>
    have moved := Slots.sum_map_set Worker.weight held .exited
    refine ⟨stop, fun _ => ?_⟩
    simp only [remaining, Worker.weight, List.length_set] at moved ⊢
    omega
  | take i held task rest front =>
    have moved := Slots.sum_map_set Worker.weight held (.running task)
    refine ⟨stop, fun _ => ?_⟩
    simp only [remaining, Worker.weight, List.length_set, front, List.length_cons] at moved ⊢
    omega
  | finish i task held =>
    have moved := Slots.sum_map_set Worker.weight held .ready
    refine ⟨stop, fun _ => ?_⟩
    simp only [remaining, Worker.weight, List.length_set] at moved ⊢
    omega
  | wakeUp i asleep =>
    have moved := Slots.sum_map_set Worker.weight asleep .ready
    refine ⟨stop, fun _ => ?_⟩
    simp only [remaining, Worker.weight, List.length_set] at moved ⊢
    omega
  | destroy inUse =>
    refine ⟨rfl, fun _ => ?_⟩
    simp only [remaining, inUse, Owner.stage]
    omega
  | notifyAll stopping =>
    have fewer := sum_woken s.workers
    refine ⟨stop, fun _ => ?_⟩
    simp only [remaining, stopping, Owner.stage, List.length_map]
    omega
  | join k joining held =>
    obtain ⟨within, -⟩ := List.getElem?_eq_some_iff.mp held
    refine ⟨stop, fun _ => ?_⟩
    simp only [remaining, joining, Owner.stage]
    omega

/-- A bound on the steps a pool takes until all its workers sleep or are joined. -/
def work (s : ThreadPool τ) : ℕ :=
  2 * s.tasks.length + (s.workers.map Worker.turns).sum + 2 * s.notifying + s.owner.phase s.workers.length

theorem turns_woken (workers : List (Worker τ)) :
    ((workers.map Worker.woken).map Worker.turns).sum ≤ (workers.map Worker.turns).sum + workers.length := by
  induction workers with
  | nil => simp
  | cons worker workers ih =>
    have heavier : worker.woken.turns ≤ worker.turns + 1 := by
      cases worker <;> simp [Worker.woken, Worker.turns]
    simp only [List.map_cons, List.sum_cons, List.length_cons]
    omega

theorem steps_work (steps : Steps s a event next) : next.work + 1 ≤ s.work + event.allowance := by
  cases steps with
  | enqueue task =>
    simp only [work, PoolEvent.allowance, List.length_append, List.length_singleton]
    omega
  | reject => exact Nat.le_refl _
  | notifyNobody due =>
    simp only [work, PoolEvent.allowance]
    omega
  | notify i due asleep =>
    have moved := Slots.sum_map_set Worker.turns asleep .ready
    simp only [work, PoolEvent.allowance, Worker.turns, List.length_set] at moved ⊢
    omega
  | sleep i held =>
    have moved := Slots.sum_map_set Worker.turns held .waiting
    simp only [work, PoolEvent.allowance, Worker.turns, List.length_set] at moved ⊢
    omega
  | exit i held =>
    have moved := Slots.sum_map_set Worker.turns held .exited
    simp only [work, PoolEvent.allowance, Worker.turns, List.length_set] at moved ⊢
    omega
  | take i held task rest front =>
    have moved := Slots.sum_map_set Worker.turns held (.running task)
    simp only [work, PoolEvent.allowance, Worker.turns, List.length_set, front, List.length_cons] at moved ⊢
    omega
  | finish i task held =>
    have moved := Slots.sum_map_set Worker.turns held .ready
    simp only [work, PoolEvent.allowance, Worker.turns, List.length_set] at moved ⊢
    omega
  | wakeUp i asleep =>
    have moved := Slots.sum_map_set Worker.turns asleep .ready
    simp only [work, PoolEvent.allowance, Worker.turns, List.length_set] at moved ⊢
    omega
  | destroy inUse =>
    simp only [work, PoolEvent.allowance, inUse, Owner.phase]
    omega
  | notifyAll stopping =>
    have bound := turns_woken s.workers
    simp only [work, PoolEvent.allowance, stopping, Owner.phase, List.length_map]
    omega
  | join k joining held =>
    obtain ⟨within, -⟩ := List.getElem?_eq_some_iff.mp held
    simp only [work, PoolEvent.allowance, joining, Owner.phase]
    omega

end Progress

section Results

variable {τ : Type*} {threads : ℕ} {events : List (PoolEvent τ)} {s : ThreadPool τ}

theorem destroyed_exited (orderly : Orderly threads s) (destroyed : s.Destroyed) :
    ∀ worker ∈ s.workers, worker = .exited := by
  intro worker member
  obtain ⟨i, within, rfl⟩ := List.getElem_of_mem member
  have exited := orderly.joined _ destroyed i within
  rw [List.getElem?_eq_getElem within] at exited
  exact Option.some.inj exited

theorem destroyed_empty (orderly : Orderly threads s) (workers : 0 < threads) (destroyed : s.Destroyed) :
    s.tasks = [] ∧ s.runningTasks = [] := by
  have exited := destroyed_exited orderly destroyed
  have positive : 0 < s.workers.length := by rw [orderly.size]; exact workers
  have first : Worker.exited ∈ s.workers := exited _ (List.getElem_mem positive) ▸ List.getElem_mem positive
  refine ⟨(orderly.gone first).2, List.filterMap_eq_nil_iff.mpr fun worker member => ?_⟩
  rw [exited worker member]
  rfl

theorem stopped_bound {later : List (PoolEvent τ)} {t : ThreadPool τ} (stop : s.stop = true)
    (reached : Machine.Reaches step s later t) :
    t.stop = true ∧ (later.filter fun event => !event.isRejected).length + t.remaining ≤ s.remaining := by
  apply reached.invariant fun shown t => t.stop = true ∧
    (shown.filter fun event => !event.isRejected).length + t.remaining ≤ s.remaining
  · exact ⟨stop, by simp⟩
  · intro shown current _ event next _ bound stepped
    obtain ⟨stop, bound⟩ := bound
    have steps := step_cases stepped
    obtain ⟨stopped, fewer⟩ := steps_remaining stop steps
    refine ⟨stopped, ?_⟩
    cases rejected : event.isRejected with
    | false =>
      have less := fewer rejected
      simp only [List.filter_append, List.length_append]
      simp only [rejected, List.filter_cons, Bool.not_false, if_true, List.filter_nil, List.length_singleton]
      omega
    | true =>
      have same : next = current := by
        cases steps <;> simp_all [PoolEvent.isRejected]
      rw [same]
      simpa [List.filter_append, rejected] using bound

end Results

end ThreadPool

namespace Sample

/-- Two workers and two tasks: the first worker goes to sleep before the first task comes
and is notified while the second worker takes it. -/
def poolMoves : List (PoolAction ℕ) :=
  [.lock 0, .enqueue 7, .notifyOne (some 0), .enqueue 8, .lock 1, .notifyOne none, .lock 0, .finish 1]

def poolEnd : List (PoolAction ℕ) := [.finish 0, .notifyAll, .lock 0, .lock 1, .join, .join]

def poolRun (moves : List (PoolAction ℕ)) : Option (List (PoolEvent ℕ) × ThreadPool ℕ) :=
  Machine.run ThreadPool.step (ThreadPool.start 2) moves

end Sample

/-- Tasks are taken off the queue in the order they came, each by one worker and once: in
every interleaving the tasks enqueued are those started, in the same order, followed by
those still queued, and those started are finished or on a worker. When the destructor
has returned, every task that was ever enqueued has run to its end. -/
theorem tasks_run_once {τ : Type*} {threads : ℕ} {events : List (PoolEvent τ)} {s : ThreadPool τ}
    (reached : PoolRuns threads events s) :
    enqueuedTasks events = startedTasks events ++ s.tasks ∧
    (startedTasks events).Perm (finishedTasks events ++ s.runningTasks) ∧
    (0 < threads → s.Destroyed →
      startedTasks events = enqueuedTasks events ∧ (finishedTasks events).Perm (enqueuedTasks events)) := by
  obtain ⟨order, once⟩ := ThreadPool.runs_accounted reached
  refine ⟨order, once, fun workers destroyed => ?_⟩
  obtain ⟨empty, idle⟩ := ThreadPool.destroyed_empty (ThreadPool.runs_orderly reached) workers destroyed
  rw [empty, List.append_nil] at order
  rw [idle, List.append_nil] at once
  exact ⟨order.symm, order ▸ once.symm⟩

theorem tasks_run_once_two : ∃ (events : List (PoolEvent ℕ)) (s : ThreadPool ℕ), PoolRuns 2 events s ∧ s.Destroyed ∧
    enqueuedTasks events = [7, 8] ∧ startedTasks events = enqueuedTasks events ∧
    (finishedTasks events).Perm (enqueuedTasks events) := by
  obtain ⟨⟨events, s⟩, ran, shown⟩ := Option.map_eq_some_iff.mp
    (show (Sample.poolRun (Sample.poolMoves ++ .destroy :: Sample.poolEnd)).map
      (fun r => (decide r.2.Destroyed, enqueuedTasks r.1)) = some (true, [7, 8]) by decide)
  obtain ⟨destroyed, tasks⟩ := Prod.mk.inj shown
  have destroyed := of_decide_eq_true destroyed
  obtain ⟨-, -, finished⟩ := tasks_run_once (show PoolRuns 2 events s from ⟨_, ran⟩)
  exact ⟨events, s, ⟨_, ran⟩, destroyed, tasks, finished (by decide) destroyed⟩

/-- No notification is lost: while a worker sleeps and the pool is in use, the queue holds
no more tasks than there are workers about to look at it and notifications on their way.
A pool with tasks to run, or one being destroyed, can always take a step of its own. -/
theorem no_lost_wakeup {τ : Type*} {threads : ℕ} {events : List (PoolEvent τ)} {s : ThreadPool τ}
    (reached : PoolRuns threads events s) :
    (s.stop = false → Worker.waiting ∈ s.workers →
      s.tasks.length ≤ s.workers.countP Worker.isReady + s.notifying) ∧
    (0 < threads → s.tasks ≠ [] → s.stop = false → s.Active) ∧
    (s.stop = true → ¬ s.Destroyed → s.Active) := by
  have orderly := ThreadPool.runs_orderly reached
  have served := ThreadPool.runs_served reached
  refine ⟨served, fun workers queued going => ?_, ThreadPool.stopped_active orderly⟩
  exact ThreadPool.queued_active orderly served workers queued going

theorem no_lost_wakeup_two : ∃ (events : List (PoolEvent ℕ)) (s : ThreadPool ℕ), PoolRuns 2 events s ∧
    s.stop = false ∧ s.tasks = [7] ∧ s.Active ∧
    (Worker.waiting ∈ s.workers → s.tasks.length ≤ s.workers.countP Worker.isReady + s.notifying) := by
  obtain ⟨⟨events, s⟩, ran, shown⟩ := Option.map_eq_some_iff.mp
    (show (Sample.poolRun (Sample.poolMoves.take 2)).map (fun r => (r.2.stop, r.2.tasks)) = some (false, [7]) by
      decide)
  obtain ⟨going, tasks⟩ := Prod.mk.inj shown
  obtain ⟨served, active, -⟩ := no_lost_wakeup (show PoolRuns 2 events s from ⟨_, ran⟩)
  have queued : s.tasks ≠ [] := by
    rw [show s.tasks = [7] from tasks]
    simp
  exact ⟨events, s, ⟨_, ran⟩, going, tasks, active (by decide) queued going, served going⟩

/-- The destructor returns: once it has set `stop` only boundedly many steps are left, and
where none is left all workers have been joined with every task run. -/
theorem destructor_returns {τ : Type*} {threads : ℕ} {events later : List (PoolEvent τ)} {s t : ThreadPool τ}
    (reached : PoolRuns threads events s) (stop : s.stop = true)
    (continued : Machine.Reaches ThreadPool.step s later t) :
    (later.filter fun event => !event.isRejected).length ≤ s.remaining ∧
    enqueuedTasks later = [] ∧
    (¬ t.Active → t.Destroyed ∧ (0 < threads → (finishedTasks (events ++ later)).Perm (enqueuedTasks events))) := by
  have whole := reached.trans continued
  obtain ⟨stopped, bound⟩ := ThreadPool.stopped_bound stop continued
  have nothing : enqueuedTasks later = [] := by
    have both := continued.invariant (fun shown t => t.stop = true ∧ enqueuedTasks shown = []) ⟨stop, rfl⟩ ?_
    · exact both.2
    · intro shown current a event next _ before stepped
      have steps := ThreadPool.step_cases stepped
      refine ⟨(ThreadPool.steps_remaining before.1 steps).1, ?_⟩
      rw [ThreadPool.enqueuedTasks_snoc, before.2]
      cases steps <;> first | rfl | simp_all
  refine ⟨by omega, nothing, fun still => ?_⟩
  have destroyed : t.Destroyed := by
    by_contra live
    exact still (ThreadPool.stopped_active (ThreadPool.runs_orderly whole) stopped live)
  refine ⟨destroyed, fun workers => ?_⟩
  obtain ⟨empty, idle⟩ := ThreadPool.destroyed_empty (ThreadPool.runs_orderly whole) workers destroyed
  obtain ⟨order, once⟩ := ThreadPool.runs_accounted whole
  have same : enqueuedTasks (events ++ later) = enqueuedTasks events := by
    rw [enqueuedTasks, List.filterMap_append]
    simpa [enqueuedTasks] using nothing
  rw [empty, List.append_nil, same] at order
  rw [idle, List.append_nil, ← order] at once
  exact once.symm

theorem destructor_returns_two : ∃ (events later : List (PoolEvent ℕ)) (s t : ThreadPool ℕ),
    PoolRuns 2 events s ∧ Machine.Reaches ThreadPool.step s later t ∧ t.Destroyed ∧
    (later.filter fun event => !event.isRejected).length ≤ s.remaining ∧ enqueuedTasks later = [] := by
  obtain ⟨⟨all, t⟩, ran, destroyed⟩ := Option.map_eq_some_iff.mp
    (show (Sample.poolRun (Sample.poolMoves ++ .destroy :: Sample.poolEnd)).map
      (fun r => decide r.2.Destroyed) = some true by decide)
  obtain ⟨before, s, later, ran, continued, -⟩ := Machine.run_append.mp
    (show Machine.run ThreadPool.step (ThreadPool.start 2) ((Sample.poolMoves ++ [.destroy]) ++ Sample.poolEnd) =
      some (all, t) from ran)
  have stop : s.stop = true := by
    have same : (Sample.poolRun (Sample.poolMoves ++ [.destroy])).map (fun r => r.2.stop) = some true := by decide
    rw [Sample.poolRun, ran] at same
    exact Option.some.inj same
  obtain ⟨bound, nothing, -⟩ := destructor_returns (show PoolRuns 2 before s from ⟨_, ran⟩) stop ⟨_, continued⟩
  exact ⟨before, later, s, t, ⟨_, ran⟩, ⟨_, continued⟩, of_decide_eq_true destroyed, bound, nothing⟩

end LigDataParsing
