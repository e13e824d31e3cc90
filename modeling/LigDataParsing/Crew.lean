import LigDataParsing.ThreadPool
import Mathlib.Data.List.ReduceOption

/-! The pool with the inside of its tasks. A task is a machine of its own, whose steps wait
for answers from outside; a worker that runs a task takes its steps one by one, between
those of the others, and finishes when the task is over. -/
namespace LigDataParsing

structure Body (τ σ ι E : Type*) where
  start : τ → σ
  step : σ → ι → Option (E × σ)
  isOver : σ → Bool

structure Execution (τ σ E : Type*) where
  task : τ
  trace : List E
  state : σ

structure Crew (τ σ E : Type*) where
  pool : ThreadPool τ
  current : List (Option (Execution τ σ E))

inductive CrewMove (τ ι : Type*) where
  | pool (a : PoolAction τ)
  | act (i : ℕ) (answer : ι)

inductive CrewEvent (τ σ E : Type*) where
  | pool (event : PoolEvent τ)
  | finished (i : ℕ) (done : Execution τ σ E)
  | acted (task : τ) (effect : E)

section Events

variable {τ σ E : Type*}

def CrewEvent.pool? : CrewEvent τ σ E → Option (PoolEvent τ)
  | .pool event => some event
  | .finished i done => some (.finished i done.task)
  | .acted _ _ => none

def CrewEvent.execution? : CrewEvent τ σ E → Option (Execution τ σ E)
  | .finished _ done => some done
  | _ => none

def CrewEvent.effect? : CrewEvent τ σ E → Option (τ × E)
  | .acted task effect => some (task, effect)
  | _ => none

def crewPool (events : List (CrewEvent τ σ E)) : List (PoolEvent τ) := events.filterMap CrewEvent.pool?

def executions (events : List (CrewEvent τ σ E)) : List (Execution τ σ E) := events.filterMap CrewEvent.execution?

def effects (events : List (CrewEvent τ σ E)) : List (τ × E) := events.filterMap CrewEvent.effect?

def Execution.effects (e : Execution τ σ E) : List (τ × E) := e.trace.map fun effect => (e.task, effect)

end Events

namespace Crew

variable {τ σ ι E : Type*}

def start (threads : ℕ) : Crew τ σ E := ⟨.start threads, List.replicate threads none⟩

def begun (b : Body τ σ ι E) (current : List (Option (Execution τ σ E))) :
    PoolEvent τ → List (Option (Execution τ σ E))
  | .started i task => current.set i (some ⟨task, [], b.start task⟩)
  | _ => current

def finish (b : Body τ σ ι E) (s : Crew τ σ E) (i : ℕ) : Option (CrewEvent τ σ E × Crew τ σ E) :=
  match s.current[i]? with
  | some (some done) =>
    if b.isOver done.state then
      (s.pool.step (.finish i)).map fun acted => (.finished i done, ⟨acted.2, s.current.set i none⟩)
    else none
  | _ => none

def act (b : Body τ σ ι E) (s : Crew τ σ E) (i : ℕ) (answer : ι) : Option (CrewEvent τ σ E × Crew τ σ E) :=
  match s.current[i]? with
  | some (some e) => (b.step e.state answer).map fun acted =>
    (.acted e.task acted.1, ⟨s.pool, s.current.set i (some ⟨e.task, e.trace ++ [acted.1], acted.2⟩)⟩)
  | _ => none

def step (b : Body τ σ ι E) (s : Crew τ σ E) : CrewMove τ ι → Option (CrewEvent τ σ E × Crew τ σ E)
  | .pool (.finish i) => s.finish b i
  | .pool a => (s.pool.step a).map fun acted => (.pool acted.1, ⟨acted.2, begun b s.current acted.1⟩)
  | .act i answer => s.act b i answer

end Crew

abbrev CrewRuns {τ σ ι E : Type*} (b : Body τ σ ι E) (threads : ℕ) (events : List (CrewEvent τ σ E))
    (s : Crew τ σ E) : Prop :=
  Machine.Reaches (Crew.step b) (Crew.start threads) events s

section Steps

variable {τ σ ι E : Type*} {b : Body τ σ ι E} {s next : Crew τ σ E} {move : CrewMove τ ι} {event : CrewEvent τ σ E}

theorem Crew.step_pool {a : PoolAction τ} (other : ∀ i, a ≠ .finish i) : s.step b (.pool a) =
    (s.pool.step a).map fun acted => (.pool acted.1, ⟨acted.2, begun b s.current acted.1⟩) := by
  cases a with
  | finish i => exact absurd rfl (other i)
  | enqueue | notifyOne | lock | wakeUp | destroy | notifyAll | join => rfl

inductive Crew.Steps (b : Body τ σ ι E) (s : Crew τ σ E) : CrewEvent τ σ E → Crew τ σ E → Prop where
  | pool (a : PoolAction τ) (event : PoolEvent τ) (pool : ThreadPool τ) (stepped : s.pool.step a = some (event, pool))
      (other : ∀ i, a ≠ .finish i) : Steps b s (.pool event) ⟨pool, begun b s.current event⟩
  | finish (i : ℕ) (done : Execution τ σ E) (pool : ThreadPool τ) (event : PoolEvent τ)
      (held : s.current[i]? = some (some done)) (ended : b.isOver done.state = true)
      (stepped : s.pool.step (.finish i) = some (event, pool)) :
      Steps b s (.finished i done) ⟨pool, s.current.set i none⟩
  | act (i : ℕ) (answer : ι) (e : Execution τ σ E) (effect : E) (state : σ)
      (held : s.current[i]? = some (some e)) (acted : b.step e.state answer = some (effect, state)) :
      Steps b s (.acted e.task effect) ⟨s.pool, s.current.set i (some ⟨e.task, e.trace ++ [effect], state⟩)⟩

theorem act_cases {i : ℕ} {answer : ι} (stepped : s.act b i answer = some (event, next)) :
    ∃ e effect state, s.current[i]? = some (some e) ∧ b.step e.state answer = some (effect, state) ∧
      event = .acted e.task effect ∧ next = ⟨s.pool, s.current.set i (some ⟨e.task, e.trace ++ [effect], state⟩)⟩ := by
  simp only [Crew.act] at stepped
  split at stepped
  · rename_i e held
    obtain ⟨⟨effect, state⟩, acted, done⟩ := Option.map_eq_some_iff.mp stepped
    cases done
    exact ⟨e, effect, state, held, acted, rfl, rfl⟩
  · contradiction

theorem finish_cases {i : ℕ} (stepped : s.finish b i = some (event, next)) :
    ∃ done shown pool, s.current[i]? = some (some done) ∧ b.isOver done.state = true ∧
      s.pool.step (.finish i) = some (shown, pool) ∧ event = .finished i done ∧
      next = ⟨pool, s.current.set i none⟩ := by
  simp only [Crew.finish] at stepped
  split at stepped
  · rename_i done held
    split_ifs at stepped with ended
    obtain ⟨⟨shown, pool⟩, acted, same⟩ := Option.map_eq_some_iff.mp stepped
    cases same
    exact ⟨done, shown, pool, held, ended, acted, rfl, rfl⟩
  · contradiction

theorem crew_cases (stepped : s.step b move = some (event, next)) : s.Steps b event next := by
  cases move with
  | act i answer =>
    obtain ⟨e, effect, state, held, acted, rfl, rfl⟩ := act_cases stepped
    exact .act i answer e effect state held acted
  | pool a =>
    by_cases finishes : ∃ i, a = .finish i
    · obtain ⟨i, rfl⟩ := finishes
      obtain ⟨done, shown, pool, held, ended, acted, rfl, rfl⟩ := finish_cases stepped
      exact .finish i done pool shown held ended acted
    · have other : ∀ i, a ≠ .finish i := fun i same => finishes ⟨i, same⟩
      rw [Crew.step_pool other] at stepped
      obtain ⟨⟨shown, pool⟩, acted, same⟩ := Option.map_eq_some_iff.mp stepped
      cases same
      exact .pool a shown pool acted other

end Steps

inductive TasksMoved {τ : Type*} (before : List (Option τ)) : PoolEvent τ → List (Option τ) → Prop where
  | started (i : ℕ) (task : τ) (inside : before[i]? = some none) :
      TasksMoved before (.started i task) (before.set i (some task))
  | finished (i : ℕ) (task : τ) (inside : before[i]? = some (some task)) :
      TasksMoved before (.finished i task) (before.set i none)
  | other (event : PoolEvent τ) (starts : ∀ i task, event ≠ .started i task)
      (ends : ∀ i task, event ≠ .finished i task) : TasksMoved before event before

section Tasks

variable {τ : Type*} {pool next : ThreadPool τ} {a : PoolAction τ} {event : PoolEvent τ}

theorem tasks_moved (stepped : pool.step a = some (event, next)) :
    TasksMoved (pool.workers.map Worker.task?) event (next.workers.map Worker.task?) := by
  have quiet {event : PoolEvent τ} {workers : List (Worker τ)} (starts : ∀ i task, event ≠ .started i task)
      (ends : ∀ i task, event ≠ .finished i task)
      (same : workers.map Worker.task? = pool.workers.map Worker.task?) :
      TasksMoved (pool.workers.map Worker.task?) event (workers.map Worker.task?) :=
    same ▸ .other event starts ends
  have listed {i : ℕ} {worker : Worker τ} (held : pool.workers[i]? = some worker) :
      (pool.workers.map Worker.task?)[i]? = some worker.task? := by
    rw [List.getElem?_map, held, Option.map_some]
  cases ThreadPool.step_cases stepped with
  | enqueue | reject | notifyNobody | destroy | join => exact quiet (by simp) (by simp) rfl
  | notify i due asleep => exact quiet (by simp) (by simp) (Slots.map_set_same asleep rfl)
  | sleep i held | exit i held => exact quiet (by simp) (by simp) (Slots.map_set_same held rfl)
  | wakeUp i asleep => exact quiet (by simp) (by simp) (Slots.map_set_same asleep rfl)
  | take i held task rest front =>
    rw [List.map_set]
    exact .started i task (listed held)
  | finish i task held =>
    rw [List.map_set]
    exact .finished i task (listed held)
  | notifyAll =>
    refine quiet (by simp) (by simp) ?_
    rw [List.map_map]
    refine List.map_congr_left fun worker _ => ?_
    cases worker <;> rfl

end Tasks

/-- What holds at any time: every worker is on the task the pool gave it, somewhere in a run
of it; the finished ones ran to their end; and nothing was done outside a task. -/
structure Manned {τ σ ι E : Type*} (b : Body τ σ ι E) (threads : ℕ) (events : List (CrewEvent τ σ E))
    (s : Crew τ σ E) : Prop where
  pool : PoolRuns threads (crewPool events) s.pool
  aligned : s.current.map (Option.map Execution.task) = s.pool.workers.map Worker.task?
  going : ∀ (i : ℕ) (e : Execution τ σ E), s.current[i]? = some (some e) →
    Machine.Reaches b.step (b.start e.task) e.trace e.state
  ended : ∀ e ∈ executions events, Machine.Reaches b.step (b.start e.task) e.trace e.state ∧ b.isOver e.state = true
  tasks : finishedTasks (crewPool events) = (executions events).map Execution.task
  done : (effects events).Perm ((executions events).flatMap Execution.effects ++
    s.current.reduceOption.flatMap Execution.effects)

section Invariant

variable {τ σ ι E : Type*} {b : Body τ σ ι E} {threads : ℕ} {events : List (CrewEvent τ σ E)} {s next : Crew τ σ E}
  {event : CrewEvent τ σ E}

theorem crewPool_snoc (events : List (CrewEvent τ σ E)) (event : CrewEvent τ σ E) :
    crewPool (events ++ [event]) = crewPool events ++ event.pool?.toList := Machine.filterMap_snoc _ events event

theorem executions_snoc (events : List (CrewEvent τ σ E)) (event : CrewEvent τ σ E) :
    executions (events ++ [event]) = executions events ++ event.execution?.toList :=
  Machine.filterMap_snoc _ events event

theorem effects_snoc (events : List (CrewEvent τ σ E)) (event : CrewEvent τ σ E) :
    effects (events ++ [event]) = effects events ++ event.effect?.toList := Machine.filterMap_snoc _ events event

theorem effects_set {current : List (Option (Execution τ σ E))} {i : ℕ} {old : Option (Execution τ σ E)}
    (held : current[i]? = some old) (new : Option (Execution τ σ E)) :
    (old.toList.flatMap Execution.effects ++ (current.set i new).reduceOption.flatMap Execution.effects).Perm
      (new.toList.flatMap Execution.effects ++ current.reduceOption.flatMap Execution.effects) := by
  have moved := (Slots.filterMap_set_perm id held new).flatMap_right Execution.effects
  simpa only [List.flatMap_append, List.reduceOption, id_eq] using moved

theorem manned_start : Manned b threads [] (Crew.start threads : Crew τ σ E) := by
  refine ⟨.refl _, ?_, fun i e held => ?_, fun e member => absurd member List.not_mem_nil, rfl, ?_⟩
  · simp [Crew.start, ThreadPool.start, Worker.task?]
  · simp [Crew.start, List.getElem?_replicate] at held
  · simp [Crew.start, effects, executions, List.reduceOption_replicate_none]

theorem finish_of_finished {pool nextPool : ThreadPool τ} {a : PoolAction τ} {i : ℕ} {task : τ}
    (stepped : pool.step a = some (.finished i task, nextPool)) : a = .finish i := by
  cases ThreadPool.step_cases stepped
  rfl

theorem going_set {current : List (Option (Execution τ σ E))} {i : ℕ} {new : Option (Execution τ σ E)}
    {property : Execution τ σ E → Prop}
    (going : ∀ (k : ℕ) (e : Execution τ σ E), current[k]? = some (some e) → property e)
    (here : ∀ e, new = some e → property e) :
    ∀ (k : ℕ) (e : Execution τ σ E), (current.set i new)[k]? = some (some e) → property e := by
  intro k e held
  rw [List.getElem?_set] at held
  split_ifs at held with same inside
  · exact here e (Option.some.inj held)
  · exact going k e held

theorem Manned.poolStep (manned : Manned b threads events s) {a : PoolAction τ} {event : PoolEvent τ}
    {pool : ThreadPool τ} (stepped : s.pool.step a = some (event, pool)) (other : ∀ i, a ≠ .finish i) :
    Manned b threads (events ++ [.pool event]) ⟨pool, Crew.begun b s.current event⟩ := by
  obtain ⟨ran, aligned, going, ended, tasks, done⟩ := manned
  have ran' : PoolRuns threads (crewPool (events ++ [.pool event])) pool := by
    rw [crewPool_snoc]
    exact ran.snoc stepped
  have same : executions (events ++ [.pool event]) = executions events := by
    rw [executions_snoc]
    exact List.append_nil _
  have same' : effects (events ++ [.pool event]) = effects events := by
    rw [effects_snoc]
    exact List.append_nil _
  have finished : finishedTasks (crewPool (events ++ [.pool event])) = (executions events).map Execution.task ++
      event.finished?.toList := by
    rw [crewPool_snoc, CrewEvent.pool?, Option.toList_some, ThreadPool.finishedTasks_snoc, tasks]
  have moved := tasks_moved stepped
  rw [← aligned] at moved
  generalize after : pool.workers.map Worker.task? = workers at moved
  cases moved with
  | started i task inside =>
    have idle : s.current[i]? = some none := by
      rw [List.getElem?_map] at inside
      obtain ⟨held, listed, free⟩ := Option.map_eq_some_iff.mp inside
      rw [listed, Option.map_eq_none_iff.mp free]
    refine ⟨ran', ?_, going_set going ?_, same ▸ ended, ?_, ?_⟩
    · rw [after, Crew.begun, List.map_set]
      rfl
    · rintro e new
      cases new
      exact .refl _
    · rw [finished, same]
      exact List.append_nil _
    · rw [same, same']
      have moved := effects_set idle (some ⟨task, [], b.start task⟩)
      simp only [Option.toList_some, Option.toList_none, List.flatMap_nil, List.nil_append, List.flatMap_singleton,
        Execution.effects, List.map_nil] at moved
      exact done.trans (moved.symm.append_left _)
  | finished i task => exact absurd (finish_of_finished stepped) (other i)
  | other event starts ends =>
    have kept : Crew.begun b s.current event = s.current := by
      cases event with
      | started i task => exact absurd rfl (starts i task)
      | enqueued | rejected | finished | spurious | silent => rfl
    have nothing : event.finished? = none := by
      cases event with
      | finished i task => exact absurd rfl (ends i task)
      | enqueued | rejected | started | spurious | silent => rfl
    refine ⟨ran', ?_, ?_, same ▸ ended, ?_, ?_⟩
    · rw [kept, after]
    · rw [kept]
      exact going
    · rw [finished, same, nothing]
      exact List.append_nil _
    · rw [same, same', kept]
      exact done

theorem Manned.finishes (manned : Manned b threads events s) {i : ℕ} {done : Execution τ σ E} {pool : ThreadPool τ}
    {event : PoolEvent τ} (held : s.current[i]? = some (some done))
    (stepped : s.pool.step (.finish i) = some (event, pool)) :
    event = .finished i done.task ∧ pool.workers = s.pool.workers.set i .ready := by
  have onTask : (s.pool.workers.map Worker.task?)[i]? = some (some done.task) := by
    rw [← manned.aligned, List.getElem?_map, held]
    rfl
  cases ThreadPool.step_cases stepped with
  | finish i task listed =>
    rw [List.getElem?_map, listed] at onTask
    obtain rfl : task = done.task := Option.some.inj (Option.some.inj onTask)
    exact ⟨rfl, rfl⟩

theorem Manned.finishStep (manned : Manned b threads events s) {i : ℕ} {done : Execution τ σ E} {pool : ThreadPool τ}
    {event : PoolEvent τ} (held : s.current[i]? = some (some done)) (complete : b.isOver done.state = true)
    (stepped : s.pool.step (.finish i) = some (event, pool)) :
    Manned b threads (events ++ [.finished i done]) ⟨pool, s.current.set i none⟩ := by
  obtain ⟨rfl, workers⟩ := manned.finishes held stepped
  obtain ⟨ran, aligned, going, ended, tasks, did⟩ := manned
  have finished : executions (events ++ [.finished i done]) = executions events ++ [done] := executions_snoc _ _
  refine ⟨?_, ?_, going_set going (by simp), ?_, ?_, ?_⟩
  · rw [crewPool_snoc]
    exact ran.snoc stepped
  · rw [workers, List.map_set, List.map_set, aligned]
    rfl
  · intro e member
    rw [finished, List.mem_append, List.mem_singleton] at member
    rcases member with old | rfl
    · exact ended e old
    · exact ⟨going i e held, complete⟩
  · rw [crewPool_snoc, CrewEvent.pool?, Option.toList_some, ThreadPool.finishedTasks_snoc, tasks, finished,
      List.map_append]
    rfl
  · rw [effects_snoc, finished]
    have moved := effects_set held none
    simp only [Option.toList_some, Option.toList_none, List.flatMap_nil, List.nil_append] at moved
    rw [List.flatMap_append, List.append_assoc]
    rw [show (CrewEvent.finished i done).effect?.toList = [] from rfl, List.append_nil]
    exact did.trans (moved.symm.append_left _)

theorem Manned.actStep (manned : Manned b threads events s) {i : ℕ} {answer : ι} {e : Execution τ σ E} {effect : E}
    {state : σ} (held : s.current[i]? = some (some e)) (acted : b.step e.state answer = some (effect, state)) :
    Manned b threads (events ++ [.acted e.task effect])
      ⟨s.pool, s.current.set i (some ⟨e.task, e.trace ++ [effect], state⟩)⟩ := by
  obtain ⟨ran, aligned, going, ended, tasks, did⟩ := manned
  have same : executions (events ++ [.acted e.task effect]) = executions events := by
    rw [executions_snoc]
    exact List.append_nil _
  have pool : crewPool (events ++ [.acted e.task effect]) = crewPool events := by
    rw [crewPool_snoc]
    exact List.append_nil _
  refine ⟨pool ▸ ran, ?_, going_set going ?_, same ▸ ended, ?_, ?_⟩
  · rw [← aligned, List.map_set]
    have inside := (List.getElem?_eq_some_iff.mp held).1
    have there : (s.current.map (Option.map Execution.task))[i]? = some (some e.task) := by
      rw [List.getElem?_map, held]
      rfl
    obtain ⟨within, value⟩ := List.getElem?_eq_some_iff.mp there
    rw [Option.map_some, ← value]
    exact List.set_getElem_self _
  · rintro _ new
    cases new
    exact (going i e held).snoc acted
  · rw [pool, same]
    exact tasks
  · rw [same, effects_snoc]
    have moved := effects_set held (some ⟨e.task, e.trace ++ [effect], state⟩)
    have longer : (⟨e.task, e.trace ++ [effect], state⟩ : Execution τ σ E).effects =
        e.effects ++ [(e.task, effect)] := by simp [Execution.effects]
    simp only [Option.toList_some, List.flatMap_singleton, longer, List.append_assoc,
      List.perm_append_left_iff] at moved
    refine (did.append_right _).trans ?_
    rw [List.append_assoc]
    exact (List.perm_append_comm.trans moved.symm).append_left _

theorem crew_manned (reached : CrewRuns b threads events s) : Manned b threads events s := by
  apply reached.invariant (Manned b threads)
  · exact manned_start
  · intro shown current move event next _ manned stepped
    cases crew_cases stepped with
    | pool a event pool acted other => exact manned.poolStep acted other
    | finish i done pool event held ended acted => exact manned.finishStep held ended acted
    | act i answer e effect state held acted => exact manned.actStep held acted

/-- What was done was done within a run of a task that was enqueued. -/
theorem Manned.effect_run (manned : Manned b threads events s) {task : τ} {effect : E}
    (done : (task, effect) ∈ effects events) : task ∈ enqueuedTasks (crewPool events) ∧
    ∃ trace state, Machine.Reaches b.step (b.start task) trace state ∧ effect ∈ trace := by
  obtain ⟨order, once⟩ := ThreadPool.runs_accounted manned.pool
  have enqueued {task : τ} (member : task ∈ finishedTasks (crewPool events) ++ s.pool.runningTasks) :
      task ∈ enqueuedTasks (crewPool events) := order ▸ List.mem_append_left _ (once.mem_iff.mpr member)
  have inside {e : Execution τ σ E} (member : (task, effect) ∈ e.effects) : e.task = task ∧ effect ∈ e.trace := by
    obtain ⟨shown, traced, same⟩ := List.mem_map.mp member
    cases same
    exact ⟨rfl, traced⟩
  rcases List.mem_append.mp (manned.done.mem_iff.mp done) with ended | going
  · obtain ⟨e, member, shown⟩ := List.mem_flatMap.mp ended
    obtain ⟨rfl, traced⟩ := inside shown
    refine ⟨enqueued (List.mem_append_left _ ?_), e.trace, e.state, (manned.ended e member).1, traced⟩
    exact manned.tasks ▸ List.mem_map_of_mem member
  · obtain ⟨e, member, shown⟩ := List.mem_flatMap.mp going
    obtain ⟨rfl, traced⟩ := inside shown
    obtain ⟨i, held⟩ := List.mem_iff_getElem?.mp (List.reduceOption_mem_iff.mp member)
    refine ⟨enqueued (List.mem_append_right _ ?_), e.trace, e.state, manned.going i e held, traced⟩
    have onTask : some e.task ∈ s.pool.workers.map Worker.task? := by
      rw [← manned.aligned]
      exact List.mem_map.mpr ⟨some e, List.reduceOption_mem_iff.mp member, rfl⟩
    obtain ⟨worker, there, same⟩ := List.mem_map.mp onTask
    exact List.mem_filterMap.mpr ⟨worker, there, same⟩

/-- When the destructor has returned, every task has run to its end, and what was done is
what these runs did. -/
theorem Manned.destroyed (manned : Manned b threads events s) (workers : 0 < threads) (destroyed : s.pool.Destroyed) :
    ((executions events).map Execution.task).Perm (enqueuedTasks (crewPool events)) ∧
    (effects events).Perm ((executions events).flatMap Execution.effects) := by
  obtain ⟨empty, idle⟩ := ThreadPool.destroyed_empty (ThreadPool.runs_orderly manned.pool) workers destroyed
  obtain ⟨order, once⟩ := ThreadPool.runs_accounted manned.pool
  rw [empty, List.append_nil] at order
  rw [idle, List.append_nil, manned.tasks] at once
  refine ⟨order ▸ once.symm, ?_⟩
  have nobody : s.current.reduceOption = [] := by
    have tasks : s.pool.workers.map Worker.task? = List.replicate s.pool.workers.length none := by
      rw [List.eq_replicate_iff, List.length_map]
      refine ⟨rfl, fun held member => ?_⟩
      obtain ⟨worker, inside, rfl⟩ := List.mem_map.mp member
      exact List.filterMap_eq_nil_iff.mp idle worker inside
    rw [List.reduceOption, List.filterMap_eq_nil_iff]
    intro held member
    have mapped : held.map Execution.task ∈ List.replicate s.pool.workers.length none :=
      tasks ▸ manned.aligned ▸ List.mem_map_of_mem member
    exact Option.map_eq_none_iff.mp (List.eq_of_mem_replicate mapped)
  have did := manned.done
  rwa [nobody, List.flatMap_nil, List.append_nil] at did

end Invariant

end LigDataParsing
