import LigDataParsing.ThreadPool
import LigDataParsing.InnerLoop
import LigDataParsing.Threads

/-! The whole program: both threads, and the posting pool that `ThreadLoc` owns. The turn
that locates a report enqueues it, and is over when its `notify_one` is; the destructor
of the pool runs when the locating thread has left its loop. -/
namespace LigDataParsing

structure Program where
  threads : Threads
  pool : ThreadPool Post

def postThreads : ℕ := 100

inductive ProgramMove where
  | threads (move : Move)
  | pool (a : PoolAction Post)

inductive ProgramEvent where
  | threads (event : ThreadEvent) (call : Option (PoolEvent Post))
  | pool (event : PoolEvent Post)

def ThreadEvent.post (event : ThreadEvent) : Option Post := event.shown.bind Event.post

def ProgramEvent.thread? : ProgramEvent → Option ThreadEvent
  | .threads event _ => some event
  | .pool _ => none

def ProgramEvent.pool? : ProgramEvent → Option (PoolEvent Post)
  | .threads _ call => call
  | .pool event => some event

def threadEvents (events : List ProgramEvent) : List ThreadEvent := events.filterMap ProgramEvent.thread?

def poolEvents (events : List ProgramEvent) : List (PoolEvent Post) := events.filterMap ProgramEvent.pool?

def Move.isLocator : Move → Bool
  | .locator _ => true
  | .loader _ => false

namespace Program

/-- A move of a thread, with the call of `enqueue` if it posts a report. -/
def call (pool : ThreadPool Post) (done : ThreadEvent × Threads) : ProgramEvent × Program :=
  match done.1.post with
  | none => (.threads done.1 none, ⟨done.2, pool⟩)
  | some post => (.threads done.1 (some (pool.enqueue post).1), ⟨done.2, (pool.enqueue post).2⟩)

def step (p : Platform) (c : Config) (s : Program) : ProgramMove → Option (ProgramEvent × Program)
  | .threads move =>
    if move.isLocator ∧ s.pool.notifying ≠ 0 then none
    else (s.threads.step p c move).map (call s.pool)
  | .pool (.enqueue _) => none
  | .pool .destroy =>
    if s.threads.point = .left then
      (s.pool.step .destroy).map fun done => (.pool done.1, { s with pool := done.2 })
    else none
  | .pool a => (s.pool.step a).map fun done => (.pool done.1, { s with pool := done.2 })

def start (c : Config) (siteMap : SiteMap) (siteTimeMap : SiteTimeMap) : Program :=
  ⟨.start c siteMap siteTimeMap, .start postThreads⟩

end Program

abbrev ProgramRuns (p : Platform) (c : Config) (siteMap : SiteMap) (siteTimeMap : SiteTimeMap)
    (events : List ProgramEvent) (s : Program) : Prop :=
  Machine.Reaches (Program.step p c) (Program.start c siteMap siteTimeMap) events s

def reported (events : List ProgramEvent) : List Post := posts (locatorEvents (threadEvents events))

section Inversion

variable {p : Platform} {c : Config} {s next : Program} {move : ProgramMove} {event : ProgramEvent}

inductive Program.Steps (p : Platform) (c : Config) (s : Program) : ProgramMove → ProgramEvent → Program → Prop where
  | silent (move : Move) (event : ThreadEvent) (threads : Threads)
      (stepped : s.threads.step p c move = some (event, threads)) (nothing : event.post = none) :
      Steps p c s (.threads move) (.threads event none) ⟨threads, s.pool⟩
  | posted (move : Move) (event : ThreadEvent) (threads : Threads)
      (stepped : s.threads.step p c move = some (event, threads)) (post : Post) (posts : event.post = some post) :
      Steps p c s (.threads move) (.threads event (some (s.pool.enqueue post).1)) ⟨threads, (s.pool.enqueue post).2⟩
  | pool (a : PoolAction Post) (event : PoolEvent Post) (pool : ThreadPool Post)
      (stepped : s.pool.step a = some (event, pool)) (called : ∀ post, a ≠ .enqueue post)
      (ended : a = .destroy → s.threads.point = .left) :
      Steps p c s (.pool a) (.pool event) ⟨s.threads, pool⟩

theorem program_cases (stepped : s.step p c move = some (event, next)) : s.Steps p c move event next := by
  cases move with
  | threads move =>
    simp only [Program.step] at stepped
    split_ifs at stepped with blocked
    obtain ⟨⟨shown, threads⟩, moved, done⟩ := Option.map_eq_some_iff.mp stepped
    simp only [Program.call] at done
    split at done
    · rename_i nothing
      cases done
      exact .silent move shown threads moved nothing
    · rename_i post posts
      cases done
      exact .posted move shown threads moved post posts
  | pool a =>
    cases a with
    | enqueue task => simp [Program.step] at stepped
    | destroy =>
      simp only [Program.step] at stepped
      split_ifs at stepped with left
      obtain ⟨⟨shown, pool⟩, acted, done⟩ := Option.map_eq_some_iff.mp stepped
      cases done
      exact .pool _ shown pool acted (by simp) (fun _ => left)
    | notifyOne woken | lock i | finish i | wakeUp i | notifyAll | join =>
      obtain ⟨⟨shown, pool⟩, acted, done⟩ := Option.map_eq_some_iff.mp stepped
      cases done
      exact .pool _ shown pool acted (by simp) (by simp)

end Inversion

section Projections

variable {p : Platform} {c : Config} {siteMap : SiteMap} {siteTimeMap : SiteTimeMap}
  {events : List ProgramEvent} {s next : Program} {move : ProgramMove} {event : ProgramEvent}

theorem threadEvents_snoc (events : List ProgramEvent) (event : ProgramEvent) :
    threadEvents (events ++ [event]) = threadEvents events ++ event.thread?.toList :=
  Machine.filterMap_snoc _ events event

theorem poolEvents_snoc (events : List ProgramEvent) (event : ProgramEvent) :
    poolEvents (events ++ [event]) = poolEvents events ++ event.pool?.toList :=
  Machine.filterMap_snoc _ events event

theorem reported_snoc (events : List ProgramEvent) (event : ProgramEvent) :
    reported (events ++ [event]) = reported events ++ (event.thread?.bind ThreadEvent.post).toList := by
  rw [reported, threadEvents_snoc]
  cases event with
  | pool => simp [ProgramEvent.thread?, reported]
  | threads event =>
    simp only [ProgramEvent.thread?, Option.toList_some, locatorEvents_snoc, Option.bind_some, reported, posts,
      List.filterMap_append, ThreadEvent.post]
    cases shown : event.shown with
    | none => simp
    | some event => cases posted : event.post <;> simp [posted]

/-- Seen from the two threads the pool is not there. -/
theorem program_threads (reached : ProgramRuns p c siteMap siteTimeMap events s) :
    Interleaves p c siteMap siteTimeMap (threadEvents events) s.threads := by
  apply reached.invariant fun shown s => Interleaves p c siteMap siteTimeMap (threadEvents shown) s.threads
  · exact Machine.Reaches.refl _
  · intro shown _ _ event _ _ ran stepped
    rw [threadEvents_snoc]
    cases program_cases stepped with
    | silent move event threads moved | posted move event threads moved => exact ran.snoc moved
    | pool => simpa [ProgramEvent.thread?] using ran

/-- Seen from the pool the threads only call it. -/
theorem program_pool (reached : ProgramRuns p c siteMap siteTimeMap events s) :
    PoolRuns postThreads (poolEvents events) s.pool := by
  apply reached.invariant fun shown s => PoolRuns postThreads (poolEvents shown) s.pool
  · exact Machine.Reaches.refl _
  · intro shown current _ event _ _ ran stepped
    rw [poolEvents_snoc]
    cases program_cases stepped with
    | silent => simpa [ProgramEvent.pool?] using ran
    | posted _ _ _ _ post => exact ran.snoc (a := .enqueue post) rfl
    | pool a event pool acted => exact ran.snoc acted

theorem post_process {threads : Threads} {move : Move} {event : ThreadEvent} {post : Post}
    (stepped : s.threads.step p c move = some (event, threads)) (posted : event.post = some post) :
    s.threads.point = .process := by
  cases threads_cases stepped with
  | pass now here => exact here
  | idle now here event l acted =>
    cases step_cases acted
    simp [ThreadEvent.post, ThreadEvent.shown, Event.post] at posted
  | load | going | ending | rest | leave | select | merge =>
    simp [ThreadEvent.post, ThreadEvent.shown, Event.post] at posted

theorem left_stays {threads threads' : Threads} {move : Move} {event : ThreadEvent}
    (stepped : threads.step p c move = some (event, threads')) (left : threads.point = .left) :
    threads'.point = .left := by
  cases threads_cases stepped with
  | load => exact left
  | going now here | ending now here | rest now here | leave now here => simp [left] at here
  | select now here | idle now here | merge now here | pass now here => simp [left] at here

/-- What the pool was given is what was reported, and it is stopped only after the loop. -/
structure Delivering (events : List ProgramEvent) (s : Program) : Prop where
  enqueued : enqueuedTasks (poolEvents events) = reported events
  accepted : ∀ post, PoolEvent.rejected post ∉ poolEvents events
  stopped : s.pool.stop = true → s.threads.point = .left

theorem program_delivering (reached : ProgramRuns p c siteMap siteTimeMap events s) : Delivering events s := by
  apply reached.invariant Delivering
  · exact ⟨rfl, fun _ => List.not_mem_nil, by simp [Program.start, ThreadPool.start]⟩
  · intro shown current _ event _ _ delivering stepped
    obtain ⟨enqueued, accepted, stopped⟩ := delivering
    cases program_cases stepped with
    | silent move event threads moved nothing =>
      refine ⟨?_, ?_, fun stop => left_stays moved (stopped stop)⟩
      · simpa [poolEvents_snoc, reported_snoc, ProgramEvent.pool?, ProgramEvent.thread?, nothing] using enqueued
      · simpa [poolEvents_snoc, ProgramEvent.pool?] using accepted
    | posted move event threads moved post posted =>
      have going : current.pool.stop = false := by
        apply Bool.eq_false_iff.mpr
        intro stop
        simp [post_process moved posted] at stopped
        simp [stop] at stopped
      have call : current.pool.enqueue post = (.enqueued post, { current.pool with
          tasks := current.pool.tasks ++ [post], notifying := current.pool.notifying + 1 }) := by
        simp [ThreadPool.enqueue, going]
      refine ⟨?_, ?_, fun stop => ?_⟩
      · rw [poolEvents_snoc, reported_snoc, call]
        simp [ProgramEvent.pool?, ProgramEvent.thread?, ThreadPool.enqueuedTasks_snoc, PoolEvent.enqueued?,
          enqueued, posted]
      · simpa [poolEvents_snoc, ProgramEvent.pool?, call] using accepted
      · rw [call] at stop
        simp [going] at stop
    | pool a event pool acted called ended =>
      obtain ⟨unqueued, kept⟩ : event.enqueued? = none ∧ ∀ post, event ≠ .rejected post := by
        cases a with
        | enqueue task => exact absurd rfl (called task)
        | notifyOne | lock | finish | wakeUp | destroy | notifyAll | join =>
          cases ThreadPool.step_cases acted <;> exact ⟨rfl, by simp⟩
      refine ⟨?_, ?_, fun stop => ?_⟩
      · rw [poolEvents_snoc, reported_snoc]
        simp [ProgramEvent.pool?, ProgramEvent.thread?, ThreadPool.enqueuedTasks_snoc, unqueued, enqueued]
      · intro post
        simpa [poolEvents_snoc, ProgramEvent.pool?, accepted post] using (kept post).symm
      · by_cases ends : a = .destroy
        · exact ended ends
        · apply stopped
          cases ThreadPool.step_cases acted with
          | destroy => exact absurd rfl ends
          | _ => exact stop

end Projections

section Ending

variable {p : Platform} {c : Config} {siteMap : SiteMap} {siteTimeMap : SiteTimeMap}
  {events : List ThreadEvent} {s next : Threads} {move : Move} {event : ThreadEvent}

def insertedTriggers (events : List ThreadEvent) : List TriggerInfo := events.flatMap ThreadEvent.inserted

/-- What every inserted trigger satisfies, every trigger on the table and in the queue does. -/
theorem interleaves_from {property : TriggerInfo → Prop}
    (reached : Interleaves p c siteMap siteTimeMap events s) (loaded : ∀ x ∈ insertedTriggers events, property x) :
    (∀ x ∈ s.shared.transTriggers, property x) ∧ ∀ x ∈ s.locator.allTriggers, property x := by
  refine reached.invariant (fun shown s => (∀ x ∈ insertedTriggers shown, property x) →
    (∀ x ∈ s.shared.transTriggers, property x) ∧ ∀ x ∈ s.locator.allTriggers, property x) ?_ ?_ loaded
  · exact fun _ => ⟨fun x member => absurd member List.not_mem_nil, fun x member => absurd member List.not_mem_nil⟩
  · intro shown current move event next _ holds stepped loaded
    rw [insertedTriggers, List.flatMap_append, List.flatMap_singleton] at loaded
    obtain ⟨table, queue⟩ := holds fun x member => loaded x (List.mem_append_left _ member)
    cases threads_cases stepped with
    | load reply event shared loader load =>
      cases load with
      | history | current | last | more => exact ⟨table, queue⟩
      | insert cache =>
        refine ⟨fun x member => ?_, queue⟩
        rcases List.mem_append.mp (KeyedSort.sortUnique_subset p.sorter member) with old | new
        · exact table x old
        · exact loaded x (List.mem_append_right _ new)
    | going | ending | rest | leave | select => exact ⟨table, queue⟩
    | idle now here event l acted =>
      cases step_cases acted with
      | idle => exact ⟨table, queue⟩
    | merge now here =>
      refine ⟨fun x member => absurd member List.not_mem_nil, fun x member => ?_⟩
      rcases mem_merge member with old | ⟨new, -⟩
      · exact queue x old
      · exact table x new
    | pass now here event l acted =>
      refine ⟨table, fun x member => ?_⟩
      cases step_cases acted with
      | pass now baseTrig rest verdict next busy head passed =>
        exact queue x ((passed.sublist head).subset member)

def Threads.work (s : Threads) : ℕ :=
  let queue := s.locator.allTriggers.length
  let batch := s.shared.transTriggers.length
  match s.point with
  | .left => 0
  | .readSize => if batch = 0 then 1 else queue + batch + 6
  | .readLoading => if batch = 0 then 2 else queue + batch + 7
  | .branch => if batch = 0 then 3 else queue + batch + 5
  | .merge => queue + batch + 4
  | .process => if batch = 0 then queue + 3 else 2 * queue + batch + 8

theorem merge_length (transTriggers : List TriggerInfo) (l : Locator) :
    (l.merge p transTriggers).allTriggers.length ≤ l.allTriggers.length + transTriggers.length := by
  have admitted := List.length_filter_le
    (fun trigger : TriggerInfo => trigger.time.gt l.currentProcessingTime) transTriggers
  have united : (KeyedSort.sortUnique p.sorter TriggerInfo.eq
      (l.allTriggers ++ transTriggers.filter fun trigger => trigger.time.gt l.currentProcessingTime)).length ≤ _ :=
    KeyedSort.length_sortUnique_le p.sorter _
  rw [List.length_append] at united
  simp only [Locator.merge]
  omega

/-- The locating thread waits only when nothing is on the table. -/
theorem idle_empty {now : ℤ} {shown : Event} (here : s.point = .branch)
    (stepped : s.step p c (.locator now) = some (.locator shown, next)) : s.shared.transTriggers = [] := by
  by_contra more
  simp [Threads.step, Threads.locate, here, more] at stepped

theorem move_work (coupled : Coupled s) (unset : ∀ x ∈ s.locator.allTriggers, x.trigIdx = 0)
    (sentinel : c.locThresholdInitial ≤ Params.floatMax) (stopped : s.loader.point = .stopped)
    (stepped : s.step p c move = some (event, next)) : next.work < s.work ∧ next.loader.point = .stopped := by
  cases threads_cases stepped with
  | load reply event shared loader loaded => cases loaded <;> simp_all
  | going now here loading => simp [coupled.stopped.mpr stopped] at loading
  | ending now here =>
    refine ⟨?_, stopped⟩
    simp only [Threads.work, here]
    split_ifs <;> omega
  | rest now here more =>
    have positive := List.length_pos_iff.mpr more
    refine ⟨?_, stopped⟩
    simp only [Threads.work, here]
    split_ifs <;> omega
  | leave now here =>
    refine ⟨?_, stopped⟩
    simp only [Threads.work, here]
    split_ifs <;> omega
  | select now here more =>
    have positive := List.length_pos_iff.mpr more
    refine ⟨?_, stopped⟩
    simp only [Threads.work, here]
    split_ifs <;> omega
  | idle now here event l acted =>
    have empty := idle_empty here stepped
    refine ⟨?_, stopped⟩
    cases step_cases acted with
    | idle => simp [Threads.work, here, empty]
  | merge now here =>
    have fewer := merge_length (p := p) s.shared.transTriggers s.locator
    refine ⟨?_, stopped⟩
    rcases busy : (s.locator.merge p s.shared.transTriggers).busy with _ | _ <;>
      simp only [Threads.work, here, Locator.next, busy, if_true, if_false, Bool.false_eq_true, List.length_nil] <;>
      omega
  | pass now here event l acted =>
    refine ⟨?_, stopped⟩
    cases step_cases acted with
    | pass now baseTrig rest verdict l busy head passed =>
      rcases passed.progress unset sentinel head with ⟨free, same, -⟩ | ⟨-, shorter⟩
      · simp only [Threads.work, here, Locator.next, free, Bool.false_eq_true, if_false, same]
        split_ifs <;> omega
      · rcases busy : l.busy with _ | _ <;>
          simp only [Threads.work, here, Locator.next, busy, if_true, if_false, Bool.false_eq_true] <;>
          split_ifs <;> omega

theorem runs_busy {shown : List Event} {l : Locator} (reached : Runs p c siteMap siteTimeMap shown l) :
    l.busy = true → l.allTriggers ≠ [] := by
  apply reached.invariant fun _ l => l.busy = true → l.allTriggers ≠ []
  · simp [Locator.start]
  · intro _ current _ _ _ _ holds stepped
    cases step_cases stepped with
    | merge transTriggers => simp [Locator.merge]
    | idle => exact holds
    | pass now baseTrig rest verdict l busy head passed =>
      cases passed with
      | waiting => simp
      | isolated | few | rejected | located => simp [Locator.leave]

theorem locator_enabled (reached : Interleaves p c siteMap siteTimeMap events s) (staying : s.point ≠ .left)
    (now : ℤ) : (s.step p c (.locator now)).isSome = true := by
  have coupled := interleaves_coupled reached
  cases point : s.point with
  | readLoading | readSize | merge => simp [Threads.step, Threads.locate, point]
  | branch =>
    have free : s.locator.busy = false := Bool.eq_false_iff.mpr fun busy => by simp [coupled.busy.mp busy] at point
    by_cases more : s.shared.transTriggers = [] <;>
      simp [Threads.step, Threads.locate, point, more, Locator.step, free]
  | process =>
    have busy := coupled.busy.mpr point
    obtain ⟨verdict, l, passed⟩ := pass_total p c now (runs_busy (interleaves_runs reached) busy)
    simp [Threads.step, Threads.locate, point, Locator.step, busy, passed]
  | left => exact absurd point staying

/-- When the locating thread has left, it has examined everything that was inserted. -/
theorem left_examined (reached : Interleaves p c siteMap siteTimeMap events s) (left : s.point = .left) :
    ∀ key ∈ insertedKeys events, key ∈ examinedKeys events := by
  intro key inserted
  have handed := (interleaves_handover reached key).mp inserted
  simpa [(interleaves_coupled reached).left left] using handed

end Ending

/-- Moves that neither the server nor chance has to bring. -/
def ProgramMove.own : ProgramMove → Bool
  | .threads (.locator _) => true
  | .threads (.loader _) => false
  | .pool .destroy => true
  | .pool a => a.own

def ProgramEvent.isSpurious : ProgramEvent → Bool
  | .threads _ _ => false
  | .pool event => event.isSpurious

namespace Program

variable {p : Platform} {c : Config} {siteMap : SiteMap} {siteTimeMap : SiteTimeMap}
  {events : List ProgramEvent} {s next : Program} {move : ProgramMove} {event : ProgramEvent}

def Active (p : Platform) (c : Config) (s : Program) : Prop :=
  ∃ move, move.own = true ∧ (s.step p c move).isSome = true

def work (s : Program) : ℕ := 6 * s.threads.work + s.pool.work

theorem pool_active (active : ∃ a : PoolAction Post, a.own = true ∧ (s.pool.step a).isSome = true) : s.Active p c := by
  obtain ⟨a, own, enabled⟩ := active
  refine ⟨.pool a, ?_, ?_⟩
  · cases a <;> first | exact own | rfl
  · cases a with
    | enqueue | destroy | wakeUp => simp [PoolAction.own] at own
    | notifyOne | lock | finish | notifyAll | join => simpa [step] using enabled

theorem notify_active (due : s.pool.notifying ≠ 0) : s.Active p c := by
  apply pool_active
  by_cases asleep : Worker.waiting ∈ s.pool.workers
  · obtain ⟨i, here⟩ := List.mem_iff_getElem?.mp asleep
    exact ⟨.notifyOne (some i), rfl, by simp [ThreadPool.step, ThreadPool.notifyOne, due, here]⟩
  · have nobody : s.pool.workers.any Worker.isWaiting = false :=
      Bool.eq_false_iff.mpr fun waits => asleep ((ThreadPool.any_isWaiting _).mp waits)
    exact ⟨.notifyOne none, rfl, by simp [ThreadPool.step, ThreadPool.notifyOne, due, nobody]⟩

/-- The program stands still only after `ThreadLoc` has returned. -/
theorem active (reached : ProgramRuns p c siteMap siteTimeMap events s)
    (live : ¬(s.threads.point = .left ∧ s.pool.Destroyed)) : s.Active p c := by
  by_cases due : s.pool.notifying = 0
  · by_cases left : s.threads.point = .left
    · have destroyed : ¬ s.pool.Destroyed := fun done => live ⟨left, done⟩
      cases stop : s.pool.stop with
      | true =>
        exact pool_active (ThreadPool.stopped_active (ThreadPool.runs_orderly (program_pool reached)) stop destroyed)
      | false =>
        have inUse : s.pool.owner = .inUse := by
          by_contra busy
          have stopped := (ThreadPool.runs_orderly (program_pool reached)).stopped.mpr busy
          simp [stop] at stopped
        exact ⟨.pool .destroy, rfl, by simp [step, left, ThreadPool.step, inUse]⟩
    · refine ⟨.threads (.locator 0), rfl, ?_⟩
      simp only [step, due, ne_eq, not_true_eq_false, and_false, if_false, Option.isSome_map]
      exact locator_enabled (program_threads reached) left 0
  · exact notify_active due

/-- With the loader stopped every move uses up work, but for spurious wake-ups. -/
theorem steps_work (coupled : Coupled s.threads) (unset : ∀ x ∈ s.threads.locator.allTriggers, x.trigIdx = 0)
    (sentinel : c.locThresholdInitial ≤ Params.floatMax) (stopped : s.threads.loader.point = .stopped)
    (stepped : s.step p c move = some (event, next)) :
    next.threads.loader.point = .stopped ∧ next.work + 1 ≤ s.work + if event.isSpurious then 2 else 0 := by
  cases program_cases stepped with
  | silent move event threads moved =>
    obtain ⟨less, still⟩ := move_work coupled unset sentinel stopped moved
    refine ⟨still, ?_⟩
    simp only [work]
    omega
  | posted move event threads moved post =>
    obtain ⟨less, still⟩ := move_work coupled unset sentinel stopped moved
    have called : (s.pool.enqueue post).2.work + 1 ≤ s.pool.work + (s.pool.enqueue post).1.allowance :=
      ThreadPool.steps_work (a := .enqueue post) (ThreadPool.step_cases rfl)
    have allowance : (s.pool.enqueue post).1.allowance ≤ 5 := by
      unfold ThreadPool.enqueue
      split_ifs <;> simp [PoolEvent.allowance]
    refine ⟨still, ?_⟩
    simp only [work]
    omega
  | pool a event pool acted called =>
    have used := ThreadPool.steps_work (ThreadPool.step_cases acted)
    have allowance : event.allowance ≤ if event.isSpurious then 2 else 0 := by
      cases a with
      | enqueue task => exact absurd rfl (called task)
      | notifyOne | lock | finish | wakeUp | destroy | notifyAll | join =>
        cases ThreadPool.step_cases acted <;> simp [PoolEvent.allowance, PoolEvent.isSpurious]
    refine ⟨stopped, ?_⟩
    change 6 * s.threads.work + pool.work + 1 ≤ 6 * s.threads.work + s.pool.work + if event.isSpurious then 2 else 0
    omega

theorem continued_work {later : List ProgramEvent} {t : Program}
    (reached : ProgramRuns p c siteMap siteTimeMap events s)
    (unset : ∀ x ∈ insertedTriggers (threadEvents events), x.trigIdx = 0)
    (sentinel : c.locThresholdInitial ≤ Params.floatMax) (stopped : s.threads.loader.point = .stopped)
    (continued : Machine.Reaches (step p c) s later t) :
    insertedTriggers (threadEvents later) = [] ∧ t.threads.loader.point = .stopped ∧
    (later.filter fun event => !event.isSpurious).length + t.work ≤
      s.work + (later.filter ProgramEvent.isSpurious).length := by
  apply continued.invariant fun shown t => insertedTriggers (threadEvents shown) = [] ∧
    t.threads.loader.point = .stopped ∧ (shown.filter fun event => !event.isSpurious).length + t.work ≤
      s.work + (shown.filter ProgramEvent.isSpurious).length
  · exact ⟨rfl, stopped, by simp⟩
  · intro shown current move event next ran holds stepped
    obtain ⟨nothing, still, bound⟩ := holds
    have whole := reached.trans ran
    have inserted : insertedTriggers (threadEvents (events ++ shown)) = insertedTriggers (threadEvents events) := by
      simpa [threadEvents, insertedTriggers] using nothing
    have fresh := (interleaves_from (program_threads whole) (inserted.symm ▸ unset)).2
    obtain ⟨still', used⟩ :=
      steps_work (interleaves_coupled (program_threads whole)) fresh sentinel still stepped
    refine ⟨?_, still', ?_⟩
    · rw [threadEvents_snoc, insertedTriggers, List.flatMap_append, ← insertedTriggers, nothing, List.nil_append]
      have quiet {threads : Threads} {m : Move} {shown : ThreadEvent}
          (moved : current.threads.step p c m = some (shown, threads)) : shown.inserted = [] := by
        cases threads_cases moved with
        | load reply event shared loader loaded => cases loaded <;> first | rfl | simp_all
        | going | ending | rest | leave | select | idle | merge | pass => rfl
      cases program_cases stepped with
      | silent _ _ _ moved | posted _ _ _ moved => simp [ProgramEvent.thread?, quiet moved]
      | pool => rfl
    · simp only [List.filter_append, List.length_append]
      cases spurious : event.isSpurious <;>
        simp only [spurious, List.filter_cons, Bool.not_true, Bool.not_false, if_true, if_false, Bool.false_eq_true,
          List.filter_nil, List.length_singleton, List.length_nil] at used ⊢ <;> omega

end Program

namespace Sample

def runProgram (moves : List ProgramMove) : Option (List ProgramEvent × Program) :=
  Machine.run (Program.step (platform prefersLate) config) (Program.start config siteMap siteTimeMap) moves

def reporting : List ProgramMove :=
  (handedOver.take 6).map .threads ++ [.pool (.notifyOne none), .pool (.lock 0), .pool (.finish 0)] ++
    ((handedOver.drop 6).take 4).map .threads

def returning : List ProgramMove :=
  (handedOver.drop 10).map .threads ++ [.pool .destroy, .pool .notifyAll] ++
    (List.range postThreads).map (fun i => .pool (.lock i)) ++
    (List.range postThreads).map (fun _ => .pool .join)

end Sample

/-- What is reported is delivered: in every interleaving of the two threads and the pool,
the reports are the posts begun, in the order they were located, followed by those still
queued; each post begun is under way or done, and none is refused. The pool is destroyed
only after the loop is left, and then every report has been posted once. -/
theorem reports_delivered {p : Platform} {c : Config} {siteMap : SiteMap} {siteTimeMap : SiteTimeMap}
    {events : List ProgramEvent} {s : Program} (reached : ProgramRuns p c siteMap siteTimeMap events s) :
    reported events = startedTasks (poolEvents events) ++ s.pool.tasks ∧
    (startedTasks (poolEvents events)).Perm (finishedTasks (poolEvents events) ++ s.pool.runningTasks) ∧
    (∀ post, PoolEvent.rejected post ∉ poolEvents events) ∧
    (s.pool.Destroyed → s.threads.point = .left ∧ (finishedTasks (poolEvents events)).Perm (reported events)) := by
  obtain ⟨enqueued, accepted, stopped⟩ := program_delivering reached
  obtain ⟨order, once⟩ := ThreadPool.runs_accounted (program_pool reached)
  have orderly := ThreadPool.runs_orderly (program_pool reached)
  rw [enqueued] at order
  refine ⟨order, once, accepted, fun destroyed => ?_⟩
  have stop : s.pool.stop = true := by
    apply orderly.stopped.mpr
    rw [show s.pool.owner = _ from destroyed]
    simp
  obtain ⟨empty, idle⟩ := ThreadPool.destroyed_empty orderly (by decide) destroyed
  rw [empty, List.append_nil] at order
  rw [idle, List.append_nil] at once
  exact ⟨stopped stop, order ▸ once.symm⟩

theorem reports_delivered_run : ∃ events s,
    ProgramRuns (Sample.platform Sample.prefersLate) Sample.config Sample.siteMap Sample.siteTimeMap events s ∧
    s.pool.Destroyed ∧ (reported events).length = 1 ∧ s.threads.point = .left ∧
    (finishedTasks (poolEvents events)).Perm (reported events) := by
  obtain ⟨⟨events, s⟩, ran, shown⟩ := Option.map_eq_some_iff.mp
    (show (Sample.runProgram (Sample.reporting ++ Sample.returning)).map
      (fun r => (decide r.2.pool.Destroyed, (reported r.1).length)) = some (true, 1) by decide +kernel)
  obtain ⟨destroyed, one⟩ := Prod.mk.inj shown
  have destroyed := of_decide_eq_true destroyed
  obtain ⟨-, -, -, delivered⟩ := reports_delivered ⟨_, ran⟩
  exact ⟨events, s, ⟨_, ran⟩, destroyed, one, delivered destroyed⟩

/-- The program ends: from any state in which nothing is loaded any more only boundedly
many moves are left, spurious wake-ups aside, whatever the clock shows and in whatever
order the moves come; and where none is left `ThreadLoc` has returned, every inserted
trigger has been examined and every report posted once. -/
theorem program_ends {p : Platform} {c : Config} {siteMap : SiteMap} {siteTimeMap : SiteTimeMap}
    {events later : List ProgramEvent} {s t : Program} (reached : ProgramRuns p c siteMap siteTimeMap events s)
    (unset : ∀ x ∈ insertedTriggers (threadEvents events), x.trigIdx = 0)
    (sentinel : c.locThresholdInitial ≤ Params.floatMax) (loaded : s.threads.shared.keepLoading = false)
    (continued : Machine.Reaches (Program.step p c) s later t) :
    (later.filter fun event => !event.isSpurious).length ≤ s.work + (later.filter ProgramEvent.isSpurious).length ∧
    (¬ t.Active p c → t.threads.point = .left ∧ t.pool.Destroyed ∧
      (∀ key ∈ insertedKeys (threadEvents (events ++ later)), key ∈ examinedKeys (threadEvents (events ++ later))) ∧
      (finishedTasks (poolEvents (events ++ later))).Perm (reported (events ++ later))) := by
  have stopped := (interleaves_coupled (program_threads reached)).stopped.mp loaded
  obtain ⟨-, -, bound⟩ := Program.continued_work reached unset sentinel stopped continued
  refine ⟨by omega, fun still => ?_⟩
  have whole := reached.trans continued
  have ⟨left, destroyed⟩ : t.threads.point = .left ∧ t.pool.Destroyed := by
    by_contra live
    exact still (Program.active whole live)
  obtain ⟨empty, idle⟩ :=
    ThreadPool.destroyed_empty (ThreadPool.runs_orderly (program_pool whole)) (by decide) destroyed
  obtain ⟨order, once⟩ := ThreadPool.runs_accounted (program_pool whole)
  rw [(program_delivering whole).enqueued, empty, List.append_nil] at order
  rw [idle, List.append_nil] at once
  exact ⟨left, destroyed, left_examined (program_threads whole) left, order ▸ once.symm⟩

theorem program_ends_run : ∃ events later s t,
    ProgramRuns (Sample.platform Sample.prefersLate) Sample.config Sample.siteMap Sample.siteTimeMap events s ∧
    Machine.Reaches (Program.step (Sample.platform Sample.prefersLate) Sample.config) s later t ∧
    (reported (events ++ later)).length = 1 ∧
    (later.filter fun event => !event.isSpurious).length ≤ s.work + (later.filter ProgramEvent.isSpurious).length ∧
    (¬ t.Active (Sample.platform Sample.prefersLate) Sample.config →
      (finishedTasks (poolEvents (events ++ later))).Perm (reported (events ++ later))) := by
  obtain ⟨⟨all, t⟩, whole, one⟩ := Option.map_eq_some_iff.mp
    (show (Sample.runProgram (Sample.reporting ++ Sample.returning)).map (fun r => (reported r.1).length) = some 1 by
      decide +kernel)
  obtain ⟨before, s, later, ran, continued, rfl⟩ := Machine.run_append.mp whole
  have shown : (Sample.runProgram Sample.reporting).map (fun r =>
      (r.2.threads.shared.keepLoading, (insertedTriggers (threadEvents r.1)).all fun x => x.trigIdx = 0)) =
      some (false, true) := by decide +kernel
  rw [Sample.runProgram, ran] at shown
  obtain ⟨loaded, unset⟩ := Prod.mk.inj (Option.some.inj shown)
  obtain ⟨bound, ends⟩ := program_ends ⟨_, ran⟩ (by simpa using unset) (by decide +kernel) loaded ⟨_, continued⟩
  exact ⟨before, later, s, t, ⟨_, ran⟩, ⟨_, continued⟩, one, bound, fun still => (ends still).2.2.2⟩

end LigDataParsing
