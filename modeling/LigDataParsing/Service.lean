import LigDataParsing.Delivery
import LigDataParsing.Feed
import LigDataParsing.Stations

/-! The running program with the world around it: the servers the loader downloads from, and
the file system, the database and the broker its posts go to. Each worker of the pool sends
its post step by step, between the moves of the threads and of the other workers. -/
namespace LigDataParsing

structure Service where
  threads : Threads
  crew : Crew Post Sending SendEffect

inductive ServiceMove where
  | fed (move : FedMove)
  /-- A step inside the post of a worker, and what it is answered. -/
  | act (i : ℕ) (answer : Answer)

structure ServiceEvent where
  fed : Option FedEvent
  crew : Option (CrewEvent Post Sending SendEffect)

def ServiceEvent.isSpurious (event : ServiceEvent) : Bool := event.fed.any fun shown => shown.event.isSpurious

def fedEvents (events : List ServiceEvent) : List FedEvent := events.filterMap ServiceEvent.fed

def crewEvents (events : List ServiceEvent) : List (CrewEvent Post Sending SendEffect) :=
  events.filterMap ServiceEvent.crew

def ServiceEvent.posts (events : List ServiceEvent) : List Post := reported (programEvents (fedEvents events))

namespace Service

def program (s : Service) : Program := ⟨s.threads, s.crew.pool⟩

def start (c : Config) (siteMap : SiteMap) (siteTimeMap : SiteTimeMap) : Service :=
  ⟨.start c siteMap siteTimeMap, .start postThreads⟩

section Step

variable {Value : Type} (api : LigDataApi Value) (p : Platform) (c : Config) (w : Poster)

/-- A worker finishes its task when the post is sent, and not before. -/
def step (s : Service) : ServiceMove → Option (ServiceEvent × Service)
  | .fed (.pool (.finish i)) => (s.crew.finish w.body i).map fun done =>
    (⟨done.1.pool?.map fun event => ⟨.pool event, []⟩, some done.1⟩, ⟨s.threads, done.2⟩)
  | .fed move => (s.program.fedStep api p c move).map fun done =>
    (⟨some done.1, done.1.event.pool?.map .pool⟩,
      ⟨done.2.threads, done.2.pool, done.1.event.pool?.elim s.crew.current (Crew.begun w.body s.crew.current)⟩)
  | .act i answer => (s.crew.act w.body i answer).map fun done => (⟨none, some done.1⟩, ⟨s.threads, done.2⟩)

end Step

end Service

abbrev ServiceRuns {Value : Type} (api : LigDataApi Value) (p : Platform) (c : Config) (w : Poster)
    (siteMap : SiteMap) (siteTimeMap : SiteTimeMap) (events : List ServiceEvent) (s : Service) : Prop :=
  Machine.Reaches (Service.step api p c w) (Service.start c siteMap siteTimeMap) events s

section Inversion

variable {Value : Type} {api : LigDataApi Value} {p : Platform} {c : Config} {w : Poster} {s next : Service}
  {move : ServiceMove} {event : ServiceEvent}

inductive Service.Steps (api : LigDataApi Value) (p : Platform) (c : Config) (w : Poster) (s : Service) :
    ServiceEvent → Service → Prop where
  | fed (move : FedMove) (shown : FedEvent) (after : Program)
      (stepped : s.program.fedStep api p c move = some (shown, after)) (other : ∀ i, move ≠ .pool (.finish i)) :
      Steps api p c w s ⟨some shown, shown.event.pool?.map .pool⟩
        ⟨after.threads, after.pool, shown.event.pool?.elim s.crew.current (Crew.begun w.body s.crew.current)⟩
  | finish (i : ℕ) (done : Execution Post Sending SendEffect) (pool : ThreadPool Post) (event : PoolEvent Post)
      (held : s.crew.current[i]? = some (some done)) (ended : w.body.isOver done.state = true)
      (stepped : s.crew.pool.step (.finish i) = some (event, pool)) :
      Steps api p c w s ⟨some ⟨.pool (.finished i done.task), []⟩, some (.finished i done)⟩
        ⟨s.threads, pool, s.crew.current.set i none⟩
  | act (i : ℕ) (answer : Answer) (e : Execution Post Sending SendEffect) (effect : SendEffect) (state : Sending)
      (held : s.crew.current[i]? = some (some e)) (acted : w.body.step e.state answer = some (effect, state)) :
      Steps api p c w s ⟨none, some (.acted e.task effect)⟩
        ⟨s.threads, s.crew.pool, s.crew.current.set i (some ⟨e.task, e.trace ++ [effect], state⟩)⟩

theorem Service.step_fed {move : FedMove} (other : ∀ i, move ≠ .pool (.finish i)) :
    s.step api p c w (.fed move) = (s.program.fedStep api p c move).map fun done =>
      (⟨some done.1, done.1.event.pool?.map .pool⟩,
        ⟨done.2.threads, done.2.pool, done.1.event.pool?.elim s.crew.current (Crew.begun w.body s.crew.current)⟩) := by
  cases move with
  | loader | locator => rfl
  | pool a =>
    cases a with
    | finish i => exact absurd rfl (other i)
    | enqueue | notifyOne | lock | wakeUp | destroy | notifyAll | join => rfl

theorem service_cases (stepped : s.step api p c w move = some (event, next)) : s.Steps api p c w event next := by
  cases move with
  | act i answer =>
    obtain ⟨⟨shown, crew⟩, acted, done⟩ := Option.map_eq_some_iff.mp stepped
    cases done
    obtain ⟨e, effect, state, held, moved, rfl, rfl⟩ := act_cases acted
    exact .act i answer e effect state held moved
  | fed move =>
    by_cases finishes : ∃ i, move = .pool (.finish i)
    · obtain ⟨i, rfl⟩ := finishes
      obtain ⟨⟨shown, crew⟩, acted, done⟩ := Option.map_eq_some_iff.mp stepped
      cases done
      obtain ⟨done, event, pool, held, ended, moved, rfl, rfl⟩ := finish_cases acted
      exact .finish i done pool event held ended moved
    · have other : ∀ i, move ≠ .pool (.finish i) := fun i same => finishes ⟨i, same⟩
      rw [Service.step_fed other] at stepped
      obtain ⟨⟨shown, after⟩, acted, done⟩ := Option.map_eq_some_iff.mp stepped
      cases done
      exact .fed move shown after acted other

end Inversion

section Projections

variable {Value : Type} {api : LigDataApi Value} {p : Platform} {c : Config} {w : Poster} {siteMap : SiteMap}
  {siteTimeMap : SiteTimeMap} {events : List ServiceEvent} {s : Service}

theorem fedEvents_snoc (events : List ServiceEvent) (event : ServiceEvent) :
    fedEvents (events ++ [event]) = fedEvents events ++ event.fed.toList := Machine.filterMap_snoc _ events event

theorem crewEvents_snoc (events : List ServiceEvent) (event : ServiceEvent) :
    crewEvents (events ++ [event]) = crewEvents events ++ event.crew.toList := Machine.filterMap_snoc _ events event

/-- A move of the program that finishes no task is a call or a step of its pool, if it is one. -/
theorem fed_pool {s after : Program} {move : FedMove} {shown : FedEvent}
    (stepped : s.fedStep api p c move = some (shown, after)) (other : ∀ i, move ≠ .pool (.finish i)) :
    shown.event.pool? = none ∧ after.pool = s.pool ∨
    ∃ a event, shown.event.pool? = some event ∧ s.pool.step a = some (event, after.pool) ∧ ∀ i, a ≠ .finish i := by
  have threads {m : Move} {event : ProgramEvent} (moved : s.step p c (.threads m) = some (event, after)) :
      event.pool? = none ∧ after.pool = s.pool ∨
      ∃ a shown, event.pool? = some shown ∧ s.pool.step a = some (shown, after.pool) ∧ ∀ i, a ≠ .finish i := by
    cases program_cases moved with
    | silent => exact .inl ⟨rfl, rfl⟩
    | posted _ _ _ _ post => exact .inr ⟨.enqueue post, _, rfl, rfl, by simp⟩
  cases move with
  | loader server =>
    obtain ⟨⟨event, next⟩, moved, done⟩ := Option.map_eq_some_iff.mp stepped
    cases done
    exact threads moved
  | locator now =>
    obtain ⟨⟨event, next⟩, moved, done⟩ := Option.map_eq_some_iff.mp stepped
    cases done
    exact threads moved
  | pool a =>
    obtain ⟨⟨event, next⟩, moved, done⟩ := Option.map_eq_some_iff.mp stepped
    cases done
    cases program_cases moved with
    | pool a event pool acted => exact .inr ⟨a, event, rfl, acted, fun i same => other i (by rw [same])⟩

/-- Seen from the workers the threads only call the pool. -/
theorem service_crew (reached : ServiceRuns api p c w siteMap siteTimeMap events s) :
    CrewRuns w.body postThreads (crewEvents events) s.crew := by
  apply reached.invariant fun shown s => CrewRuns w.body postThreads (crewEvents shown) s.crew
  · exact Machine.Reaches.refl _
  · intro shown current move event next _ ran stepped
    rw [crewEvents_snoc]
    cases service_cases stepped with
    | finish i done pool event held ended acted =>
      exact ran.snoc (a := .pool (.finish i)) (by simp [Crew.step, Crew.finish, held, ended, acted])
    | act i answer e effect state held acted =>
      exact ran.snoc (a := .act i answer) (by simp [Crew.step, Crew.act, held, acted])
    | fed move shown after moved other =>
      rcases fed_pool moved other with ⟨nothing, same⟩ | ⟨a, event, does, acted, apart⟩
      · rw [nothing, same, Option.map_none, Option.toList_none, List.append_nil]
        exact ran
      · have acted : current.crew.pool.step a = some (event, after.pool) := acted
        rw [does]
        refine ran.snoc (a := .pool a) ?_
        rw [Crew.step_pool apart, acted]
        rfl

/-- What the pool does is the same seen from the program and from its workers. -/
theorem service_pool (reached : ServiceRuns api p c w siteMap siteTimeMap events s) :
    crewPool (crewEvents events) = poolEvents (programEvents (fedEvents events)) := by
  apply reached.invariant fun shown _ => crewPool (crewEvents shown) = poolEvents (programEvents (fedEvents shown))
  · rfl
  · intro shown current move event next _ same stepped
    rw [crewEvents_snoc, fedEvents_snoc, programEvents, List.map_append]
    rw [crewPool, List.filterMap_append, ← crewPool, poolEvents, List.filterMap_append, ← poolEvents, ← programEvents,
      same]
    congr 1
    cases service_cases stepped with
    | finish | act => rfl
    | fed move shown after moved other =>
      cases pool : shown.event.pool? <;> simp [pool, CrewEvent.pool?]

/-- Without the inside of the posts it is a run of the program on its servers. -/
theorem service_fed (reached : ServiceRuns api p c w siteMap siteTimeMap events s) :
    FedRuns api p c siteMap siteTimeMap (fedEvents events) s.program := by
  apply reached.invariant fun shown s => FedRuns api p c siteMap siteTimeMap (fedEvents shown) s.program
  · exact Machine.Reaches.refl _
  · intro shown current move event next before ran stepped
    rw [fedEvents_snoc]
    cases service_cases stepped with
    | fed move shown after moved => exact ran.snoc moved
    | act =>
      rw [Option.toList_none, List.append_nil]
      exact ran
    | finish i done pool event held ended acted =>
      obtain ⟨rfl, -⟩ := (crew_manned (service_crew before)).finishes held acted
      refine ran.snoc (a := .pool (.finish i)) ?_
      simp [Program.fedStep, Program.step, Service.program, acted]

end Projections

/-- Moves that only the clock, the pool and the answers of the world bring. -/
def ServiceMove.own : ServiceMove → Bool
  | .fed (.loader _) => false
  | .fed (.locator _) => true
  | .fed (.pool a) => (ProgramMove.pool a).own
  | .act _ _ => true

namespace Service

section Ending

variable {Value : Type} {api : LigDataApi Value} {p : Platform} {c : Config} {w : Poster} {siteMap : SiteMap}
  {siteTimeMap : SiteTimeMap} {events : List ServiceEvent} {s next : Service} {move : ServiceMove}
  {event : ServiceEvent}

def Active (api : LigDataApi Value) (p : Platform) (c : Config) (w : Poster) (s : Service) : Prop :=
  ∃ move, move.own = true ∧ (s.step api p c w move).isSome = true

def left : Option (Execution Post Sending SendEffect) → ℕ
  | none => 0
  | some e => e.state.point.left

def work (s : Service) : ℕ := 16 * s.program.work + (s.crew.current.map left).sum

theorem work_mk (threads : Threads) (pool : ThreadPool Post)
    (current : List (Option (Execution Post Sending SendEffect))) : (⟨threads, pool, current⟩ : Service).work =
      16 * (⟨threads, pool⟩ : Program).work + (current.map left).sum := rfl

theorem worker_active (reached : ServiceRuns api p c w siteMap siteTimeMap events s) {i : ℕ}
    (running : (s.crew.pool.step (.finish i)).isSome = true) : s.Active api p c w := by
  have manned := crew_manned (service_crew reached)
  obtain ⟨⟨event, pool⟩, acted⟩ := Option.isSome_iff_exists.mp running
  obtain ⟨task, stands⟩ : ∃ task, s.crew.pool.workers[i]? = some (.running task) := by
    cases ThreadPool.step_cases acted with
    | finish i task stands => exact ⟨task, stands⟩
  obtain ⟨e, held⟩ : ∃ e, s.crew.current[i]? = some (some e) := by
    have there : (s.crew.current.map (Option.map Execution.task))[i]? = some (some task) := by
      rw [manned.aligned, List.getElem?_map, stands]
      rfl
    rw [List.getElem?_map] at there
    obtain ⟨held, here, runs⟩ := Option.map_eq_some_iff.mp there
    obtain ⟨e, rfl, -⟩ := Option.map_eq_some_iff.mp runs
    exact ⟨e, here⟩
  by_cases ended : w.body.isOver e.state = true
  · exact ⟨.fed (.pool (.finish i)), rfl, by simp [step, Crew.finish, held, ended, acted]⟩
  · obtain ⟨answer, goes⟩ := sending_goes w.outputs ended
    refine ⟨.act i answer, rfl, ?_⟩
    simp only [step, Crew.act, held, Option.isSome_map]
    exact goes

theorem active (reached : ServiceRuns api p c w siteMap siteTimeMap events s)
    (live : ¬(s.threads.point = .left ∧ s.crew.pool.Destroyed)) : s.Active api p c w := by
  obtain ⟨move, own, enabled⟩ := Program.active (fed_program (service_fed reached)) live
  cases move with
  | threads move =>
    cases move with
    | loader reply => cases own
    | locator now =>
      refine ⟨.fed (.locator now), rfl, ?_⟩
      rw [step_fed (by simp), Option.isSome_map, Program.fedStep, Option.isSome_map]
      exact enabled
  | pool a =>
    by_cases finishes : ∃ i, a = .finish i
    · obtain ⟨i, rfl⟩ := finishes
      have enabled : ((s.crew.pool.step (.finish i)).map fun done =>
          (ProgramEvent.pool done.1, { s.program with pool := done.2 })).isSome = true := enabled
      rw [Option.isSome_map] at enabled
      exact worker_active reached enabled
    · refine ⟨.fed (.pool a), own, ?_⟩
      rw [step_fed (by simpa using fun i same => finishes ⟨i, same⟩), Option.isSome_map, Program.fedStep,
        Option.isSome_map]
      exact enabled

theorem left_begun (current : List (Option (Execution Post Sending SendEffect))) (event : Option (PoolEvent Post)) :
    ((event.elim current (Crew.begun w.body current)).map left).sum ≤ (current.map left).sum + 15 := by
  cases event with
  | none => exact Nat.le_add_right _ _
  | some event =>
    cases event with
    | started i task =>
      cases held : current[i]? with
      | none =>
        have outside : current.length ≤ i := List.getElem?_eq_none_iff.mp held
        simp only [Option.elim_some, Crew.begun, List.set_eq_of_length_le outside]
        exact Nat.le_add_right _ _
      | some old =>
        have moved := Slots.sum_map_set left held (some ⟨task, [], w.body.start task⟩)
        have whole : left (some ⟨task, [], w.body.start task⟩) = 15 := rfl
        simp only [Option.elim_some, Crew.begun]
        omega
    | enqueued | rejected | finished | spurious | silent => exact Nat.le_add_right _ _

theorem steps_work (reached : ServiceRuns api p c w siteMap siteTimeMap events s)
    (sentinel : c.locThresholdInitial ≤ Params.floatMax) (stopped : s.threads.loader.point = .stopped)
    (stepped : s.step api p c w move = some (event, next)) :
    next.threads.loader.point = .stopped ∧ next.work + 1 ≤ s.work + if event.isSpurious then 32 else 0 := by
  have fed := service_fed reached
  have threads := program_threads (fed_program fed)
  have fresh : ∀ x ∈ s.threads.locator.allTriggers, x.trigIdx = 0 :=
    (interleaves_from threads fun x member => ((fed_loading fed).inserted x member).unset).2
  have uses {m : ProgramMove} {shown : ProgramEvent} {after : Program}
      (moved : s.program.step p c m = some (shown, after)) :=
    Program.steps_work (interleaves_coupled threads) fresh sentinel stopped moved
  cases service_cases stepped with
  | fed move shown after moved =>
    have bound := left_begun (w := w) s.crew.current shown.event.pool?
    obtain ⟨still, used⟩ : after.threads.loader.point = .stopped ∧ (⟨after.threads, after.pool⟩ : Program).work + 1 ≤
        s.program.work + if shown.event.isSpurious then 2 else 0 := by
      cases fed_cases moved with
      | loader server event next moved => exact uses moved
      | locator now event next moved => exact uses moved
      | pool a event next moved => exact uses moved
    have same : ServiceEvent.isSpurious ⟨some shown, shown.event.pool?.map .pool⟩ = shown.event.isSpurious := rfl
    refine ⟨still, ?_⟩
    rw [same, work_mk, work]
    split_ifs at used ⊢ <;> omega
  | finish i done pool event held ended acted =>
    obtain ⟨rfl, -⟩ := (crew_manned (service_crew reached)).finishes held acted
    have ends : s.program.step p c (.pool (.finish i)) = some (.pool (.finished i done.task), ⟨s.threads, pool⟩) :=
      Option.map_eq_some_iff.mpr ⟨_, acted, rfl⟩
    obtain ⟨still, used⟩ := uses ends
    have used : (⟨s.threads, pool⟩ : Program).work + 1 ≤ s.program.work := used
    have moved := Slots.sum_map_set left held none
    have gone : left none = 0 := rfl
    refine ⟨still, ?_⟩
    rw [work_mk, work]
    omega
  | act i answer e effect state held acted =>
    have going := (crew_manned (service_crew reached)).going i e held
    obtain ⟨json, there, -⟩ := sending_run going
    obtain ⟨-, further⟩ := sending_cases acted
    have less := moved_left there (json ▸ further)
    have moved := Slots.sum_map_set left held (some ⟨e.task, e.trace ++ [effect], state⟩)
    have same : (⟨s.threads, s.crew.pool⟩ : Program).work = s.program.work := rfl
    refine ⟨stopped, ?_⟩
    rw [work_mk, work, same]
    simp only [left] at moved
    omega

theorem continued_work {later : List ServiceEvent} {t : Service}
    (reached : ServiceRuns api p c w siteMap siteTimeMap events s)
    (sentinel : c.locThresholdInitial ≤ Params.floatMax) (stopped : s.threads.loader.point = .stopped)
    (continued : Machine.Reaches (step api p c w) s later t) :
    t.threads.loader.point = .stopped ∧ (later.filter fun event => !event.isSpurious).length + t.work ≤
      s.work + 31 * (later.filter ServiceEvent.isSpurious).length := by
  apply continued.invariant fun shown t => t.threads.loader.point = .stopped ∧
    (shown.filter fun event => !event.isSpurious).length + t.work ≤
      s.work + 31 * (shown.filter ServiceEvent.isSpurious).length
  · exact ⟨stopped, by simp⟩
  · intro shown current move event next ran holds stepped
    obtain ⟨still, bound⟩ := holds
    obtain ⟨still', used⟩ := steps_work (reached.trans ran) sentinel still stepped
    refine ⟨still', ?_⟩
    simp only [List.filter_append, List.length_append]
    cases spurious : event.isSpurious <;>
      simp only [spurious, List.filter_cons, Bool.not_true, Bool.not_false, if_true, if_false, Bool.false_eq_true,
        List.filter_nil, List.length_singleton, List.length_nil] at used ⊢ <;> omega

/-- Behind the destructor every report has been sent once, and to the end. -/
theorem destroyed_sent (reached : ServiceRuns api p c w siteMap siteTimeMap events s)
    (destroyed : s.crew.pool.Destroyed) :
    ((executions (crewEvents events)).map Execution.task).Perm (ServiceEvent.posts events) ∧
    ∀ e ∈ executions (crewEvents events), Sent w.outputs (w.json e.task) e.trace := by
  have manned := crew_manned (service_crew reached)
  have enqueued := (program_delivering (fed_program (service_fed reached))).enqueued
  constructor
  · rw [ServiceEvent.posts, ← enqueued, ← service_pool reached]
    exact (manned.destroyed (by decide) destroyed).1
  · intro e member
    obtain ⟨ran, complete⟩ := manned.ended e member
    exact sending_over ran complete

end Ending

end Service

namespace Sample

def originSites : List StationInfo := [1, 2, 3, 4, 5].map fun id => ⟨id, "station", 0, 0, 0, "", true⟩

def simultaneousRows : List Json := [1, 2, 3, 4, 5].map fun id =>
  .array (([2024, 4, 20, 20, 5, 17, 500000000, id, 1024, 1536] : List ℕ).map fun n => .string (Nat.toDigits 10 n))

def servedApi : LigDataApi Json := ⟨apiLib simultaneousRows, triggerConfig⟩

def overOrigin : Platform := platform fun _ _ => ⟨0, 0, 3, 1 / 2, 17.5⟩

def oneLoad : Config := { config with endTime := .ofFields 24 4 20 20 20 0 0 }

def fiveEntry (id : ℕ) : List Char :=
  "\n      \x7b\n         \"id\" : ".toList ++ Nat.toDigits 10 id ++
    ",
         \"name\" : \"station\",
         \"peakCurrent\" : \"\",
         \"residual\" : -3.0,
         \"value\" : 1.25
      \x7d".toList

def fiveJson : List Char :=
  "\x7b
   \"ExpTag\" : \"TOA\",
   \"IDOfSta\" : \"1+2+3+4+5\",
   \"altitude\" : 3.0,
   \"datetime\" : \"2024-04-20 20:05:17\",
   \"infoOfSta\" : 
   [".toList ++ fiveEntry 1 ++ [2, 3, 4, 5].flatMap (fun id => ',' :: fiveEntry id) ++ "
   ],
   \"isDeleted\" : 0,
   \"latitude\" : 0.0,
   \"locationMethod\" : \"TOA\",
   \"longitude\" : 0.0,
   \"nameOfSta\" : \"station+station+station+station+station\",
   \"nano\" : 500000000.0,
   \"numOfSta\" : 5,
   \"peakCurrent\" : 7.5,
   \"residual\" : 0.5,
   \"time\" : \"240420200517.50000000\",
   \"type\" : \"IC\"
\x7d".toList

def servedPoster : Poster := { poster with writeString := fun _ => fiveJson }

/-- The download is merged and located, and no more is to be loaded. -/
def locating : List ServiceMove :=
  [.fed (.loader answers), .fed (.locator now), .fed (.loader answers), .fed (.loader answers), .fed (.locator now),
    .fed (.locator now), .fed (.locator now)]

/-- The first request to the database is lost. -/
def sendingFive : List ServiceMove :=
  [.fed (.pool (.notifyOne none)), .fed (.pool (.lock 0)), .act 0 (.file (some true)), .act 0 .go,
    .act 0 (.response false none), .act 0 .go, .act 0 (.response true (some 200)), .act 0 .go, .act 0 .go,
    .act 0 (.client false false), .act 0 (.publish false), .fed (.pool (.finish 0))]

def endingService : List ServiceMove :=
  [.fed (.locator now), .fed (.locator now), .fed (.pool .destroy), .fed (.pool .notifyAll)] ++
    (List.range postThreads).map (fun i => .fed (.pool (.lock i))) ++
    (List.range postThreads).map (fun _ => .fed (.pool .join))

def serve (moves : List ServiceMove) : Option (List ServiceEvent × Service) :=
  Machine.run (Service.step servedApi overOrigin oneLoad servedPoster)
    (Service.start oneLoad (siteMapOf originSites) (siteTimeMapOf overOrigin.libm originSites)) moves

end Sample

/-- The service ends: once nothing is loaded any more only boundedly many moves are left,
spurious wake-ups aside, whatever the clock shows, whatever the file system, the database and
the broker answer and in whatever order the moves come; and where none is left `ThreadLoc`
has returned, every inserted trigger has been examined, and every report has been sent to
the end by one worker. -/
theorem service_ends {Value : Type} {api : LigDataApi Value} {p : Platform} {c : Config} {w : Poster}
    {siteMap : SiteMap} {siteTimeMap : SiteTimeMap} {events later : List ServiceEvent} {s t : Service}
    (reached : ServiceRuns api p c w siteMap siteTimeMap events s) (sentinel : c.locThresholdInitial ≤ Params.floatMax)
    (loaded : s.threads.shared.keepLoading = false) (continued : Machine.Reaches (Service.step api p c w) s later t) :
    (later.filter fun event => !event.isSpurious).length ≤
      s.work + 31 * (later.filter ServiceEvent.isSpurious).length ∧
    (¬ t.Active api p c w → t.threads.point = .left ∧ t.crew.pool.Destroyed ∧
      (∀ key ∈ insertedKeys (threadEvents (programEvents (fedEvents (events ++ later)))),
        key ∈ examinedKeys (threadEvents (programEvents (fedEvents (events ++ later))))) ∧
      ((executions (crewEvents (events ++ later))).map Execution.task).Perm (ServiceEvent.posts (events ++ later)) ∧
      ∀ e ∈ executions (crewEvents (events ++ later)), Sent w.outputs (w.json e.task) e.trace) := by
  have coupled := interleaves_coupled (program_threads (fed_program (service_fed reached)))
  obtain ⟨-, bound⟩ := Service.continued_work reached sentinel (coupled.stopped.mp loaded) continued
  refine ⟨by omega, fun still => ?_⟩
  have whole := reached.trans continued
  have ⟨left, destroyed⟩ : t.threads.point = .left ∧ t.crew.pool.Destroyed := by
    by_contra live
    exact still (Service.active whole live)
  exact ⟨left, destroyed, left_examined (program_threads (fed_program (service_fed whole))) left,
    Service.destroyed_sent whole destroyed⟩

theorem service_ends_five : ∃ events later s t,
    ServiceRuns Sample.servedApi Sample.overOrigin Sample.oneLoad Sample.servedPoster (siteMapOf Sample.originSites)
      (siteTimeMapOf Sample.overOrigin.libm Sample.originSites) events s ∧
    Machine.Reaches (Service.step Sample.servedApi Sample.overOrigin Sample.oneLoad Sample.servedPoster) s later t ∧
    (ServiceEvent.posts (events ++ later)).length = 1 ∧ t.crew.pool.Destroyed ∧
    (later.filter fun event => !event.isSpurious).length ≤
      s.work + 31 * (later.filter ServiceEvent.isSpurious).length ∧
    (¬ t.Active Sample.servedApi Sample.overOrigin Sample.oneLoad Sample.servedPoster →
      ∀ e ∈ executions (crewEvents (events ++ later)),
        Sent Sample.servedPoster.outputs (Sample.servedPoster.json e.task) e.trace) := by
  obtain ⟨⟨all, t⟩, whole, shown⟩ := Option.map_eq_some_iff.mp
    (show (Sample.serve (Sample.locating ++ (Sample.sendingFive ++ Sample.endingService))).map (fun r =>
      ((ServiceEvent.posts r.1).length, decide r.2.crew.pool.Destroyed)) = some (1, true) by decide +kernel)
  obtain ⟨one, destroyed⟩ := Prod.mk.inj shown
  obtain ⟨before, s, later, ran, continued, rfl⟩ := Machine.run_append.mp whole
  have stopped : (Sample.serve Sample.locating).map (fun r => r.2.threads.shared.keepLoading) = some false := by
    decide +kernel
  rw [Sample.serve, ran] at stopped
  obtain ⟨bound, ends⟩ := service_ends ⟨_, ran⟩ (by decide +kernel) (Option.some.inj stopped) ⟨_, continued⟩
  exact ⟨before, later, s, t, ⟨_, ran⟩, ⟨_, continued⟩, one, of_decide_eq_true destroyed, bound,
    fun still => (ends still).2.2.2.2⟩

end LigDataParsing
