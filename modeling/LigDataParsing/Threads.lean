import LigDataParsing.Runs
import LigDataParsing.ThreadLoadData

/-! Both threads over the variables they share. A move is the next step of one thread:
a critical section under the lock, one read of a shared variable outside it, or a step on
the thread's own data. The order of the moves is open. -/
namespace LigDataParsing

inductive LocatorPoint where
  /-- The read of `keep_loading` in the outer condition. -/
  | readLoading
  /-- The read of `transTriggers.size()` after it, when `keep_loading` was false. -/
  | readSize
  /-- The test that selects between merging and waiting. -/
  | branch
  | merge
  | process
  | left
  deriving DecidableEq

structure Threads where
  shared : Shared
  loader : Loader
  point : LocatorPoint
  locator : Locator

/-- The next move of a thread, with the reply the server gives or the time the clock
shows if the step asks for one. -/
inductive Move where
  | loader (reply : List TriggerInfo)
  | locator (now : ℤ)

inductive ThreadEvent where
  | loader (event : LoaderEvent)
  | locator (event : Event)
  /-- A read of a shared variable by the locating thread. -/
  | read

def Locator.next (l : Locator) : LocatorPoint := if l.busy then .process else .readLoading

def Threads.locate (p : Platform) (c : Config) (now : ℤ) (s : Threads) : Option (ThreadEvent × Threads) :=
  match s.point with
  | .readLoading => some (.read, { s with point := if s.shared.keepLoading then .branch else .readSize })
  | .readSize => some (.read, { s with point := if s.shared.transTriggers ≠ [] then .branch else .left })
  | .branch =>
    if s.shared.transTriggers ≠ [] then some (.read, { s with point := .merge })
    else (s.locator.step p c .idle).map fun done =>
      (.locator done.1, { s with point := .readLoading, locator := done.2 })
  | .merge =>
    let l := s.locator.merge p s.shared.transTriggers
    some (.locator (.merge s.locator.allTriggers s.locator.currentProcessingTime s.shared.transTriggers),
      { s with shared := { s.shared with transTriggers := [] }, point := l.next, locator := l })
  | .process => (s.locator.step p c (.pass now)).map fun done =>
      (.locator done.1, { s with point := done.2.next, locator := done.2 })
  | .left => none

def Threads.step (p : Platform) (c : Config) (s : Threads) : Move → Option (ThreadEvent × Threads)
  | .loader reply => (s.loader.step p c reply s.shared).map fun done =>
      (.loader done.1, { s with shared := done.2.1, loader := done.2.2 })
  | .locator now => s.locate p c now

def Threads.start (c : Config) (siteMap : SiteMap) (siteTimeMap : SiteTimeMap) : Threads :=
  ⟨⟨[], true⟩, .start c, .readLoading, .start c siteMap siteTimeMap⟩

abbrev Interleaves (p : Platform) (c : Config) (siteMap : SiteMap) (siteTimeMap : SiteTimeMap)
    (events : List ThreadEvent) (s : Threads) : Prop :=
  Machine.Reaches (Threads.step p c) (Threads.start c siteMap siteTimeMap) events s

def ThreadEvent.inserted : ThreadEvent → List TriggerInfo
  | .loader (.insert cache) => cache
  | _ => []

def ThreadEvent.examined : ThreadEvent → List TriggerInfo
  | .locator (.merge _ _ transTriggers) => transTriggers
  | _ => []

def insertedKeys (events : List ThreadEvent) : List TriggerInfo.Key :=
  (events.flatMap ThreadEvent.inserted).map TriggerInfo.key

def examinedKeys (events : List ThreadEvent) : List TriggerInfo.Key :=
  (events.flatMap ThreadEvent.examined).map TriggerInfo.key

def ThreadEvent.shown : ThreadEvent → Option Event
  | .locator event => some event
  | _ => none

def locatorEvents (events : List ThreadEvent) : List Event := events.filterMap ThreadEvent.shown

section Inversion

variable {p : Platform} {c : Config} {s next : Threads} {move : Move} {event : ThreadEvent}

inductive Happens (p : Platform) (c : Config) (s : Threads) : Move → ThreadEvent → Threads → Prop where
  | load (reply : List TriggerInfo) (event : LoaderEvent) (shared : Shared) (loader : Loader)
      (loaded : Loaded p c reply s.shared s.loader event shared loader) :
      Happens p c s (.loader reply) (.loader event) { s with shared := shared, loader := loader }
  | going (now : ℤ) (here : s.point = .readLoading) (loading : s.shared.keepLoading = true) :
      Happens p c s (.locator now) .read { s with point := .branch }
  | ending (now : ℤ) (here : s.point = .readLoading) (done : s.shared.keepLoading = false) :
      Happens p c s (.locator now) .read { s with point := .readSize }
  | rest (now : ℤ) (here : s.point = .readSize) (more : s.shared.transTriggers ≠ []) :
      Happens p c s (.locator now) .read { s with point := .branch }
  | leave (now : ℤ) (here : s.point = .readSize) (empty : s.shared.transTriggers = []) :
      Happens p c s (.locator now) .read { s with point := .left }
  | select (now : ℤ) (here : s.point = .branch) (more : s.shared.transTriggers ≠ []) :
      Happens p c s (.locator now) .read { s with point := .merge }
  | idle (now : ℤ) (here : s.point = .branch) (event : Event) (l : Locator)
      (stepped : s.locator.step p c .idle = some (event, l)) :
      Happens p c s (.locator now) (.locator event) { s with point := .readLoading, locator := l }
  | merge (now : ℤ) (here : s.point = .merge) :
      Happens p c s (.locator now)
        (.locator (.merge s.locator.allTriggers s.locator.currentProcessingTime s.shared.transTriggers))
        ⟨⟨[], s.shared.keepLoading⟩, s.loader, (s.locator.merge p s.shared.transTriggers).next,
          s.locator.merge p s.shared.transTriggers⟩
  | pass (now : ℤ) (here : s.point = .process) (event : Event) (l : Locator)
      (stepped : s.locator.step p c (.pass now) = some (event, l)) :
      Happens p c s (.locator now) (.locator event) { s with point := l.next, locator := l }

theorem threads_cases (stepped : s.step p c move = some (event, next)) : Happens p c s move event next := by
  cases move with
  | loader reply =>
    obtain ⟨⟨shown, shared, loader⟩, loaded, done⟩ := Option.map_eq_some_iff.mp stepped
    cases done
    exact .load reply shown shared loader (loader_cases loaded)
  | locator now =>
    simp only [Threads.step, Threads.locate] at stepped
    cases point : s.point with
    | readLoading =>
      simp only [point] at stepped
      cases stepped
      cases loading : s.shared.keepLoading with
      | true => exact .going now point loading
      | false => exact .ending now point loading
    | readSize =>
      simp only [point] at stepped
      cases stepped
      split_ifs with more
      · exact .rest now point more
      · exact .leave now point (not_not.mp more)
    | branch =>
      simp only [point] at stepped
      split_ifs at stepped with more
      · cases stepped
        exact .select now point more
      · obtain ⟨⟨shown, l⟩, idle, done⟩ := Option.map_eq_some_iff.mp stepped
        cases done
        exact .idle now point shown l idle
    | merge =>
      simp only [point] at stepped
      cases stepped
      exact .merge now point
    | process =>
      simp only [point] at stepped
      obtain ⟨⟨shown, l⟩, pass, done⟩ := Option.map_eq_some_iff.mp stepped
      cases done
      exact .pass now point shown l pass
    | left => simp [point] at stepped

structure Coupled (s : Threads) : Prop where
  busy : s.locator.busy = true ↔ s.point = .process
  selected : s.point = .merge → s.shared.transTriggers ≠ []
  stopped : s.shared.keepLoading = false ↔ s.loader.point = .stopped
  ended : s.point = .readSize ∨ s.point = .left → s.shared.keepLoading = false
  left : s.point = .left → s.shared.transTriggers = []

theorem next_process (l : Locator) : l.busy = true ↔ l.next = .process := by
  cases busy : l.busy <;> simp [Locator.next, busy]

theorem next_inner (l : Locator) : l.next ≠ .merge ∧ l.next ≠ .readSize ∧ l.next ≠ .left := by
  cases busy : l.busy <;> simp [Locator.next, busy]

theorem insert_ne_nil (cache : List TriggerInfo) {shared : Shared} (nonempty : shared.transTriggers ≠ []) :
    (shared.insert p cache).transTriggers ≠ [] := by
  obtain ⟨x, rest, split⟩ := List.exists_cons_of_ne_nil nonempty
  have kept : x.key ∈ (shared.insert p cache).transTriggers.map TriggerInfo.key :=
    (keys_insert p cache shared x.key).mpr (.inl (by simp [split]))
  exact fun empty => by simp [empty] at kept

/-- Once the loader has stopped nothing but a merge changes `transTriggers`. -/
theorem load_coupled {reply : List TriggerInfo} {event : LoaderEvent} {shared : Shared} {loader : Loader}
    (coupled : Coupled s) (loaded : Loaded p c reply s.shared s.loader event shared loader) :
    Coupled { s with shared := shared, loader := loader } := by
  obtain ⟨busy, selected, stopped, ended, left⟩ := coupled
  cases loaded with
  | history here | current here =>
    have loading : s.shared.keepLoading ≠ false := fun done => by simp [stopped.mp done] at here
    exact ⟨busy, selected, by simpa using loading, ended, left⟩
  | insert cache here next goes =>
    have loading : s.shared.keepLoading ≠ false := fun done => by simp [stopped.mp done] at here
    have going : next ≠ .stopped := by
      rw [goes]
      split_ifs <;> simp
    refine ⟨busy, fun point => insert_ne_nil cache (selected point), iff_of_false loading going, ended, ?_⟩
    exact fun point => absurd (ended (.inr point)) loading
  | last here => exact ⟨busy, selected, by simp, fun _ => rfl, left⟩
  | more here =>
    have loading : s.shared.keepLoading ≠ false := fun done => by simp [stopped.mp done] at here
    exact ⟨busy, selected, by simpa using loading, ended, left⟩

theorem move_coupled (coupled : Coupled s) (happens : Happens p c s move event next) : Coupled next := by
  cases happens with
  | load reply event shared loader loaded => exact load_coupled coupled loaded
  | going now here | rest now here =>
    obtain ⟨busy, selected, stopped, ended, left⟩ := coupled
    rw [here] at busy
    exact ⟨by simpa using busy, by simp, stopped, by simp, by simp⟩
  | ending now here done =>
    obtain ⟨busy, selected, stopped, ended, left⟩ := coupled
    rw [here] at busy
    exact ⟨by simpa using busy, by simp, stopped, fun _ => done, by simp⟩
  | leave now here empty =>
    obtain ⟨busy, selected, stopped, ended, left⟩ := coupled
    rw [here] at busy
    exact ⟨by simpa using busy, by simp, stopped, fun _ => ended (.inl here), fun _ => empty⟩
  | select now here more =>
    obtain ⟨busy, selected, stopped, ended, left⟩ := coupled
    rw [here] at busy
    exact ⟨by simpa using busy, fun _ => more, stopped, by simp, by simp⟩
  | idle now here event l stepped =>
    obtain ⟨busy, selected, stopped, ended, left⟩ := coupled
    cases step_cases stepped with
    | idle warned free => exact ⟨by simp [free], by simp, stopped, by simp, by simp⟩
  | merge now here =>
    obtain ⟨notMerge, notSize, notLeft⟩ := next_inner (s.locator.merge p s.shared.transTriggers)
    refine ⟨next_process _, fun point => absurd point notMerge, coupled.stopped, ?_, fun _ => rfl⟩
    exact fun point => absurd point (not_or.mpr ⟨notSize, notLeft⟩)
  | pass now here event l stepped =>
    obtain ⟨notMerge, notSize, notLeft⟩ := next_inner l
    refine ⟨next_process _, fun point => absurd point notMerge, coupled.stopped, ?_,
      fun point => absurd point notLeft⟩
    exact fun point => absurd point (not_or.mpr ⟨notSize, notLeft⟩)

theorem move_located (coupled : Coupled s) (happens : Happens p c s move event next) :
    event.shown = none ∧ next.locator = s.locator ∨
    ∃ shown a, event.shown = some shown ∧ s.locator.step p c a = some (shown, next.locator) := by
  cases happens with
  | load | going | ending | rest | leave | select => exact .inl ⟨rfl, rfl⟩
  | idle now here event l stepped => exact .inr ⟨event, .idle, rfl, stepped⟩
  | pass now here event l stepped => exact .inr ⟨event, .pass now, rfl, stepped⟩
  | merge now here =>
    refine .inr ⟨_, .merge s.shared.transTriggers, rfl, ?_⟩
    have free : s.locator.busy ≠ true := fun busy => by simp [coupled.busy.mp busy] at here
    simp [Locator.step, free, coupled.selected here]

end Inversion

section Interleaving

variable {p : Platform} {c : Config} {siteMap : SiteMap} {siteTimeMap : SiteTimeMap}
  {events : List ThreadEvent} {s : Threads}

theorem interleaves_coupled (reached : Interleaves p c siteMap siteTimeMap events s) : Coupled s := by
  apply reached.invariant (fun _ => Coupled)
  · exact ⟨by simp [Threads.start, Locator.start], by simp [Threads.start], by simp [Threads.start, Loader.start],
      by simp [Threads.start], by simp [Threads.start]⟩
  · intro _ _ _ _ _ _ coupled stepped
    exact move_coupled coupled (threads_cases stepped)

theorem locatorEvents_snoc (events : List ThreadEvent) (event : ThreadEvent) :
    locatorEvents (events ++ [event]) = locatorEvents events ++ event.shown.toList :=
  Machine.filterMap_snoc ThreadEvent.shown events event

/-- Seen from the locating thread, an interleaving is a run of that thread alone. -/
theorem interleaves_runs (reached : Interleaves p c siteMap siteTimeMap events s) :
    Runs p c siteMap siteTimeMap (locatorEvents events) s.locator := by
  apply reached.invariant (fun shown s => Runs p c siteMap siteTimeMap (locatorEvents shown) s.locator)
  · exact Machine.Reaches.refl _
  · intro shown s move event next run ran stepped
    rw [locatorEvents_snoc]
    rcases move_located (interleaves_coupled run) (threads_cases stepped) with ⟨silent, same⟩ | ⟨seen, a, shows, acted⟩
    · rw [silent, same]
      simpa using ran
    · rw [shows]
      exact ran.snoc acted

def Handover (events : List ThreadEvent) (s : Threads) : Prop :=
  ∀ key, key ∈ insertedKeys events ↔
    key ∈ s.shared.transTriggers.map TriggerInfo.key ∨ key ∈ examinedKeys events

theorem insertedKeys_snoc (events : List ThreadEvent) (event : ThreadEvent) :
    insertedKeys (events ++ [event]) = insertedKeys events ++ event.inserted.map TriggerInfo.key := by
  simp [insertedKeys]

theorem examinedKeys_snoc (events : List ThreadEvent) (event : ThreadEvent) :
    examinedKeys (events ++ [event]) = examinedKeys events ++ event.examined.map TriggerInfo.key := by
  simp [examinedKeys]

theorem move_handover {move : Move} {event : ThreadEvent} {next : Threads} (handover : Handover events s)
    (happens : Happens p c s move event next) : Handover (events ++ [event]) next := by
  intro key
  have before := handover key
  rw [insertedKeys_snoc, examinedKeys_snoc, List.mem_append, List.mem_append, before]
  cases happens with
  | load reply event shared loader loaded =>
    cases loaded with
    | history | current | last | more => simp [ThreadEvent.inserted, ThreadEvent.examined]
    | insert cache =>
      rw [keys_insert]
      simp only [ThreadEvent.inserted, ThreadEvent.examined, List.map_nil, List.not_mem_nil, or_false]
      exact or_right_comm
  | going | ending | rest | leave | select => simp [ThreadEvent.inserted, ThreadEvent.examined]
  | idle now here event l stepped =>
    cases step_cases stepped with
    | idle => simp [ThreadEvent.inserted, ThreadEvent.examined]
  | pass now here event l stepped =>
    cases step_cases stepped with
    | pass => simp [ThreadEvent.inserted, ThreadEvent.examined]
  | merge now here =>
    simp only [ThreadEvent.inserted, ThreadEvent.examined, List.map_nil, List.not_mem_nil, or_false, false_or]
    exact or_comm

theorem interleaves_handover (reached : Interleaves p c siteMap siteTimeMap events s) : Handover events s := by
  apply reached.invariant Handover
  · intro key
    simp [insertedKeys, examinedKeys, Threads.start]
  · intro _ _ _ _ _ _ handover stepped
    exact move_handover handover (threads_cases stepped)

end Interleaving

/-- A merge takes all of `transTriggers` and leaves in the queue its own keys and those of
the batch that are later than the watermark. -/
structure Examines (before after : Threads) (queue : List TriggerInfo) (watermark : GPSTime)
    (batch : List TriggerInfo) : Prop where
  queued : queue = before.locator.allTriggers
  reached : watermark = before.locator.currentProcessingTime
  handed : batch = before.shared.transTriggers
  taken : after.shared.transTriggers = []
  united : UnitesKeys queue (batch.filter fun trigger => trigger.time.gt watermark) after.locator.allTriggers

theorem merge_examines {p : Platform} {c : Config} {before after : Threads} {move : Move}
    {queue batch : List TriggerInfo} {watermark : GPSTime}
    (stepped : before.step p c move = some (.locator (.merge queue watermark batch), after)) :
    Examines before after queue watermark batch := by
  generalize shown : ThreadEvent.locator (.merge queue watermark batch) = event at stepped
  cases threads_cases stepped with
  | merge now =>
    cases shown
    exact ⟨rfl, rfl, rfl, rfl, keys_merge p _ before.locator⟩
  | idle now _ event l acted | pass now _ event l acted =>
    cases shown
    cases step_cases acted
  | load | going | ending | rest | leave | select => contradiction

/-- Nothing is lost between the threads: at every point each inserted key is still in
`transTriggers` or was examined, every merge examines the whole of `transTriggers` and
leaves what passes in the queue, and the locating thread leaves only after the last
insertion, with every key examined. -/
theorem handover_complete {p : Platform} {c : Config} {siteMap : SiteMap} {siteTimeMap : SiteTimeMap}
    {events : List ThreadEvent} {s : Threads} (reached : Interleaves p c siteMap siteTimeMap events s) :
    (∀ key, key ∈ insertedKeys events ↔
      key ∈ s.shared.transTriggers.map TriggerInfo.key ∨ key ∈ examinedKeys events) ∧
    (∀ earlier queue watermark batch later,
      events = earlier ++ .locator (.merge queue watermark batch) :: later →
      ∃ before after, Interleaves p c siteMap siteTimeMap earlier before ∧
        Examines before after queue watermark batch ∧ Machine.Reaches (Threads.step p c) after later s) ∧
    (s.point = .left → s.shared.transTriggers = [] ∧ (∀ reply, s.step p c (.loader reply) = none) ∧
      ∀ key ∈ insertedKeys events, key ∈ examinedKeys events) := by
  have handover := interleaves_handover reached
  have coupled := interleaves_coupled reached
  refine ⟨handover, ?_, fun left => ?_⟩
  · rintro earlier queue watermark batch later rfl
    obtain ⟨before, move, after, first, stepped, rest⟩ := reached.step_at
    exact ⟨before, after, first, merge_examines stepped, rest⟩
  have empty := coupled.left left
  have stopped := coupled.stopped.mp (coupled.ended (.inr left))
  refine ⟨empty, fun reply => ?_, fun key inserted => ?_⟩
  · simp [Threads.step, Loader.step, stopped]
  · have handed := (handover key).mp inserted
    simpa [empty] using handed

namespace Sample

def interleave (moves : List Move) : Option (List ThreadEvent × Threads) :=
  Machine.run (Threads.step (platform prefersLate) config) (Threads.start config siteMap siteTimeMap) moves

def handedOver : List Move :=
  [.loader distinctStations, .locator now, .loader [], .locator now, .locator now, .locator now, .loader [],
    .loader [], .loader [], .loader [], .locator now, .locator now]

end Sample

theorem handover_complete_run : ∃ events s,
    Interleaves (Sample.platform Sample.prefersLate) Sample.config Sample.siteMap Sample.siteTimeMap events s ∧
    s.point = .left ∧ (insertedKeys events).length = 5 ∧
    (∀ key, key ∈ insertedKeys events ↔
      key ∈ s.shared.transTriggers.map TriggerInfo.key ∨ key ∈ examinedKeys events) ∧
    (∃ earlier queue watermark batch later, batch.length = 5 ∧
      events = earlier ++ .locator (.merge queue watermark batch) :: later ∧
      ∃ before after, Interleaves (Sample.platform Sample.prefersLate) Sample.config Sample.siteMap
        Sample.siteTimeMap earlier before ∧ Examines before after queue watermark batch) ∧
    (s.point = .left → s.shared.transTriggers = [] ∧
      (∀ reply, s.step (Sample.platform Sample.prefersLate) Sample.config (.loader reply) = none) ∧
      ∀ key ∈ insertedKeys events, key ∈ examinedKeys events) := by
  obtain ⟨⟨events, s⟩, ran, shown⟩ := Option.map_eq_some_iff.mp
    (show (Sample.interleave Sample.handedOver).map (fun r => (r.2.point, (insertedKeys r.1).length,
        r.1.any fun event => (event.shown.bind Event.handover).any fun merge => merge.2.2.length = 5)) =
      some (.left, 5, true) by decide +kernel)
  obtain ⟨left, inserted, merges⟩ : s.point = .left ∧ (insertedKeys events).length = 5 ∧ _ := by
    simpa only [Prod.mk.injEq] using shown
  obtain ⟨handover, examined, ended⟩ := handover_complete ⟨_, ran⟩
  obtain ⟨event, member, five⟩ := List.any_eq_true.mp merges
  obtain ⟨⟨queue, watermark, batch⟩, seen, length⟩ := Option.any_eq_true _ _ |>.mp five
  obtain ⟨merge, shows, handed⟩ := Option.bind_eq_some_iff.mp seen
  cases Event.of_handover handed
  cases event with
  | locator =>
    cases shows
    obtain ⟨earlier, later, split⟩ := List.append_of_mem member
    obtain ⟨before, after, first, examines, _⟩ := examined earlier queue watermark batch later split
    exact ⟨events, s, ⟨_, ran⟩, left, inserted, handover,
      ⟨earlier, queue, watermark, batch, later, of_decide_eq_true length, split, before, after, first, examines⟩, ended⟩
  | loader | read => contradiction

end LigDataParsing
