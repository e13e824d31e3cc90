import LigDataParsing.Elimination

/-! The loading thread. One step is a request together with the filter on its reply, the
insertion into `transTriggers` under the lock, or the test that ends the loop; what the
server replies is part of the step. The reads that only feed the log are left out. -/
namespace LigDataParsing

structure Shared where
  transTriggers : List TriggerInfo
  keepLoading : Bool

inductive LoaderPoint where
  | fetch
  | insert (cache : List TriggerInfo)
  | test
  | stopped

structure Loader where
  tillTime : GPSTime
  point : LoaderPoint

def Loader.start (c : Config) : Loader := ⟨c.startTime, .fetch⟩

/-- `Duration("00000000T002000")` -/
def twentyMinutes : Duration := ⟨0, 0, 0, 0, 20, 0⟩

inductive LoaderEvent where
  | fetch (tillTime : GPSTime) (reply : List TriggerInfo)
  | insert (cache : List TriggerInfo)
  | test (last : Bool)

def inSpan (c : Config) (trigger : TriggerInfo) : Bool :=
  ¬(trigger.time.lt c.startTime ∨ trigger.time.gt c.endTime)

/-- The critical section: append, sort, drop repetitions. -/
def Shared.insert (p : Platform) (cache : List TriggerInfo) (s : Shared) : Shared :=
  { s with transTriggers := KeyedSort.sortUnique p.sorter TriggerInfo.eq (s.transTriggers ++ cache) }

/-- In `realTime` mode the loop has no end and `tillTime` no role. -/
def Loader.step (p : Platform) (c : Config) (reply : List TriggerInfo) (s : Shared) (l : Loader) :
    Option (LoaderEvent × Shared × Loader) :=
  match l.point with
  | .fetch =>
    if c.reProcess then
      let tillTime := l.tillTime.plus p.utcOffset twentyMinutes
      some (.fetch tillTime reply, s, ⟨tillTime, .insert (reply.filter (inSpan c))⟩)
    else some (.fetch l.tillTime reply, s, { l with point := .insert reply })
  | .insert cache =>
    some (.insert cache, s.insert p cache, { l with point := if c.reProcess then .test else .fetch })
  | .test =>
    if l.tillTime.ge c.endTime then
      some (.test true, { s with keepLoading := false }, { l with point := .stopped })
    else some (.test false, s, { l with point := .fetch })
  | .stopped => none

section Inversion

variable {p : Platform} {c : Config} {reply : List TriggerInfo} {s s' : Shared} {l l' : Loader}
  {event : LoaderEvent}

inductive Loaded (p : Platform) (c : Config) (reply : List TriggerInfo) (s : Shared) (l : Loader) :
    LoaderEvent → Shared → Loader → Prop where
  | history (here : l.point = .fetch) (mode : c.reProcess = true) :
      Loaded p c reply s l (.fetch (l.tillTime.plus p.utcOffset twentyMinutes) reply) s
        ⟨l.tillTime.plus p.utcOffset twentyMinutes, .insert (reply.filter (inSpan c))⟩
  | current (here : l.point = .fetch) (mode : c.reProcess = false) :
      Loaded p c reply s l (.fetch l.tillTime reply) s ⟨l.tillTime, .insert reply⟩
  | insert (cache : List TriggerInfo) (here : l.point = .insert cache) (next : LoaderPoint)
      (goes : next = if c.reProcess then .test else .fetch) :
      Loaded p c reply s l (.insert cache) (s.insert p cache) ⟨l.tillTime, next⟩
  | last (here : l.point = .test) (reached : c.endTime.stamp ≤ l.tillTime.stamp) :
      Loaded p c reply s l (.test true) ⟨s.transTriggers, false⟩ ⟨l.tillTime, .stopped⟩
  | more (here : l.point = .test) : Loaded p c reply s l (.test false) s ⟨l.tillTime, .fetch⟩

theorem loader_cases (stepped : l.step p c reply s = some (event, s', l')) :
    Loaded p c reply s l event s' l' := by
  rw [Loader.step] at stepped
  cases point : l.point with
  | fetch =>
    simp only [point] at stepped
    split_ifs at stepped with mode
    · cases stepped
      exact .history point mode
    · cases stepped
      exact .current point (Bool.eq_false_of_not_eq_true mode)
  | insert cache =>
    simp only [point] at stepped
    cases stepped
    exact .insert cache point _ rfl
  | test =>
    simp only [point] at stepped
    split_ifs at stepped with reached
    · cases stepped
      exact .last point (GPSTime.ge_iff.mp reached)
    · cases stepped
      exact .more point
  | stopped => simp [point] at stepped

end Inversion

theorem inSpan_iff {c : Config} {trigger : TriggerInfo} : inSpan c trigger = true ↔
    c.startTime.stamp ≤ trigger.time.stamp ∧ trigger.time.stamp ≤ c.endTime.stamp := by
  simp [inSpan]

/-- An insertion keeps every key that was there and adds those of the cache. -/
theorem keys_insert (p : Platform) (cache : List TriggerInfo) (s : Shared) (key : TriggerInfo.Key) :
    key ∈ (s.insert p cache).transTriggers.map TriggerInfo.key ↔
      key ∈ s.transTriggers.map TriggerInfo.key ∨ key ∈ cache.map TriggerInfo.key := by
  rw [← List.mem_append, ← List.map_append]
  exact KeyedSort.keys_sortUnique p.sorter TriggerInfo.eq_iff

end LigDataParsing
