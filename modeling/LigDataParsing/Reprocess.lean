import LigDataParsing.Schedule
import LigDataParsing.WholeSeconds
import Mathlib.Data.Nat.SuccPred
import Mathlib.Order.SuccPred.IntervalSucc

/-! The loop of `reProcess` mode: how many requests it sends, what their windows cover and
what it inserts, in every interleaving with the locating thread. -/
namespace LigDataParsing

def ThreadEvent.load : ThreadEvent → Option LoaderEvent
  | .loader event => some event
  | _ => none

def loaderEvents (events : List ThreadEvent) : List LoaderEvent := events.filterMap ThreadEvent.load

def LoaderEvent.till : LoaderEvent → Option GPSTime
  | .fetch tillTime _ => some tillTime
  | _ => none

def LoaderEvent.cache : LoaderEvent → Option (List TriggerInfo)
  | .insert cache => some cache
  | _ => none

def asked (shown : List LoaderEvent) : List GPSTime := shown.filterMap LoaderEvent.till

def insertions (shown : List LoaderEvent) : List (List TriggerInfo) := shown.filterMap LoaderEvent.cache

/-- The twenty minutes until `tillTime`, in the order of times the code compares with. -/
def InWindow (tillTime t : GPSTime) : Prop :=
  ∃ since : GPSTime, since.Valid ∧ since.instant = tillTime.instant - 1200 ∧
    since.le t = true ∧ t.le tillTime = true

def Served (history : List TriggerInfo) (shown : List LoaderEvent) : Prop :=
  ∀ tillTime reply, .fetch tillTime reply ∈ shown →
    ∀ key, key ∈ reply.map TriggerInfo.key ↔ ∃ x ∈ history, x.key = key ∧ InWindow tillTime x.time

/-- One request for each twenty minutes begun, and one for an empty interval. -/
def requests (c : Config) : ℕ := max 1 ⌈(c.endTime.instant - c.startTime.instant) / 1200⌉₊

/-- Where the loop stands after `sent` requests, `made` insertions and `steps` steps. -/
inductive Round (p : Platform) (c : Config) (history : List TriggerInfo) (point : LoaderPoint) (sent made steps : ℕ) :
    Prop where
  | fetch (here : point = .fetch) (level : sent = made) (taken : steps = 3 * made) (more : made < requests c)
  | insert (cache : List TriggerInfo) (here : point = .insert cache) (level : sent = made + 1)
      (taken : steps = 3 * made + 1) (more : made < requests c)
      (filled : ∀ key, key ∈ cache.map TriggerInfo.key ↔
        ∃ x ∈ history, x.key = key ∧ inSpan c x = true ∧ InWindow (boundary p c (made + 1)) x.time)
  | test (last : ℕ) (here : point = .test) (level : sent = last + 1) (level' : made = last + 1)
      (taken : steps = 3 * last + 2) (more : last < requests c)
  | stopped (here : point = .stopped) (level : sent = requests c) (level' : made = requests c)
      (taken : steps = 3 * made)

structure Looped (p : Platform) (c : Config) (history : List TriggerInfo) (shown : List LoaderEvent)
    (l : Loader) (sent made : ℕ) : Prop where
  round : Round p c history l.point sent made shown.length
  till : l.tillTime = boundary p c sent
  requested : asked shown = (List.range sent).map fun k => boundary p c (k + 1)
  inserted : (insertions shown).length = made
  keys : ∀ key, key ∈ (insertions shown).flatten.map TriggerInfo.key ↔
    ∃ x ∈ history, x.key = key ∧ inSpan c x = true ∧ ∃ k < made, InWindow (boundary p c (k + 1)) x.time

section Windows

variable {p : Platform} {c : Config} {tillTime t : GPSTime}

/-- Between valid times the window is one of instants. -/
theorem inWindow_iff (valid : tillTime.Valid) (valid' : t.Valid) :
    InWindow tillTime t ↔ tillTime.instant - 1200 ≤ t.instant ∧ t.instant ≤ tillTime.instant := by
  constructor
  · rintro ⟨since, ok, here, after, before⟩
    rw [GPSTime.le_iff, ← GPSTime.instant_le_iff ok valid', here] at after
    rw [GPSTime.le_iff, ← GPSTime.instant_le_iff valid' valid] at before
    exact ⟨after, before⟩
  · rintro ⟨after, before⟩
    obtain ⟨ok, earlier⟩ := GPSTime.addActPointSec_spec 0 valid.calendar (-1200)
    refine ⟨_, ok, by rw [earlier]; ring, ?_, ?_⟩
    · rw [GPSTime.le_iff, ← GPSTime.instant_le_iff ok valid', earlier]
      linarith
    · rwa [GPSTime.le_iff, ← GPSTime.instant_le_iff valid' valid]

theorem inWindow_boundary (start : c.startTime.Valid) (n : ℕ) : InWindow (boundary p c (n + 1)) t ↔
    (boundary p c n).stamp ≤ t.stamp ∧ t.stamp ≤ (boundary p c (n + 1)).stamp := by
  obtain ⟨valid, here⟩ := boundary_spec (p := p) start n
  obtain ⟨_, at'⟩ := boundary_spec (p := p) start (n + 1)
  have apart : (boundary p c n).instant = (boundary p c (n + 1)).instant - 1200 := by
    rw [here, at']
    push_cast
    ring
  constructor
  · rintro ⟨since, ok, same, after, before⟩
    rw [← stamp_of_instant ok valid (same.trans apart.symm)]
    exact ⟨GPSTime.le_iff.mp after, GPSTime.le_iff.mp before⟩
  · rintro ⟨after, before⟩
    exact ⟨_, valid, apart, GPSTime.le_iff.mpr after, GPSTime.le_iff.mpr before⟩

/-- The loop ends with the first request past the end. -/
theorem requests_le_iff (start : c.startTime.Valid) (stop : c.endTime.Valid) (n : ℕ) :
    requests c ≤ n + 1 ↔ c.endTime.stamp ≤ (boundary p c (n + 1)).stamp := by
  obtain ⟨valid, here⟩ := boundary_spec (p := p) start (n + 1)
  rw [requests, max_le_iff, Nat.ceil_le, div_le_iff₀ (by norm_num), ← GPSTime.instant_le_iff stop valid, here]
  constructor
  · rintro ⟨_, below⟩
    linarith
  · intro below
    exact ⟨Nat.le_add_left 1 n, by linarith⟩

/-- No time between the start and the end is missed. -/
theorem window_covers (start : c.startTime.Valid) (stop : c.endTime.Valid)
    (after : c.startTime.stamp ≤ t.stamp) (before : t.stamp ≤ c.endTime.stamp) :
    ∃ k < requests c, InWindow (boundary p c (k + 1)) t := by
  obtain ⟨n, last⟩ : ∃ n, requests c = n + 1 := Nat.exists_eq_succ_of_ne_zero (by simp [requests])
  have within : t.stamp ≤ (boundary p c (n + 1)).stamp :=
    before.trans ((requests_le_iff start stop n).mp last.le)
  rw [last]
  -- neighbouring half-open windows leave out the start alone
  rcases after.eq_or_lt with first | later
  · refine ⟨0, Nat.succ_pos n, (inWindow_boundary start 0).mpr ⟨first.le, ?_⟩⟩
    exact first.symm.le.trans (boundary_mono start (Nat.le_succ 0))
  · have mono : Monotone fun k => (boundary p c k).stamp := fun _ _ => boundary_mono start
    have covered : t.stamp ∈ Set.Ioc (boundary p c 0).stamp (boundary p c (n + 1)).stamp := ⟨later, within⟩
    rw [← mono.biUnion_Ico_Ioc_map_succ, Set.mem_iUnion₂] at covered
    obtain ⟨k, inside, above, below⟩ := covered
    exact ⟨k, inside.2, (inWindow_boundary start k).mpr ⟨above.le, below⟩⟩

theorem inSpan_congr {x y : TriggerInfo} (same : x.key = y.key) : inSpan c x = inSpan c y := by
  have stamps : x.time.stamp = y.time.stamp := congrArg (fun key => (ofLex key).1) same
  rw [Bool.eq_iff_iff, inSpan_iff, inSpan_iff, stamps]

end Windows

section Loop

variable {p : Platform} {c : Config} {history reply : List TriggerInfo} {shown : List LoaderEvent}
  {shared shared' : Shared} {l l' : Loader} {event : LoaderEvent} {sent made : ℕ}

theorem going_on (stepped : l.step p c reply shared = some (.test false, shared', l')) :
    l.tillTime.stamp < c.endTime.stamp := by
  rw [Loader.step] at stepped
  cases point : l.point with
  | fetch =>
    simp only [point] at stepped
    split_ifs at stepped
    · cases stepped
    · cases stepped
  | test =>
    simp only [point] at stepped
    split_ifs at stepped with reached
    · cases stepped
    · rw [GPSTime.ge_iff] at reached
      exact not_le.mp reached
  | insert | stopped => simp [point] at stepped

/-- The filter on a reply leaves the window within the interval. -/
theorem keys_cache {tillTime : GPSTime}
    (served : ∀ key, key ∈ reply.map TriggerInfo.key ↔ ∃ x ∈ history, x.key = key ∧ InWindow tillTime x.time)
    (key : TriggerInfo.Key) : key ∈ (reply.filter (inSpan c)).map TriggerInfo.key ↔
      ∃ x ∈ history, x.key = key ∧ inSpan c x = true ∧ InWindow tillTime x.time := by
  rw [List.mem_map]
  constructor
  · rintro ⟨y, member, rfl⟩
    obtain ⟨inReply, span⟩ := List.mem_filter.mp member
    obtain ⟨x, inHistory, same, window⟩ := (served y.key).mp (List.mem_map_of_mem inReply)
    exact ⟨x, inHistory, same, (inSpan_congr same).trans span, window⟩
  · rintro ⟨x, inHistory, same, span, window⟩
    obtain ⟨y, inReply, same'⟩ := List.mem_map.mp ((served key).mpr ⟨x, inHistory, same, window⟩)
    have alike : inSpan c y = inSpan c x := inSpan_congr (same'.trans same.symm)
    exact ⟨y, List.mem_filter.mpr ⟨inReply, alike.trans span⟩, same'⟩

theorem asked_snoc (shown : List LoaderEvent) (event : LoaderEvent) :
    asked (shown ++ [event]) = asked shown ++ event.till.toList :=
  Machine.filterMap_snoc LoaderEvent.till shown event

theorem insertions_snoc (shown : List LoaderEvent) (event : LoaderEvent) :
    insertions (shown ++ [event]) = insertions shown ++ event.cache.toList :=
  Machine.filterMap_snoc LoaderEvent.cache shown event

theorem loader_enabled (p : Platform) (c : Config) (shared : Shared) (going : l.point ≠ .stopped)
    (reply : List TriggerInfo) : (l.step p c reply shared).isSome := by
  rw [Loader.step]
  cases point : l.point with
  | fetch | test =>
    dsimp only
    split_ifs <;> rfl
  | insert => rfl
  | stopped => contradiction

/-- The loop is under way, or all requests are made and inserted. -/
theorem Round.finished_or {point : LoaderPoint} {steps : ℕ} (round : Round p c history point sent made steps) :
    point ≠ .stopped ∧ steps < 3 * requests c ∨
    point = .stopped ∧ steps = 3 * requests c ∧ sent = requests c ∧ made = requests c := by
  cases round with
  | fetch here level taken more => exact .inl ⟨by simp [here], by omega⟩
  | insert cache here level taken more => exact .inl ⟨by simp [here], by omega⟩
  | test last here level level' taken more => exact .inl ⟨by simp [here], by omega⟩
  | stopped here level level' taken => exact .inr ⟨here, by omega, level, level'⟩

theorem Looped.request (served : Served history (shown ++ [event]))
    (looped : Looped p c history shown l sent made) (level : sent = made) (taken : shown.length = 3 * made)
    (more : made < requests c) (asks : event = .fetch (l.tillTime.plus p.utcOffset twentyMinutes) reply) :
    Looped p c history (shown ++ [event])
      ⟨l.tillTime.plus p.utcOffset twentyMinutes, .insert (reply.filter (inSpan c))⟩ (made + 1) made := by
  obtain ⟨_, till, requested, inserted, keys⟩ := looped
  have next : l.tillTime.plus p.utcOffset twentyMinutes = boundary p c (made + 1) := by
    rw [till, level]
    rfl
  rw [next] at asks ⊢
  subst asks
  have filled := keys_cache (c := c) (served _ reply (List.mem_append_right _ List.mem_cons_self))
  refine ⟨?_, rfl, ?_, ?_, ?_⟩
  · apply Round.insert _ rfl rfl _ more filled
    rw [List.length_append, taken, List.length_singleton]
  · rw [asked_snoc, requested, level, List.range_succ, List.map_append]
    rfl
  · rw [insertions_snoc, ← inserted]
    exact congrArg List.length (List.append_nil _)
  · rw [insertions_snoc]
    simpa [LoaderEvent.cache] using keys

theorem Looped.insert {cache : List TriggerInfo} (looped : Looped p c history shown l sent made)
    (level : sent = made + 1) (taken : shown.length = 3 * made + 1) (more : made < requests c)
    (filled : ∀ key, key ∈ cache.map TriggerInfo.key ↔
      ∃ x ∈ history, x.key = key ∧ inSpan c x = true ∧ InWindow (boundary p c (made + 1)) x.time) :
    Looped p c history (shown ++ [.insert cache]) ⟨l.tillTime, .test⟩ sent (made + 1) := by
  obtain ⟨_, till, requested, inserted, keys⟩ := looped
  refine ⟨?_, till, ?_, ?_, fun key => ?_⟩
  · apply Round.test made rfl level rfl _ more
    rw [List.length_append, taken, List.length_singleton]
  · rw [asked_snoc, requested]
    exact List.append_nil _
  · rw [insertions_snoc, List.length_append, inserted]
    rfl
  · rw [insertions_snoc, List.flatten_append, List.map_append, List.mem_append, keys]
    simp only [LoaderEvent.cache, Option.toList_some, List.flatten_singleton, filled, Nat.exists_lt_succ_right,
      and_or_left, exists_or]

theorem Looped.test {last : Bool} {point : LoaderPoint} (looped : Looped p c history shown l sent made)
    (round : Round p c history point sent made (shown.length + 1)) :
    Looped p c history (shown ++ [.test last]) ⟨l.tillTime, point⟩ sent made := by
  obtain ⟨_, till, requested, inserted, keys⟩ := looped
  refine ⟨?_, till, ?_, ?_, ?_⟩
  · rwa [List.length_append]
  · rw [asked_snoc, requested]
    exact List.append_nil _
  · rw [insertions_snoc, ← inserted]
    exact congrArg List.length (List.append_nil _)
  · rw [insertions_snoc]
    simpa [LoaderEvent.cache] using keys

theorem Looped.step (replay : c.reProcess = true) (start : c.startTime.Valid) (stop : c.endTime.Valid)
    (served : Served history (shown ++ [event])) (looped : Looped p c history shown l sent made)
    (stepped : l.step p c reply shared = some (event, shared', l')) :
    ∃ sent made, Looped p c history (shown ++ [event]) l' sent made := by
  have round := looped.round
  cases loader_cases stepped with
  | history here mode =>
    cases round with
    | fetch _ level taken more => exact ⟨made + 1, made, looped.request served level taken more rfl⟩
    | insert _ other | test _ other | stopped other => exact nomatch here.symm.trans other
  | current here mode => simp [replay] at mode
  | insert cache here next goes =>
    rw [if_pos replay] at goes
    cases round with
    | insert cache' at' level taken more filled =>
      cases here.symm.trans at'
      cases goes
      exact ⟨sent, made + 1, looped.insert level taken more filled⟩
    | fetch other | test _ other | stopped other => exact nomatch here.symm.trans other
  | last here reached =>
    cases round with
    | test last _ level level' taken more =>
      rw [looped.till, level] at reached
      have all : last + 1 = requests c := le_antisymm more ((requests_le_iff start stop last).mpr reached)
      exact ⟨sent, made, looped.test (.stopped rfl (level.trans all) (level'.trans all) (by omega))⟩
    | fetch other | insert _ other | stopped other => exact nomatch here.symm.trans other
  | more here =>
    have before := going_on stepped
    cases round with
    | test last _ level level' taken more =>
      rw [looped.till, level] at before
      have again : last + 1 < requests c :=
        not_le.mp fun beyond => absurd ((requests_le_iff start stop last).mp beyond) (not_le.mpr before)
      exact ⟨sent, made, looped.test (.fetch rfl (level.trans level'.symm) (by omega) (by omega))⟩
    | fetch other | insert _ other | stopped other => exact nomatch here.symm.trans other

end Loop

section Interleaving

variable {p : Platform} {c : Config} {siteMap : SiteMap} {siteTimeMap : SiteTimeMap} {history : List TriggerInfo}
  {events : List ThreadEvent} {s next : Threads} {move : Move} {event : ThreadEvent}

theorem loaderEvents_snoc (events : List ThreadEvent) (event : ThreadEvent) :
    loaderEvents (events ++ [event]) = loaderEvents events ++ event.load.toList :=
  Machine.filterMap_snoc ThreadEvent.load events event

theorem move_loader (stepped : s.step p c move = some (event, next)) :
    event.load = none ∧ next.loader = s.loader ∨
    ∃ reply shown, event.load = some shown ∧
      s.loader.step p c reply s.shared = some (shown, next.shared, next.loader) := by
  cases move with
  | loader reply =>
    obtain ⟨⟨shown, shared, loader⟩, loaded, done⟩ := Option.map_eq_some_iff.mp stepped
    cases done
    exact .inr ⟨reply, shown, rfl, loaded⟩
  | locator now =>
    left
    cases threads_cases stepped with
    | going | ending | rest | leave | select | idle | merge | pass => exact ⟨rfl, rfl⟩

theorem insertedKeys_eq (events : List ThreadEvent) :
    insertedKeys events = (insertions (loaderEvents events)).flatten.map TriggerInfo.key := by
  induction events using List.reverseRecOn with
  | nil => rfl
  | append_singleton events event ih =>
    rw [insertedKeys_snoc, ih, loaderEvents_snoc]
    cases event with
    | loader event => cases event <;> simp [ThreadEvent.inserted, ThreadEvent.load, insertions_snoc, LoaderEvent.cache]
    | locator | read => simp [ThreadEvent.inserted, ThreadEvent.load]

theorem interleaves_looped (replay : c.reProcess = true) (start : c.startTime.Valid) (stop : c.endTime.Valid)
    (served : Served history (loaderEvents events)) (reached : Interleaves p c siteMap siteTimeMap events s) :
    ∃ sent made, Looped p c history (loaderEvents events) s.loader sent made := by
  refine reached.invariant (fun shown s => Served history (loaderEvents shown) →
    ∃ sent made, Looped p c history (loaderEvents shown) s.loader sent made) ?_ ?_ served
  · intro _
    refine ⟨0, 0, .fetch rfl rfl rfl (by simp [requests]), rfl, rfl, rfl, ?_⟩
    simp [insertions, loaderEvents]
  · intro shown s move event next _ holds stepped served
    rw [loaderEvents_snoc] at served ⊢
    rcases move_loader stepped with ⟨silent, same⟩ | ⟨reply, seen, shows, loaded⟩
    · rw [silent, Option.toList_none, List.append_nil] at served ⊢
      rw [same]
      exact holds served
    · rw [shows, Option.toList_some] at served ⊢
      obtain ⟨sent, made, looped⟩ :=
        holds fun tillTime reply member => served tillTime reply (List.mem_append_left _ member)
      exact looped.step replay start stop served loaded

end Interleaving

/-- In every interleaving the loop sends exactly the requests for the twenty minutes begun,
three steps each of which none is refused, and stops; `keep_loading` is cleared only then,
after the last insertion. The windows cover the interval, and the keys in `transTriggers`,
together with those a merge has taken out of it, are those of the feed in the interval. -/
theorem reprocess_covers {p : Platform} {c : Config} {siteMap : SiteMap} {siteTimeMap : SiteTimeMap}
    {history : List TriggerInfo} {events : List ThreadEvent} {s : Threads}
    (replay : c.reProcess = true) (start : c.startTime.Valid) (stop : c.endTime.Valid)
    (served : Served history (loaderEvents events)) (reached : Interleaves p c siteMap siteTimeMap events s) :
    (loaderEvents events).length ≤ 3 * requests c ∧
    (∀ key, key ∈ s.shared.transTriggers.map TriggerInfo.key ∨ key ∈ examinedKeys events →
      ∃ x ∈ history, x.key = key ∧ c.startTime.le x.time = true ∧ x.time.le c.endTime = true) ∧
    ((loaderEvents events).length < 3 * requests c →
      s.shared.keepLoading = true ∧ ∀ reply, (s.step p c (.loader reply)).isSome) ∧
    ((loaderEvents events).length = 3 * requests c →
      s.shared.keepLoading = false ∧ (∀ reply, s.step p c (.loader reply) = none) ∧
      (asked (loaderEvents events)).length = requests c ∧ (insertions (loaderEvents events)).length = requests c ∧
      (∀ t, c.startTime.le t = true → t.le c.endTime = true →
        ∃ tillTime ∈ asked (loaderEvents events), InWindow tillTime t) ∧
      (∀ key, key ∈ insertedKeys events ↔
        ∃ x ∈ history, x.key = key ∧ c.startTime.le x.time = true ∧ x.time.le c.endTime = true) ∧
      ∀ key, key ∈ s.shared.transTriggers.map TriggerInfo.key ∨ key ∈ examinedKeys events ↔
        ∃ x ∈ history, x.key = key ∧ c.startTime.le x.time = true ∧ x.time.le c.endTime = true) := by
  obtain ⟨sent, made, round, till, requested, inserted, keys⟩ := interleaves_looped replay start stop served reached
  have coupled := interleaves_coupled reached
  have handover := interleaves_handover reached
  have within : ∀ key, key ∈ insertedKeys events ↔ ∃ x ∈ history, x.key = key ∧
      (c.startTime.le x.time = true ∧ x.time.le c.endTime = true) ∧
      ∃ k < made, InWindow (boundary p c (k + 1)) x.time := by
    intro key
    simp only [insertedKeys_eq, keys, inSpan_iff, GPSTime.le_iff]
  refine ⟨?_, ?_, ?_⟩
  · rcases round.finished_or with ⟨_, short⟩ | ⟨_, full, _⟩
    · exact short.le
    · exact full.le
  · intro key placed
    obtain ⟨x, inHistory, same, span, _⟩ := (within key).mp ((handover key).mpr placed)
    exact ⟨x, inHistory, same, span⟩
  rcases round.finished_or with ⟨going, short⟩ | ⟨stopped, full, all, all'⟩
  · refine ⟨fun _ => ⟨?_, fun reply => ?_⟩, fun full => absurd full short.ne⟩
    · exact Bool.eq_true_of_not_eq_false fun done => going (coupled.stopped.mp done)
    · rw [Threads.step, Option.isSome_map]
      exact loader_enabled p c s.shared going reply
  · refine ⟨fun short => absurd full short.ne, fun _ => ?_⟩
    have complete : ∀ key, key ∈ insertedKeys events ↔
        ∃ x ∈ history, x.key = key ∧ c.startTime.le x.time = true ∧ x.time.le c.endTime = true := by
      intro key
      rw [within, all']
      refine exists_congr fun x => and_congr_right fun _ => and_congr_right fun _ => and_iff_left_of_imp ?_
      rintro ⟨after, before⟩
      exact window_covers start stop (GPSTime.le_iff.mp after) (GPSTime.le_iff.mp before)
    refine ⟨coupled.stopped.mpr stopped, fun reply => ?_, ?_, ?_, ?_, complete, fun key => ?_⟩
    · simp [Threads.step, Loader.step, stopped]
    · rw [requested, List.length_map, List.length_range, all]
    · rw [inserted, all']
    · intro t after before
      obtain ⟨k, inside, window⟩ := window_covers start stop (GPSTime.le_iff.mp after) (GPSTime.le_iff.mp before)
      refine ⟨_, ?_, window⟩
      rw [requested, all]
      exact List.mem_map_of_mem (List.mem_range.mpr inside)
    · rw [← handover key, complete]

def LoaderEvent.serves (history : List TriggerInfo) : LoaderEvent → Bool
  | .fetch tillTime reply => tillTime.Valid ∧ reply = requested history tillTime
  | _ => true

theorem served_all {history : List TriggerInfo} {shown : List LoaderEvent} (wellFormed : ∀ x ∈ history, WellFormed x)
    (serves : shown.all (LoaderEvent.serves history) = true) : Served history shown := by
  intro tillTime reply member key
  obtain ⟨valid, rfl⟩ := of_decide_eq_true (List.all_eq_true.mp serves _ member)
  simp only [List.mem_map, requested, List.mem_filter, decide_eq_true_eq]
  constructor
  · rintro ⟨x, ⟨inHistory, window⟩, same⟩
    exact ⟨x, inHistory, same, (inWindow_iff valid (wellFormed x inHistory).time).mpr window⟩
  · rintro ⟨x, inHistory, same, window⟩
    exact ⟨x, ⟨inHistory, (inWindow_iff valid (wellFormed x inHistory).time).mp window⟩, same⟩

theorem reprocess_covers_run : requests Sample.config = 2 ∧ ∃ events s,
    Interleaves (Sample.platform Sample.prefersLate) Sample.config Sample.siteMap Sample.siteTimeMap events s ∧
    s.shared.keepLoading = false ∧ (insertedKeys events).length = 5 ∧
    (∀ key, key ∈ insertedKeys events ↔ ∃ x ∈ Sample.distinctStations, x.key = key ∧
      Sample.config.startTime.le x.time = true ∧ x.time.le Sample.config.endTime = true) ∧
    ∀ key, key ∈ s.shared.transTriggers.map TriggerInfo.key ∨ key ∈ examinedKeys events ↔
      ∃ x ∈ Sample.distinctStations, x.key = key ∧
        Sample.config.startTime.le x.time = true ∧ x.time.le Sample.config.endTime = true := by
  have two : requests Sample.config = 2 := by decide +kernel
  obtain ⟨⟨events, s⟩, ran, shown⟩ := Option.map_eq_some_iff.mp
    (show (Sample.interleave (Sample.loadsApart Sample.distinctStations [] 4 2)).map
        (fun r => decide ((loaderEvents r.1).length = 6 ∧ (insertedKeys r.1).length = 5 ∧
          (loaderEvents r.1).all (LoaderEvent.serves Sample.distinctStations) = true)) = some true
      by decide +kernel)
  obtain ⟨full, inserted, serves⟩ := of_decide_eq_true shown
  obtain ⟨_, _, _, finished⟩ := reprocess_covers rfl (show Sample.config.startTime.Valid by decide +kernel)
    (show Sample.config.endTime.Valid by decide +kernel) (served_all Sample.distinctStations_wellFormed serves) ⟨_, ran⟩
  obtain ⟨cleared, _, _, _, _, keys, placed⟩ := finished (by rw [full, two])
  exact ⟨two, events, s, ⟨_, ran⟩, cleared, inserted, keys, placed⟩

end LigDataParsing
