import LigDataParsing.Replay
import LigDataParsing.Threads
import LigDataParsing.Watermark

/-! Replaying a stored trigger set: what every interleaving of the two threads posts. The
loads cut the time axis at multiples of twenty minutes, and a merge takes over the
triggers of one or more whole loads. -/
namespace LigDataParsing

open Lookup Drain

/-- The end of the window the `n`-th request asks for, and the start for `n = 0`. -/
def boundary (p : Platform) (c : Config) : ℕ → GPSTime
  | 0 => c.startTime
  | n + 1 => (boundary p c n).plus p.utcOffset twentyMinutes

/-- The triggers of the twenty minutes until `tillTime`. -/
def requested (history : List TriggerInfo) (tillTime : GPSTime) : List TriggerInfo :=
  history.filter fun x => tillTime.instant - 1200 ≤ x.time.instant ∧ x.time.instant ≤ tillTime.instant

def Answered (history : List TriggerInfo) (events : List ThreadEvent) : Prop :=
  ∀ tillTime reply, .loader (.fetch tillTime reply) ∈ events → ∀ x, x ∈ reply ↔ x ∈ requested history tillTime

/-- The stored triggers are past the wait at every pass. -/
def Aged (p : Platform) (c : Config) (history : List TriggerInfo) (events : List ThreadEvent) : Prop :=
  ∀ now queue verdict remaining, .locator (.pass now queue verdict remaining) ∈ events →
    ∀ x ∈ history, tooYoung p c now x = false

/-- A stored set: well-formed triggers, told apart by time and station. -/
structure Stored (history : List TriggerInfo) : Prop where
  stamped : ∀ x ∈ history, Stamped x
  distinct : ∀ x ∈ history, ∀ y ∈ history, x.key = y.key → x = y

/-- No window of a trigger up to a load boundary reaches a trigger after it, neither by the
end of the window nor by operator-, exact or rounded, and none takes a trigger at the
boundary and ends before it. -/
def Unsplit (p : Platform) (c : Config) (history : List TriggerInfo) : Prop :=
  ∀ n > 0, ∀ x ∈ history, ∀ y ∈ history, inSpan c x = true → inSpan c y = true →
    x.time.le (boundary p c n) = true →
    (y.time.gt (boundary p c n) = true →
      y.time.gt (windowEnd p c x) = true ∧
      ∀ double ∈ [id, Binary64.toDouble], x.time.subWith double y.time < -c.maxBaseLineAsTOA) ∧
    (y.time.eq (boundary p c n) = true →
      (∀ double ∈ [id, Binary64.toDouble], x.time.subWith double y.time < -c.maxBaseLineAsTOA) ∨
      y.time.le (windowEnd p c x) = true)

def reports (events : List ThreadEvent) : List Report := (posts (locatorEvents events)).map Post.report

/-- The triggers a replay works on, in queue order. -/
def feed (p : Platform) (c : Config) (history : List TriggerInfo) : List TriggerInfo :=
  KeyedSort.sortUnique p.sorter TriggerInfo.eq
    (history.filter fun x => inSpan c x ∧ x.time.gt (startWatermark c) = true)

def upTo (p : Platform) (c : Config) (history : List TriggerInfo) (n : ℕ) : List TriggerInfo :=
  (feed p c history).filter fun x => 0 < n ∧ x.time.le (boundary p c n) = true

section Feed

variable {p : Platform} {c : Config} {history : List TriggerInfo} {x : TriggerInfo}

theorem boundary_spec (start : c.startTime.Valid) (n : ℕ) :
    (boundary p c n).Valid ∧ (boundary p c n).instant = c.startTime.instant + 1200 * n := by
  induction n with
  | zero => exact ⟨start, by simp [boundary]⟩
  | succ n ih =>
    obtain ⟨valid, here⟩ := ih
    obtain ⟨valid', later⟩ := GPSTime.plus_spec p.utcOffset twentyMinutes valid
    refine ⟨valid', ?_⟩
    rw [boundary, later, here, show twentyMinutes.second = 1200 from rfl]
    push_cast
    ring

theorem boundary_mono (start : c.startTime.Valid) {n m : ℕ} (ordered : n ≤ m) :
    (boundary p c n).stamp ≤ (boundary p c m).stamp := by
  obtain ⟨valid, here⟩ := boundary_spec (p := p) start n
  obtain ⟨valid', at'⟩ := boundary_spec (p := p) start m
  rw [← GPSTime.instant_le_iff valid valid', here, at']
  have : (n : ℚ) ≤ m := by exact_mod_cast ordered
  linarith

theorem mem_feed (stored : Stored history) :
    x ∈ feed p c history ↔ x ∈ history ∧ inSpan c x = true ∧ (startWatermark c).stamp < x.time.stamp := by
  have identified : ∀ a ∈ history.filter (fun x => inSpan c x ∧ x.time.gt (startWatermark c) = true),
      ∀ b ∈ history.filter (fun x => inSpan c x ∧ x.time.gt (startWatermark c) = true), a.key = b.key → a = b :=
    fun a inA b inB => stored.distinct a (List.mem_of_mem_filter inA) b (List.mem_of_mem_filter inB)
  rw [feed, KeyedSort.mem_sortUnique p.sorter TriggerInfo.eq_iff identified, List.mem_filter]
  simp

theorem feed_ascending : Ascending (feed p c history) :=
  KeyedSort.sortUnique_ascending p.sorter TriggerInfo.lt_iff TriggerInfo.eq_iff _

theorem mem_upTo {n : ℕ} : x ∈ upTo p c history n ↔
    x ∈ feed p c history ∧ 0 < n ∧ x.time.stamp ≤ (boundary p c n).stamp := by
  simp [upTo]

theorem upTo_ascending (n : ℕ) : Ascending (upTo p c history n) :=
  feed_ascending.sublist List.filter_sublist

theorem upTo_mono (start : c.startTime.Valid) {n m : ℕ} (ordered : n ≤ m) (member : x ∈ upTo p c history n) :
    x ∈ upTo p c history m := by
  obtain ⟨fed, positive, before⟩ := mem_upTo.mp member
  exact mem_upTo.mpr ⟨fed, positive.trans_le ordered, before.trans (boundary_mono start ordered)⟩

/-- What the feed holds beyond the first `n` loads comes after every window of these. -/
theorem after_upTo (stored : Stored history) (unsplit : Unsplit p c history) {n : ℕ} {y : TriggerInfo}
    (early : x ∈ upTo p c history n) (fed : y ∈ feed p c history) (late : y ∉ upTo p c history n) :
    x.time.stamp < y.time.stamp ∧ (windowEnd p c x).stamp < y.time.stamp ∧
    x.time.sub y.time < -c.maxBaseLineAsTOA := by
  obtain ⟨fedX, positive, before⟩ := mem_upTo.mp early
  have after : (boundary p c n).stamp < y.time.stamp :=
    not_le.mp fun bound => late (mem_upTo.mpr ⟨fed, positive, bound⟩)
  obtain ⟨inX, spanX, _⟩ := (mem_feed stored).mp fedX
  obtain ⟨inY, spanY, _⟩ := (mem_feed stored).mp fed
  obtain ⟨beyond, -⟩ := unsplit n positive x inX y inY spanX spanY (GPSTime.le_iff.mpr before)
  obtain ⟨later, outside⟩ := beyond (GPSTime.gt_iff.mpr after)
  exact ⟨before.trans_lt after, GPSTime.gt_iff.mp later, outside id List.mem_cons_self⟩

end Feed

def LoaderAt (p : Platform) (c : Config) (history : List TriggerInfo) (loaded : ℕ) (l : Loader) : Prop :=
  match l.point with
  | .fetch => l.tillTime = boundary p c loaded
  | .insert cache => l.tillTime = boundary p c (loaded + 1) ∧
      ∀ x, x ∈ cache ↔ x ∈ requested history (boundary p c (loaded + 1)) ∧ inSpan c x = true
  | .test => 0 < loaded ∧ l.tillTime = boundary p c loaded
  | .stopped => 0 < loaded ∧ c.endTime.stamp ≤ (boundary p c loaded).stamp

/-- How far an interleaving has come: `loaded` insertions were made, and the last merge
came after `merged` of them. -/
structure Progress (p : Platform) (c : Config) (siteMap : SiteMap) (siteTimeMap : SiteTimeMap)
    (history : List TriggerInfo) (events : List ThreadEvent) (s : Threads) (loaded merged : ℕ) : Prop where
  order : merged ≤ loaded
  loader : LoaderAt p c history loaded s.loader
  offered : ∀ x ∈ s.shared.transTriggers, x ∈ history ∧ inSpan c x = true ∧ 0 < loaded ∧
    x.time.stamp ≤ (boundary p c loaded).stamp
  /-- Of the loads already merged, only the last instant is offered again. -/
  renewed : ∀ x ∈ s.shared.transTriggers, (boundary p c merged).stamp ≤ x.time.stamp
  due : ∀ x ∈ upTo p c history loaded, x ∉ upTo p c history merged → x ∈ s.shared.transTriggers
  handed : Handed (locatorEvents events) fun x => x ∈ history ∧ inSpan c x = true
  queued : ∀ x ∈ s.locator.allTriggers, x ∈ upTo p c history merged
  kept : ∀ x ∈ upTo p c history merged, x ∈ s.locator.allTriggers ∨ x ∈ gone (locatorEvents events)
  busy : s.locator.busy = true ↔ s.locator.allTriggers ≠ []
  watermark : s.locator.currentProcessingTime = startWatermark c ∨
    ∃ b ∈ upTo p c history merged, s.locator.currentProcessingTime = windowEnd p c b
  /-- Draining the queue completes a replay of the first `merged` loads. -/
  replayed : ∀ later, Drains (turn p c siteMap siteTimeMap) s.locator.allTriggers later →
    Drains (turn p c siteMap siteTimeMap) (upTo p c history merged) (reports events ++ later)

section Steps

variable {p : Platform} {c : Config} {siteMap : SiteMap} {siteTimeMap : SiteTimeMap} {history : List TriggerInfo}
  {events : List ThreadEvent} {s next : Threads} {loaded merged : ℕ}

theorem reports_snoc (events : List ThreadEvent) (event : ThreadEvent) :
    reports (events ++ [event]) = reports events ++ ((event.shown.bind Event.post).map Post.report).toList := by
  rw [reports, locatorEvents_snoc, posts, List.filterMap_append, List.map_append, ← posts, ← reports]
  cases event.shown with
  | none => rfl
  | some shown => cases posted : shown.post <;> simp [posted]

theorem mem_insert (stored : Stored history) {cache : List TriggerInfo} {shared : Shared} {x : TriggerInfo}
    (offered : ∀ y ∈ shared.transTriggers ++ cache, y ∈ history) :
    x ∈ (shared.insert p cache).transTriggers ↔ x ∈ shared.transTriggers ∨ x ∈ cache := by
  rw [← List.mem_append]
  exact KeyedSort.mem_sortUnique p.sorter TriggerInfo.eq_iff
    (fun a inA b inB => stored.distinct a (offered a inA) b (offered b inB)) x

@[simp] theorem locatorEvents_loader (events : List ThreadEvent) (event : LoaderEvent) :
    locatorEvents (events ++ [.loader event]) = locatorEvents events := by
  rw [locatorEvents_snoc]
  exact List.append_nil _

@[simp] theorem reports_loader (events : List ThreadEvent) (event : LoaderEvent) :
    reports (events ++ [.loader event]) = reports events := by
  rw [reports, locatorEvents_loader, reports]

/-- Nothing is queued while the thread is outside the loop over the queue. -/
theorem Progress.drained (progress : Progress p c siteMap siteTimeMap history events s loaded merged)
    (free : s.locator.busy = false) : s.locator.allTriggers = [] := by
  by_contra more
  simp [progress.busy.mpr more] at free

theorem Progress.loader_only {event : LoaderEvent} {shared : Shared} {loader : Loader}
    (progress : Progress p c siteMap siteTimeMap history events s loaded merged)
    (same : shared.transTriggers = s.shared.transTriggers) (here : LoaderAt p c history loaded loader) :
    Progress p c siteMap siteTimeMap history (events ++ [.loader event]) { s with shared := shared, loader := loader }
      loaded merged := by
  obtain ⟨order, _, offered, renewed, due, handed, queued, kept, busy, watermark, replayed⟩ := progress
  exact ⟨order, here, same ▸ offered, same ▸ renewed, same ▸ due, by simpa using handed, queued,
    by simpa using kept, busy, watermark, by simpa using replayed⟩

theorem Progress.insert {cache : List TriggerInfo} {point : LoaderPoint} (start : c.startTime.Valid)
    (stored : Stored history) (progress : Progress p c siteMap siteTimeMap history events s loaded merged)
    (till : s.loader.tillTime = boundary p c (loaded + 1))
    (cached : ∀ x, x ∈ cache ↔ x ∈ requested history (boundary p c (loaded + 1)) ∧ inSpan c x = true)
    (goes : point = .test) :
    Progress p c siteMap siteTimeMap history (events ++ [.loader (.insert cache)])
      { s with shared := s.shared.insert p cache, loader := ⟨s.loader.tillTime, point⟩ } (loaded + 1) merged := by
  obtain ⟨order, _, offered, renewed, due, handed, queued, kept, busy, watermark, replayed⟩ := progress
  obtain ⟨valid, here⟩ := boundary_spec (p := p) start loaded
  obtain ⟨valid', at'⟩ := boundary_spec (p := p) start (loaded + 1)
  push_cast at at'
  have inCache (x : TriggerInfo) (member : x ∈ cache) : x ∈ history ∧ inSpan c x = true ∧
      x.time.stamp ≤ (boundary p c (loaded + 1)).stamp ∧ (boundary p c loaded).stamp ≤ x.time.stamp := by
    obtain ⟨answered, span⟩ := (cached x).mp member
    obtain ⟨inHistory, window⟩ := List.mem_filter.mp answered
    obtain ⟨since, till⟩ := of_decide_eq_true window
    have validX := (stored.stamped x inHistory).time
    refine ⟨inHistory, span, (GPSTime.instant_le_iff validX valid').mp till, ?_⟩
    rw [← GPSTime.instant_le_iff valid validX]
    linarith
  have all : ∀ y ∈ s.shared.transTriggers ++ cache, y ∈ history := by
    intro y member
    rcases List.mem_append.mp member with old | new
    · exact (offered y old).1
    · exact (inCache y new).1
  refine ⟨order.trans (Nat.le_succ loaded), ?_, ?_, ?_, ?_, by simpa using handed, queued, by simpa using kept, busy,
    watermark, by simpa using replayed⟩
  · rw [LoaderAt, goes]
    exact ⟨Nat.succ_pos loaded, till⟩
  · intro x member
    rcases (mem_insert stored all).mp member with old | new
    · obtain ⟨inHistory, span, _, before⟩ := offered x old
      exact ⟨inHistory, span, Nat.succ_pos loaded, before.trans (boundary_mono start (Nat.le_succ loaded))⟩
    · obtain ⟨inHistory, span, before, _⟩ := inCache x new
      exact ⟨inHistory, span, Nat.succ_pos loaded, before⟩
  · intro x member
    rcases (mem_insert stored all).mp member with old | new
    · exact renewed x old
    · exact (boundary_mono start order).trans (inCache x new).2.2.2
  · intro x member fresh
    rw [mem_insert stored all]
    by_cases earlier : x ∈ upTo p c history loaded
    · exact .inl (due x earlier fresh)
    · obtain ⟨fed, _, before⟩ := mem_upTo.mp member
      obtain ⟨inHistory, span, _⟩ := (mem_feed stored).mp fed
      have validX := (stored.stamped x inHistory).time
      -- before the first load the span starts the window, later the boundary does
      have after : (boundary p c loaded).stamp ≤ x.time.stamp := by
        cases loaded with
        | zero => exact (inSpan_iff.mp span).1
        | succ n => exact (not_le.mp fun bound => earlier (mem_upTo.mpr ⟨fed, Nat.succ_pos n, bound⟩)).le
      rw [← GPSTime.instant_le_iff valid validX] at after
      rw [← GPSTime.instant_le_iff validX valid'] at before
      refine .inr ((cached x).mpr ⟨List.mem_filter.mpr ⟨inHistory, decide_eq_true ⟨?_, before⟩⟩, span⟩)
      linarith

theorem Progress.load {reply : List TriggerInfo} {event : LoaderEvent} {shared : Shared} {loader : Loader}
    (replay : c.reProcess = true) (start : c.startTime.Valid) (stored : Stored history)
    (answered : Answered history (events ++ [.loader event]))
    (progress : Progress p c siteMap siteTimeMap history events s loaded merged)
    (loads : Loaded p c reply s.shared s.loader event shared loader) :
    ∃ loaded, Progress p c siteMap siteTimeMap history (events ++ [.loader event])
      { s with shared := shared, loader := loader } loaded merged := by
  have before := progress.loader
  cases loads with
  | history here =>
    simp only [LoaderAt, here] at before
    refine ⟨loaded, progress.loader_only rfl ⟨by rw [before]; rfl, fun x => ?_⟩⟩
    have replied := answered _ _ (List.mem_append_right _ (List.mem_singleton.mpr rfl)) x
    rw [List.mem_filter, replied, before]
    rfl
  | current here mode => simp [replay] at mode
  | insert cache here next goes =>
    simp only [LoaderAt, here] at before
    exact ⟨loaded + 1, progress.insert start stored before.1 before.2 (by simp [goes, replay])⟩
  | last here reached =>
    simp only [LoaderAt, here] at before
    exact ⟨loaded, progress.loader_only rfl ⟨before.1, before.2 ▸ reached⟩⟩
  | more here =>
    simp only [LoaderAt, here] at before
    exact ⟨loaded, progress.loader_only rfl before.2⟩

theorem Progress.silent {event : ThreadEvent} {point : LocatorPoint} {l : Locator}
    (progress : Progress p c siteMap siteTimeMap history events s loaded merged)
    (unseen : ∀ shown ∈ event.shown, ∃ warned, shown = .idle warned)
    (queue : l.allTriggers = s.locator.allTriggers) (busy : l.busy = s.locator.busy)
    (watermark : l.currentProcessingTime = s.locator.currentProcessingTime) :
    Progress p c siteMap siteTimeMap history (events ++ [event]) { s with point := point, locator := l }
      loaded merged := by
  have batches : Handed (locatorEvents (events ++ [event])) fun x => x ∈ history ∧ inSpan c x = true := by
    intro queue watermark batch member
    rw [locatorEvents_snoc] at member
    rcases List.mem_append.mp member with earlier | last
    · exact progress.handed queue watermark batch earlier
    · obtain ⟨warned, same⟩ := unseen _ (Option.mem_toList.mp last)
      contradiction
  have removed : gone (locatorEvents (events ++ [event])) = gone (locatorEvents events) := by
    rw [locatorEvents_snoc]
    cases shows : event.shown with
    | none => exact congrArg gone (List.append_nil _)
    | some shown =>
      obtain ⟨warned, rfl⟩ := unseen shown shows
      exact (gone_snoc _ _).trans (List.append_nil _)
  have posted : reports (events ++ [event]) = reports events := by
    rw [reports_snoc]
    cases shows : event.shown with
    | none => exact List.append_nil _
    | some shown =>
      obtain ⟨warned, rfl⟩ := unseen shown shows
      exact List.append_nil _
  obtain ⟨order, loader, offered, renewed, due, _, queued, kept, free, mark, replayed⟩ := progress
  exact ⟨order, loader, offered, renewed, due, batches, queue ▸ queued, by rw [removed, queue]; exact kept,
    by rw [busy, queue]; exact free, watermark ▸ mark, by rw [posted, queue]; exact replayed⟩

/-- A trigger at the end of a load, which the next load delivers once more. -/
def AtBoundary (p : Platform) (c : Config) (x : TriggerInfo) : Prop := ∃ n > 0, x.time.stamp = (boundary p c n).stamp

theorem steady_of_unsplit {shown : List Event} {l : Locator} (unsplit : Unsplit p c history)
    (handed : Handed shown fun x => x ∈ history ∧ inSpan c x = true)
    (reached : Runs p c siteMap siteTimeMap shown l) : Steady p c (AtBoundary p c) shown := by
  rintro now head rest verdict remaining member _ _ x inRest ⟨n, positive, edge⟩
  obtain ⟨earlier, later, before, _, _, _, rfl, run, _, queue, split, _⟩ := runs_pass reached member
  have queued := runs_queue run handed.earlier
  rw [queue] at queued
  have ascending := (runs_sane run).ascending
  rw [queue] at ascending
  obtain ⟨inHistory, span⟩ := queued head List.mem_cons_self
  obtain ⟨inHistory', span'⟩ := queued x (List.mem_cons_of_mem _ inRest)
  have before : head.time.stamp ≤ (boundary p c n).stamp :=
    edge ▸ TriggerInfo.stamp_le_of_key_le (ascending.head_le (List.mem_cons_of_mem _ inRest))
  obtain ⟨-, covers⟩ := unsplit n positive head inHistory x inHistory' span span' (GPSTime.le_iff.mpr before)
  exact (covers (GPSTime.eq_iff.mpr edge)).imp (fun outside => outside id List.mem_cons_self) GPSTime.le_iff.mp

theorem Progress.started (delay : 0 ≤ c.maxBaseLineAsTOA) (stored : Stored history)
    (progress : Progress p c siteMap siteTimeMap history events s loaded merged) :
    (startWatermark c).stamp ≤ s.locator.currentProcessingTime.stamp := by
  rcases progress.watermark with same | ⟨b, member, same⟩
  · rw [same]
  · obtain ⟨inHistory, _, after⟩ := (mem_feed stored).mp (mem_upTo.mp member).1
    rw [same]
    exact after.le.trans (base_le_windowEnd p (stored.stamped b inHistory) delay)

theorem Progress.admits (stored : Stored history)
    (progress : Progress p c siteMap siteTimeMap history events s loaded merged)
    (free : s.locator.busy = false) {x : TriggerInfo} (inTrans : x ∈ s.shared.transTriggers)
    (later : s.locator.currentProcessingTime.stamp < x.time.stamp) :
    x ∈ (s.locator.merge p s.shared.transTriggers).allTriggers := by
  have admitted : x ∈ s.locator.allTriggers ++
      s.shared.transTriggers.filter (fun t => t.time.gt s.locator.currentProcessingTime) :=
    List.mem_append_right _ (List.mem_filter.mpr ⟨inTrans, GPSTime.gt_iff.mpr later⟩)
  obtain ⟨y, taken, same⟩ := KeyedSort.sortUnique_covers p.sorter TriggerInfo.eq_iff admitted
  have fromTrans : y ∈ s.shared.transTriggers := by
    rcases mem_merge taken with old | ⟨new, _⟩
    · simp [progress.drained free] at old
    · exact new
  rw [← stored.distinct y (progress.offered y fromTrans).1 x (progress.offered x inTrans).1 same]
  exact taken

/-- What a load delivers once more is refused once a merge has taken it: it lies at the end
of the earlier load, and a window that takes it ends no sooner. -/
theorem Progress.not_twice (delay : 0 ≤ c.maxBaseLineAsTOA) (double : Binary64.Representable c.maxBaseLineAsTOA)
    (stored : Stored history) (unsplit : Unsplit p c history)
    (reached : Runs p c siteMap siteTimeMap (locatorEvents events) s.locator)
    (progress : Progress p c siteMap siteTimeMap history events s loaded merged) (free : s.locator.busy = false)
    {x : TriggerInfo} (inTrans : x ∈ s.shared.transTriggers)
    (later : s.locator.currentProcessingTime.stamp < x.time.stamp) : x ∉ upTo p c history merged := by
  intro known
  have removed : x ∈ gone (locatorEvents events) := by
    rcases progress.kept x known with queued | removed
    · simp [progress.drained free] at queued
    · exact removed
  obtain ⟨_, positive, upTill⟩ := mem_upTo.mp known
  have edge : AtBoundary p c x := ⟨merged, positive, le_antisymm upTill (progress.renewed x inTrans)⟩
  have handed : Handed (locatorEvents events) Stamped := fun queue watermark batch member y inBatch =>
    stored.stamped y (progress.handed queue watermark batch member y inBatch).1
  have marked := runs_watermarked delay double reached handed (steady_of_unsplit unsplit progress.handed reached)
  rcases marked.settled x removed edge with behind | ⟨busy, _⟩
  · exact absurd later (not_lt.mpr behind)
  · simp [busy] at free

/-- A merge takes over exactly what the loads since the last merge brought in. -/
theorem Progress.mem_merged (delay : 0 ≤ c.maxBaseLineAsTOA) (double : Binary64.Representable c.maxBaseLineAsTOA)
    (stored : Stored history) (unsplit : Unsplit p c history)
    (reached : Runs p c siteMap siteTimeMap (locatorEvents events) s.locator)
    (progress : Progress p c siteMap siteTimeMap history events s loaded merged)
    (free : s.locator.busy = false) (x : TriggerInfo) :
    x ∈ (s.locator.merge p s.shared.transTriggers).allTriggers ↔
      x ∈ upTo p c history loaded ∧ x ∉ upTo p c history merged := by
  constructor
  · intro taken
    rcases mem_merge taken with old | ⟨new, later⟩
    · simp [progress.drained free] at old
    · obtain ⟨inHistory, span, positive, before⟩ := progress.offered x new
      have after := (progress.started delay stored).trans_lt later
      have fed : x ∈ feed p c history := (mem_feed stored).mpr ⟨inHistory, span, after⟩
      exact ⟨mem_upTo.mpr ⟨fed, positive, before⟩,
        progress.not_twice delay double stored unsplit reached free new later⟩
  · rintro ⟨due, fresh⟩
    have fed := (mem_upTo.mp due).1
    apply progress.admits stored free (progress.due x due fresh)
    rcases progress.watermark with same | ⟨b, member, same⟩
    · rw [same]
      exact ((mem_feed stored).mp fed).2.2
    · rw [same]
      exact (after_upTo stored unsplit member fed fresh).2.1

theorem upTo_split (start : c.startTime.Valid) (stored : Stored history) (unsplit : Unsplit p c history)
    (order : merged ≤ loaded) {taken : List TriggerInfo} (ascending : Ascending taken)
    (member : ∀ x, x ∈ taken ↔ x ∈ upTo p c history loaded ∧ x ∉ upTo p c history merged) :
    upTo p c history loaded = upTo p c history merged ++ taken := by
  apply (upTo_ascending loaded).ext
  · apply List.pairwise_append.mpr
    refine ⟨upTo_ascending merged, ascending, fun x early y late => ?_⟩
    obtain ⟨due, fresh⟩ := (member y).mp late
    have before := (after_upTo stored unsplit early (mem_upTo.mp due).1 fresh).1
    exact Prod.Lex.toLex_lt_toLex.mpr (.inl before)
  · intro x
    rw [List.mem_append, member]
    constructor
    · intro inside
      by_cases early : x ∈ upTo p c history merged
      · exact .inl early
      · exact .inr ⟨inside, early⟩
    · rintro (early | ⟨inside, _⟩)
      · exact upTo_mono start order early
      · exact inside

/-- The earlier part is apart from what the merge takes over. -/
theorem upTo_apart (stored : Stored history) (unsplit : Unsplit p c history) {taken : List TriggerInfo}
    (member : ∀ x, x ∈ taken ↔ x ∈ upTo p c history loaded ∧ x ∉ upTo p c history merged) :
    Apart c taken (upTo p c history merged) := by
  refine ⟨upTo_ascending merged, fun x early => ?_, fun x early y late => ?_⟩
  · exact (stored.stamped x ((mem_feed stored).mp (mem_upTo.mp early).1).1).toWellFormed
  · obtain ⟨due, fresh⟩ := (member y).mp late
    exact (after_upTo stored unsplit early (mem_upTo.mp due).1 fresh).2.2

theorem Progress.merge (delay : 0 ≤ c.maxBaseLineAsTOA) (double : Binary64.Representable c.maxBaseLineAsTOA)
    (start : c.startTime.Valid) (stored : Stored history) (unsplit : Unsplit p c history)
    (reached : Runs p c siteMap siteTimeMap (locatorEvents events) s.locator)
    (progress : Progress p c siteMap siteTimeMap history events s loaded merged) (free : s.locator.busy = false)
    {point : LocatorPoint} :
    Progress p c siteMap siteTimeMap history
      (events ++ [.locator (.merge s.locator.allTriggers s.locator.currentProcessingTime s.shared.transTriggers)])
      ⟨⟨[], s.shared.keepLoading⟩, s.loader, point, s.locator.merge p s.shared.transTriggers⟩ loaded loaded := by
  have member := progress.mem_merged delay double stored unsplit reached free
  have split := upTo_split start stored unsplit progress.order
    (merge_ascending p s.shared.transTriggers s.locator) member
  have empty := progress.drained free
  obtain ⟨order, loader, offered, _, due, handed, queued, kept, busy, watermark, replayed⟩ := progress
  refine ⟨le_rfl, loader, by simp, by simp, fun x inside outside => absurd inside outside, ?_, ?_, ?_, ?_, ?_, ?_⟩
  · intro queue mark batch inRun x inBatch
    rw [locatorEvents_snoc] at inRun
    rcases List.mem_append.mp inRun with earlier | last
    · exact handed queue mark batch earlier x inBatch
    · cases List.mem_singleton.mp last
      exact ⟨(offered x inBatch).1, (offered x inBatch).2.1⟩
  · exact fun x taken => ((member x).mp taken).1
  · intro x inside
    by_cases early : x ∈ upTo p c history merged
    · rcases kept x early with old | removed
      · simp [empty] at old
      · rw [locatorEvents_snoc]
        exact .inr (mem_gone_snoc removed)
    · exact .inl ((member x).mpr ⟨inside, early⟩)
  · exact decide_eq_true_iff
  · rcases watermark with same | ⟨b, early, same⟩
    · exact .inl same
    · exact .inr ⟨b, upTo_mono start order early, same⟩
  · intro later drained
    have earlier := replayed [] (empty ▸ .done)
    have posted : reports (events ++ [.locator
        (.merge s.locator.allTriggers s.locator.currentProcessingTime s.shared.transTriggers)]) = reports events := by
      rw [reports_snoc]
      exact List.append_nil _
    rw [split, posted, ← List.append_nil (reports events)]
    apply Drains.append (Apart c (s.locator.merge p s.shared.transTriggers).allTriggers)
    · intro _ _ _ apart taken
      exact turn_append apart taken
    · exact upTo_apart stored unsplit member
    · exact earlier
    · exact drained

theorem Progress.pass (stored : Stored history) {now : ℤ} {event : Event} {l : Locator} {point : LocatorPoint}
    (aged : Aged p c history (events ++ [.locator event]))
    (reached : Runs p c siteMap siteTimeMap (locatorEvents events) s.locator)
    (progress : Progress p c siteMap siteTimeMap history events s loaded merged)
    (stepped : s.locator.step p c (.pass now) = some (event, l)) :
    Progress p c siteMap siteTimeMap history (events ++ [.locator event]) { s with point := point, locator := l }
      loaded merged := by
  obtain ⟨order, loader, offered, renewed, due, handed, queued, kept, busy, watermark, replayed⟩ := progress
  have inHistory (x : TriggerInfo) (member : x ∈ s.locator.allTriggers) : x ∈ history :=
    ((mem_feed stored).mp (mem_upTo.mp (queued x member)).1).1
  simp only [Locator.step] at stepped
  split_ifs at stepped with running
  obtain ⟨⟨verdict, after⟩, passed, done⟩ := Option.map_eq_some_iff.mp stepped
  cases done
  have old := aged now s.locator.allTriggers verdict after.allTriggers (List.mem_append_right _ List.mem_cons_self)
  obtain ⟨turned, still⟩ := pass_turn (runs_sane reached)
    (fun x member => (stored.stamped x (inHistory x member)).toWellFormed)
    (fun x member => old x (inHistory x member)) passed
  have sub := turn_sublist turned
  obtain ⟨baseTrig, rest, queue, inverted⟩ := pass_cases passed
  refine ⟨order, loader, offered, renewed, due, ?_, fun x member => queued x (sub.subset member), ?_, still, ?_, ?_⟩
  · intro queue mark batch inRun x inBatch
    rw [locatorEvents_snoc] at inRun
    rcases List.mem_append.mp inRun with earlier | last
    · exact handed queue mark batch earlier x inBatch
    · simp [ThreadEvent.shown] at last
  · intro x member
    rw [locatorEvents_snoc]
    rcases kept x member with inQueue | removed
    · exact (gone_or_queued inQueue).symm
    · exact .inr (mem_gone_snoc removed)
  · rcases inverted.watermark with unchanged | written
    · rw [unchanged]
      exact watermark
    · exact .inr ⟨baseTrig, queued baseTrig (queue ▸ List.mem_cons_self), written⟩
  · intro later drained
    have posted : reports (events ++ [.locator (.pass now s.locator.allTriggers verdict after.allTriggers)]) =
        reports events ++ verdict.reports := by
      rw [reports_snoc]
      cases verdict <;> rfl
    rw [posted, List.append_assoc]
    exact replayed _ (.turn turned drained)

theorem Progress.move (delay : 0 ≤ c.maxBaseLineAsTOA) (double : Binary64.Representable c.maxBaseLineAsTOA)
    (replay : c.reProcess = true) (start : c.startTime.Valid) (stored : Stored history) (unsplit : Unsplit p c history)
    {move : Move} {event : ThreadEvent}
    (answered : Answered history (events ++ [event])) (aged : Aged p c history (events ++ [event]))
    (reached : Interleaves p c siteMap siteTimeMap events s)
    (progress : Progress p c siteMap siteTimeMap history events s loaded merged)
    (happens : Happens p c s move event next) :
    ∃ loaded merged, Progress p c siteMap siteTimeMap history (events ++ [event]) next loaded merged := by
  have ran := interleaves_runs reached
  cases happens with
  | load reply event shared loader loads =>
    obtain ⟨loaded, still⟩ := progress.load replay start stored answered loads
    exact ⟨loaded, merged, still⟩
  | going | ending | rest | leave | select =>
    exact ⟨loaded, merged, progress.silent (by simp [ThreadEvent.shown]) rfl rfl rfl⟩
  | idle now here event l stepped =>
    cases step_cases stepped with
    | idle warned => exact ⟨loaded, merged, progress.silent (by simp [ThreadEvent.shown]) rfl rfl rfl⟩
  | merge now here =>
    have free : s.locator.busy = false := Bool.eq_false_of_not_eq_true fun busy => by
      simp [(interleaves_coupled reached).busy.mp busy] at here
    exact ⟨loaded, loaded, progress.merge delay double start stored unsplit ran free⟩
  | pass now here event l stepped =>
    exact ⟨loaded, merged, progress.pass stored aged ran stepped⟩

theorem interleaves_progress (delay : 0 ≤ c.maxBaseLineAsTOA) (double : Binary64.Representable c.maxBaseLineAsTOA)
    (replay : c.reProcess = true) (start : c.startTime.Valid) (stored : Stored history) (unsplit : Unsplit p c history)
    (answered : Answered history events) (aged : Aged p c history events)
    (reached : Interleaves p c siteMap siteTimeMap events s) :
    ∃ loaded merged, Progress p c siteMap siteTimeMap history events s loaded merged := by
  refine reached.invariant (fun shown s => Answered history shown → Aged p c history shown →
    ∃ loaded merged, Progress p c siteMap siteTimeMap history shown s loaded merged) ?_ ?_ answered aged
  · intro _ _
    refine ⟨0, 0, le_rfl, rfl, by simp [Threads.start], by simp [Threads.start], by simp [mem_upTo], ?_,
      by simp [Threads.start, Locator.start], by simp [mem_upTo], by simp [Threads.start, Locator.start], .inl rfl,
      fun later drained => ?_⟩
    · intro _ _ _ member
      simp [locatorEvents] at member
    · have nothing : upTo p c history 0 = [] := List.eq_nil_iff_forall_not_mem.mpr (by simp [mem_upTo])
      rw [nothing]
      exact drained
  · intro shown s move event next run holds stepped answered aged
    obtain ⟨loaded, merged, progress⟩ := holds
      (fun tillTime reply member => answered tillTime reply (List.mem_append_left _ member))
      (fun now queue verdict remaining member => aged now queue verdict remaining (List.mem_append_left _ member))
    exact progress.move delay double replay start stored unsplit answered aged run (threads_cases stepped)

theorem left_drained (delay : 0 ≤ c.maxBaseLineAsTOA) (double : Binary64.Representable c.maxBaseLineAsTOA)
    (replay : c.reProcess = true) (start : c.startTime.Valid) (stored : Stored history) (unsplit : Unsplit p c history)
    (answered : Answered history events) (aged : Aged p c history events)
    (reached : Interleaves p c siteMap siteTimeMap events s) (left : s.point = .left) :
    Drains (turn p c siteMap siteTimeMap) (feed p c history) (reports events) := by
  obtain ⟨loaded, merged, progress⟩ :=
    interleaves_progress delay double replay start stored unsplit answered aged reached
  have coupled := interleaves_coupled reached
  have stopped := coupled.stopped.mp (coupled.ended (.inr left))
  have loader := progress.loader
  simp only [LoaderAt, stopped] at loader
  have free : s.locator.busy = false := Bool.eq_false_of_not_eq_true fun busy => by
    simp [coupled.busy.mp busy] at left
  have empty := progress.drained free
  have whole : upTo p c history merged = feed p c history := by
    refine List.filter_eq_self.mpr fun x fed => ?_
    obtain ⟨inHistory, span, _⟩ := (mem_feed stored).mp fed
    have inside : x ∈ upTo p c history loaded :=
      mem_upTo.mpr ⟨fed, loader.1, (inSpan_iff.mp span).2.trans loader.2⟩
    by_contra missing
    have waiting := progress.due x inside fun known => missing (List.mem_filter.mp known).2
    simp [coupled.left left] at waiting
  have replayed := progress.replayed [] (empty ▸ .done)
  rwa [List.append_nil, whole] at replayed

end Steps

/-- With a negative window even the base is outside it, so nothing is located. -/
theorem posts_negative {p : Platform} {c : Config} {siteMap : SiteMap} {siteTimeMap : SiteTimeMap}
    {events : List Event} {l : Locator} (negative : c.maxBaseLineAsTOA < 0)
    (reached : Runs p c siteMap siteTimeMap events l) : posts events = [] := by
  by_contra posted
  obtain ⟨post, member⟩ := List.exists_mem_of_ne_nil _ posted
  obtain ⟨now, queue, baseTrig, triggerPool, rounds, remaining, inRun⟩ := mem_posts member
  obtain ⟨_, _, before, head, rest, after, _, _, _, same, split, _, passed, _⟩ := runs_pass reached inRun
  have enough : 5 ≤ (before.scanFrom c head).triggerPool.size := by
    generalize shown : Verdict.located baseTrig triggerPool rounds (some post) = verdict at passed
    cases passed with
    | isolated | waiting | few | rejected => contradiction
    | located _ _ enough => exact enough
  obtain ⟨pool, _, _⟩ := scan_spec c.maxBaseLineAsTOA head 0 before.allTriggers
    ⟨.empty, before.siteMap, before.siteTimeMap⟩
  have nothing : examined c.maxBaseLineAsTOA head 0 before.allTriggers = [] := by
    have square := mul_self_nonneg head.value
    rw [same, split, examined, if_neg (not_lt.mpr square), GPSTime.sub_self, if_pos (.inl (by linarith))]
  rw [Locator.scanFrom, pool, window, nothing] at enough
  simp [OrderedMap.empty, OrderedMap.size] at enough

/-- Where the triggers around the load boundaries lie further apart than a window, all
finished interleavings of the two threads post the same. -/
theorem replay_schedule_independent {p : Platform} {c : Config} {siteMap : SiteMap} {siteTimeMap : SiteTimeMap}
    {history : List TriggerInfo} {events events' : List ThreadEvent} {s s' : Threads}
    (replay : c.reProcess = true) (start : c.startTime.Valid)
    (double : Binary64.Representable c.maxBaseLineAsTOA) (stored : Stored history)
    (unsplit : Unsplit p c history) (answered : Answered history events) (aged : Aged p c history events)
    (reached : Interleaves p c siteMap siteTimeMap events s) (left : s.point = .left)
    (answered' : Answered history events') (aged' : Aged p c history events')
    (reached' : Interleaves p c siteMap siteTimeMap events' s') (left' : s'.point = .left) :
    reports events = reports events' := by
  by_cases delay : 0 ≤ c.maxBaseLineAsTOA
  · have drained := left_drained delay double replay start stored unsplit answered aged reached left
    have drained' := left_drained delay double replay start stored unsplit answered' aged' reached' left'
    exact drained.functional rfl drained'
  · have negative := not_le.mp delay
    rw [reports, reports, posts_negative negative (interleaves_runs reached),
      posts_negative negative (interleaves_runs reached')]

def ThreadEvent.fits (p : Platform) (c : Config) (history : List TriggerInfo) : ThreadEvent → Bool
  | .loader (.fetch tillTime reply) => reply = requested history tillTime
  | .locator (.pass now _ _ _) => ∀ x ∈ history, tooYoung p c now x = false
  | _ => true

theorem fits_all {p : Platform} {c : Config} {history : List TriggerInfo} {events : List ThreadEvent}
    (fits : events.all (ThreadEvent.fits p c history) = true) : Answered history events ∧ Aged p c history events := by
  constructor
  · intro tillTime reply member x
    have fit := List.all_eq_true.mp fits _ member
    rw [of_decide_eq_true fit]
  · intro now queue verdict remaining member
    exact of_decide_eq_true (List.all_eq_true.mp fits _ member)

namespace Sample

def loadsFirst (first second : List TriggerInfo) (turns : ℕ) : List Move :=
  [.loader first, .loader [], .loader [], .loader second, .loader [], .loader []] ++
    List.replicate turns (.locator now)

def loadsApart (first second : List TriggerInfo) (turns more : ℕ) : List Move :=
  [.loader first, .loader []] ++ List.replicate turns (.locator now) ++
    [.loader [], .loader second, .loader [], .loader []] ++ List.replicate more (.locator now)

def beforeLoad : List TriggerInfo :=
  [⟨.ofFields 24 4 20 20 20 29 (Binary64.toDouble 0.9990), 1, 1, 0⟩,
    ⟨.ofFields 24 4 20 20 20 29 (Binary64.toDouble 0.9992), 2, 1, 0⟩,
    ⟨.ofFields 24 4 20 20 20 29 (Binary64.toDouble 0.9994), 3, 1, 0⟩]

def afterLoad : List TriggerInfo :=
  [⟨.ofFields 24 4 20 20 20 30 (Binary64.toDouble 0.0006), 4, 1, 0⟩,
    ⟨.ofFields 24 4 20 20 20 30 (Binary64.toDouble 0.0008), 5, 1, 0⟩]

def interleaveDoubles (moves : List Move) : Option (List ThreadEvent × Threads) :=
  Machine.run (Threads.step (platform prefersLate) doubles) (Threads.start doubles siteMap siteTimeMap) moves

end Sample

theorem replay_schedule_independent_distinct : ∃ events events' s s',
    Interleaves (Sample.platform Sample.prefersLate) Sample.doubles Sample.siteMap Sample.siteTimeMap events s ∧
    Interleaves (Sample.platform Sample.prefersLate) Sample.doubles Sample.siteMap Sample.siteTimeMap events' s' ∧
    s.point = .left ∧ s'.point = .left ∧ (reports events).length = 1 ∧ reports events = reports events' := by
  obtain ⟨⟨events, s⟩, ran, shown⟩ := Option.map_eq_some_iff.mp
    (show (Sample.interleaveDoubles (Sample.loadsFirst Sample.stampedStations [] 7)).map
        (fun r => decide (r.2.point = .left ∧ (reports r.1).length = 1 ∧ r.1.all (ThreadEvent.fits
          (Sample.platform Sample.prefersLate) Sample.doubles Sample.stampedStations) = true)) = some true
      by decide +kernel)
  obtain ⟨⟨events', s'⟩, ran', shown'⟩ := Option.map_eq_some_iff.mp
    (show (Sample.interleaveDoubles (Sample.loadsApart Sample.stampedStations [] 4 2)).map
        (fun r => decide (r.2.point = .left ∧ r.1.all (ThreadEvent.fits
          (Sample.platform Sample.prefersLate) Sample.doubles Sample.stampedStations) = true)) = some true
      by decide +kernel)
  obtain ⟨left, posted, fits⟩ := of_decide_eq_true shown
  obtain ⟨left', fits'⟩ := of_decide_eq_true shown'
  obtain ⟨answered, aged⟩ := fits_all fits
  obtain ⟨answered', aged'⟩ := fits_all fits'
  have start : Sample.doubles.startTime.Valid := by decide +kernel
  have stored : Stored Sample.stampedStations := ⟨by decide +kernel, by decide +kernel⟩
  have early : ∀ y ∈ Sample.stampedStations,
      y.time.stamp < (boundary (Sample.platform Sample.prefersLate) Sample.doubles 1).stamp := by decide +kernel
  refine ⟨events, events', s, s', ⟨_, ran⟩, ⟨_, ran'⟩, left, left', posted,
    replay_schedule_independent rfl start (by decide +kernel) stored ?_ answered aged ⟨_, ran⟩ left
      answered' aged' ⟨_, ran'⟩ left'⟩
  intro n positive x _ y inY _ _ _
  have before := (early y inY).trans_le (boundary_mono start positive)
  refine ⟨fun after => ?_, fun edge => ?_⟩
  · exact absurd (GPSTime.gt_iff.mp after) (not_lt.mpr before.le)
  · exact absurd (GPSTime.eq_iff.mp edge) before.ne

/-- Five triggers of one event, three of them before a load boundary: posted when both
loads come first, lost when a merge comes between them. -/
theorem replay_lost_at_boundary : Sample.doubles.reProcess = true ∧ Sample.doubles.startTime.Valid ∧
    Binary64.Representable Sample.doubles.maxBaseLineAsTOA ∧
    Stored (Sample.beforeLoad ++ Sample.afterLoad) ∧
    ∃ events events' s s',
      Interleaves (Sample.platform Sample.prefersLate) Sample.doubles Sample.siteMap Sample.siteTimeMap events s ∧
      Interleaves (Sample.platform Sample.prefersLate) Sample.doubles Sample.siteMap Sample.siteTimeMap events' s' ∧
      s.point = .left ∧ s'.point = .left ∧
      (Answered (Sample.beforeLoad ++ Sample.afterLoad) events ∧
        Aged (Sample.platform Sample.prefersLate) Sample.doubles (Sample.beforeLoad ++ Sample.afterLoad) events) ∧
      (Answered (Sample.beforeLoad ++ Sample.afterLoad) events' ∧
        Aged (Sample.platform Sample.prefersLate) Sample.doubles (Sample.beforeLoad ++ Sample.afterLoad) events') ∧
      ∃ report ∈ reports events, report ∉ reports events' := by
  obtain ⟨⟨events, s⟩, ran, shown⟩ := Option.map_eq_some_iff.mp
    (show (Sample.interleaveDoubles (Sample.loadsFirst Sample.beforeLoad Sample.afterLoad 7)).map
        (fun r => decide (r.2.point = .left ∧ (reports r.1).length = 1 ∧ r.1.all (ThreadEvent.fits
          (Sample.platform Sample.prefersLate) Sample.doubles (Sample.beforeLoad ++ Sample.afterLoad)) = true)) =
      some true by decide +kernel)
  obtain ⟨⟨events', s'⟩, ran', shown'⟩ := Option.map_eq_some_iff.mp
    (show (Sample.interleaveDoubles (Sample.loadsApart Sample.beforeLoad Sample.afterLoad 6 6)).map
        (fun r => decide (r.2.point = .left ∧ (reports r.1).length = 0 ∧ r.1.all (ThreadEvent.fits
          (Sample.platform Sample.prefersLate) Sample.doubles (Sample.beforeLoad ++ Sample.afterLoad)) = true)) =
      some true by decide +kernel)
  obtain ⟨left, posted, fits⟩ := of_decide_eq_true shown
  obtain ⟨left', lost, fits'⟩ := of_decide_eq_true shown'
  obtain ⟨report, member⟩ := List.exists_mem_of_length_pos (by rw [posted]; exact Nat.one_pos)
  refine ⟨rfl, by decide +kernel, by decide +kernel, ⟨by decide +kernel, by decide +kernel⟩, events, events', s, s',
    ⟨_, ran⟩, ⟨_, ran'⟩, left, left', fits_all fits, fits_all fits', report, member, ?_⟩
  rw [List.eq_nil_of_length_eq_zero lost]
  exact List.not_mem_nil

end LigDataParsing
