import LigDataParsing.Threads

/-! The warning that no data has come for ten minutes: it is sent over MQTT by the waiting
branch of the outer loop, by the count of its ten-second waits since the last merge. -/
namespace LigDataParsing

def Event.isMerge : Event → Bool
  | .merge .. => true
  | _ => false

def Event.isIdle : Event → Bool
  | .idle _ => true
  | _ => false

def Event.isWarning : Event → Bool
  | .idle warned => warned
  | _ => false

/-- What has happened since the last merge, the latest first. -/
def sinceMerge (events : List Event) : List Event := events.reverse.takeWhile fun event => !event.isMerge

def idles (events : List Event) : ℕ := (sinceMerge events).countP Event.isIdle

def warnings (events : List Event) : ℕ := (sinceMerge events).countP Event.isWarning

section Counts

variable {events : List Event} {event : Event}

theorem sinceMerge_snoc (events : List Event) (event : Event) :
    sinceMerge (events ++ [event]) = if event.isMerge then [] else event :: sinceMerge events := by
  rw [sinceMerge, List.reverse_append, List.reverse_singleton, List.singleton_append, List.takeWhile_cons]
  cases event.isMerge with
  | true => rfl
  | false => rfl

theorem idles_snoc (events : List Event) (event : Event) : idles (events ++ [event]) =
    if event.isMerge then 0 else idles events + if event.isIdle then 1 else 0 := by
  rw [idles, sinceMerge_snoc]
  split_ifs with merged idle
  · rfl
  · rw [List.countP_cons, if_pos idle, idles]
  · rw [List.countP_cons, if_neg idle, idles]

theorem warnings_snoc (events : List Event) (event : Event) : warnings (events ++ [event]) =
    if event.isMerge then 0 else warnings events + if event.isWarning then 1 else 0 := by
  rw [warnings, sinceMerge_snoc]
  split_ifs with merged warned
  · rfl
  · rw [List.countP_cons, if_pos warned, warnings]
  · rw [List.countP_cons, if_neg warned, warnings]

end Counts

/-- `AccumulatedIdleTime` counts the waits, and the warnings keep up with it. -/
structure Timed (events : List Event) (l : Locator) : Prop where
  accumulated : l.accumulatedIdleTime = 10 * idles events
  warned : warnings events = (idles events - 1) / 60

section Steps

variable {p : Platform} {c : Config} {siteMap : SiteMap} {siteTimeMap : SiteTimeMap} {events : List Event}
  {l next : Locator} {a : Action} {event : Event}

theorem Passed.accumulated {now : ℤ} {baseTrig : TriggerInfo} {rest : List TriggerInfo} {verdict : Verdict}
    (passed : Passed p c now l baseTrig rest verdict next) : next.accumulatedIdleTime = l.accumulatedIdleTime := by
  cases passed with
  | isolated | waiting | few | rejected | located => rfl

theorem idle_warns (warned : Bool) (stepped : l.step p c a = some (.idle warned, next)) (timed : Timed events l) :
    warned = true ↔ 60 ∣ idles events ∧ idles events ≠ 0 := by
  cases a with
  | merge => simp [Locator.step] at stepped
  | pass => simp [Locator.step] at stepped
  | idle =>
    simp only [Locator.step] at stepped
    split_ifs at stepped
    obtain ⟨shown, -⟩ := Prod.mk.inj (Option.some.inj stepped)
    obtain rfl := Event.idle.inj shown
    rw [decide_eq_true_eq, timed.accumulated]
    omega

theorem step_timed (timed : Timed events l) (stepped : l.step p c a = some (event, next)) :
    Timed (events ++ [event]) next := by
  cases step_cases stepped with
  | merge transTriggers =>
    have idle : idles (events ++ [.merge l.allTriggers l.currentProcessingTime transTriggers]) = 0 := by
      simp [idles_snoc, Event.isMerge]
    refine ⟨?_, ?_⟩
    · rw [idle]
      rfl
    · rw [idle, warnings_snoc]
      rfl
  | idle warned =>
    have warns := idle_warns warned stepped timed
    obtain ⟨accumulated, before⟩ := timed
    refine ⟨?_, ?_⟩
    · rw [idles_snoc, accumulated]
      simp only [Event.isMerge, Event.isIdle]
      simp
      ring
    · rw [warnings_snoc, idles_snoc, before]
      simp only [Event.isMerge, Event.isIdle, Event.isWarning]
      cases warned with
      | true =>
        have sixty := warns.mp rfl
        simp
        omega
      | false =>
        have other := mt warns.mpr Bool.false_ne_true
        simp
        omega
  | pass now baseTrig rest verdict next busy queue passed =>
    refine ⟨?_, ?_⟩
    · rw [idles_snoc, passed.accumulated, timed.accumulated]
      rfl
    · rw [warnings_snoc, idles_snoc]
      exact timed.warned

theorem runs_timed (reached : Runs p c siteMap siteTimeMap events l) : Timed events l := by
  apply reached.invariant Timed
  · exact ⟨rfl, rfl⟩
  · intro _ _ _ _ _ _ timed stepped
    exact step_timed timed stepped

end Steps

/-- In every interleaving of the two threads a wait warns exactly if it comes a positive multiple
of sixty waits after the last merge, or after the beginning: ten minutes, twenty minutes and so on. -/
theorem warned_every_ten_minutes {p : Platform} {c : Config} {siteMap : SiteMap} {siteTimeMap : SiteTimeMap}
    {events : List ThreadEvent} {s : Threads} (reached : Interleaves p c siteMap siteTimeMap events s) :
    warnings (locatorEvents events) = (idles (locatorEvents events) - 1) / 60 ∧
    ∀ earlier warned later, locatorEvents events = earlier ++ .idle warned :: later →
      (warned = true ↔ 60 ∣ idles earlier ∧ idles earlier ≠ 0) := by
  have run := interleaves_runs reached
  refine ⟨(runs_timed run).warned, fun earlier warned later split => ?_⟩
  rw [split] at run
  obtain ⟨before, a, after, ran, stepped, -⟩ := run.step_at
  exact idle_warns warned stepped (runs_timed ran)

/-- Ten minutes and ten seconds without data: the last wait is the one that warns. -/
theorem warned_after_ten_minutes : ∃ events s earlier,
    Interleaves (Sample.platform Sample.prefersLate) Sample.config Sample.siteMap Sample.siteTimeMap events s ∧
    locatorEvents events = earlier ++ [.idle true] ∧ warnings (locatorEvents events) = 1 ∧ idles earlier = 60 := by
  obtain ⟨⟨events, s⟩, ran, shown⟩ := Option.map_eq_some_iff.mp
    (show (Sample.interleave (List.replicate 122 (.locator 0))).map
      (fun r => ((locatorEvents r.1).getLast?.map Event.isWarning, idles (locatorEvents r.1),
        idles (locatorEvents r.1).dropLast)) = some (some true, 61, 60) by decide +kernel)
  simp only [Prod.mk.injEq, Option.map_eq_some_iff] at shown
  obtain ⟨⟨last, ends, warns⟩, sixtyOne, sixty⟩ := shown
  obtain ⟨counted, -⟩ := warned_every_ten_minutes (show Interleaves _ _ _ _ events s from ⟨_, ran⟩)
  rw [sixtyOne] at counted
  obtain ⟨earlier, split⟩ := List.getLast?_eq_some_iff.mp ends
  cases last with
  | merge | pass => simp [Event.isWarning] at warns
  | idle warned =>
    obtain rfl : warned = true := warns
    rw [split, List.dropLast_concat] at sixty
    exact ⟨events, s, earlier, ⟨_, ran⟩, split, counted, sixty⟩

end LigDataParsing
