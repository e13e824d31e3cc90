import LigDataParsing.Watermark

/-! How often a trigger takes part in a location. -/
namespace LigDataParsing

open Lookup IndexedErase

variable {p : Platform} {c : Config} {siteMap : SiteMap} {siteTimeMap : SiteTimeMap} {events : List Event}
  {l : Locator}

/-- The pass of a located combination takes the triggers out of the queue that are the first
of their station in the window. -/
theorem located_leaves {now : ℤ} {baseTrig : TriggerInfo} {rest : List TriggerInfo} {triggerPool : TriggerPool}
    {rounds : Rounds} {post : Option Post} {next : Locator} (ascending : Ascending l.allTriggers)
    (unset : ∀ x ∈ l.allTriggers, x.trigIdx = 0)
    (passed : Passed p c now l baseTrig rest (.located baseTrig triggerPool rounds post) next) {t : TriggerInfo}
    (member : t ∈ rounds.oneComb) : ∃ x ∈ l.allTriggers, x.key = t.key ∧
      (FirstOfStation (l.windowOf c baseTrig) t → x ∉ next.allTriggers) := by
  cases passed with
  | located near old enough rounds found good =>
    subst found
    have drawn := located_drawn ascending enough good
    obtain ⟨j, x, stands⟩ := drawn.stands t member
    refine ⟨x, List.mem_of_getElem? stands.inQueue, stands.key.symm, fun first => ?_⟩
    simp only [Locator.leave, drawn.erased ascending unset]
    intro left
    have kept := of_decide_eq_true (List.mem_filter.mp (List.mem_of_mem_drop left)).2
    exact kept t (List.mem_filter.mpr ⟨member, decide_eq_true first⟩) stands.key.symm

def Event.location (time : ℤ → ℤ → ℚ) (c : Config) : Event → Option (List (ℕ × TriggerInfo) × List TriggerInfo)
  | .pass _ queue (.located baseTrig _ rounds _) _ =>
    some (window time c.maxBaseLineAsTOA baseTrig 0 queue, rounds.oneComb)
  | _ => none

def locations (time : ℤ → ℤ → ℚ) (c : Config) (events : List Event) :
    List (List (ℕ × TriggerInfo) × List TriggerInfo) :=
  events.filterMap (Event.location time c)

theorem locations_snoc (time : ℤ → ℤ → ℚ) (c : Config) (events : List Event) (event : Event) :
    locations time c (events ++ [event]) = locations time c events ++ (event.location time c).toList :=
  Machine.filterMap_snoc _ events event

theorem pass_location {now : ℤ} {baseTrig : TriggerInfo} {rest : List TriggerInfo} {verdict : Verdict} {next : Locator}
    (delay : 0 ≤ c.maxBaseLineAsTOA) (double : Binary64.Representable c.maxBaseLineAsTOA)
    (run : Runs p c siteMap siteTimeMap events l) (handed : Handed events Stamped)
    (steady : Steady p c (fun _ => True) events) (passed : Passed p c now l baseTrig rest verdict next)
    {found : List (ℕ × TriggerInfo) × List TriggerInfo}
    (located : Event.location siteTimeMap.value c (.pass now l.allTriggers verdict next.allTriggers) = some found)
    {t : TriggerInfo} (member : t ∈ found.2) :
    (∀ x ∈ gone events, t.key ≠ x.key) ∧ (FirstOfStation found.1 t →
      ∃ x ∈ gone (events ++ [.pass now l.allTriggers verdict next.allTriggers]), x.key = t.key) := by
  have sane := runs_sane run
  have unset : ∀ x ∈ l.allTriggers, x.trigIdx = 0 := fun x queued =>
    (runs_queue run handed x queued).unset
  cases verdict with
  | isolated | waiting | unlocated => simp [Event.location] at located
  | located base triggerPool rounds post =>
    simp only [Event.location, Option.some.injEq] at located
    subst located
    have based : baseTrig = base := by
      cases passed
      rfl
    subst based
    obtain ⟨x, queued, same, leaves⟩ := located_leaves sane.ascending unset passed member
    refine ⟨fun y left => same ▸ gone_forever delay double run handed steady y left x queued, fun first => ?_⟩
    rw [← sane.times.value] at first
    exact ⟨x, mem_gone_pass.mpr (.inr ⟨queued, leaves first⟩), same⟩

/-- Every location takes a trigger that is the first of its station in the window out for
good: no later location of the run has a trigger of the same time and station. -/
theorem located_once {p : Platform} {c : Config} {siteMap : SiteMap} {siteTimeMap : SiteTimeMap} {events : List Event}
    {l : Locator} (delay : 0 ≤ c.maxBaseLineAsTOA) (double : Binary64.Representable c.maxBaseLineAsTOA)
    (handed : Handed events Stamped) (covered : ∀ event ∈ events, event.covered p c = true)
    (reached : Runs p c siteMap siteTimeMap events l) :
    (locations siteTimeMap.value c events).Pairwise fun earlier later =>
      ∀ t ∈ earlier.2, FirstOfStation earlier.1 t → ∀ t' ∈ later.2, t'.key ≠ t.key := by
  have both := reached.invariant (fun shown _ => Handed shown Stamped → Steady p c (fun _ => True) shown →
    (∀ found ∈ locations siteTimeMap.value c shown, ∀ t ∈ found.2, FirstOfStation found.1 t →
      ∃ x ∈ gone shown, x.key = t.key) ∧
    (locations siteTimeMap.value c shown).Pairwise fun earlier later =>
      ∀ t ∈ earlier.2, FirstOfStation earlier.1 t → ∀ t' ∈ later.2, t'.key ≠ t.key) ?_ ?_
  · exact (both handed (steady_of_covered covered)).2
  · exact fun _ _ => ⟨fun _ member => absurd member List.not_mem_nil, .nil⟩
  · intro shown current a event next run holds stepped handed steady
    obtain ⟨taken, once⟩ := holds handed.earlier steady.earlier
    have earlier : ∀ found ∈ locations siteTimeMap.value c shown, ∀ t ∈ found.2, FirstOfStation found.1 t →
        ∃ x ∈ gone (shown ++ [event]), x.key = t.key := by
      intro found member t inComb first
      obtain ⟨x, left, same⟩ := taken found member t inComb first
      exact ⟨x, mem_gone_snoc left, same⟩
    rw [locations_snoc]
    cases located : event.location siteTimeMap.value c with
    | none =>
      rw [Option.toList_none, List.append_nil]
      exact ⟨earlier, once⟩
    | some found =>
      cases step_cases stepped with
      | merge | idle => simp [Event.location] at located
      | pass now baseTrig rest verdict next busy head passed =>
        refine ⟨fun found' member t inComb first => ?_, ?_⟩
        · rcases List.mem_append.mp member with old | new
          · exact earlier found' old t inComb first
          · rw [List.mem_singleton.mp new] at inComb first
            exact (pass_location delay double run handed.earlier steady.earlier passed located inComb).2 first
        · rw [List.pairwise_append]
          refine ⟨once, List.pairwise_singleton _ _, fun found' old last new t inComb first t' inComb' => ?_⟩
          rw [List.mem_singleton.mp new] at inComb'
          obtain ⟨x, left, same⟩ := taken found' old t inComb first
          rw [← same]
          exact (pass_location delay double run handed.earlier steady.earlier passed located inComb').1 x left

namespace Sample

def secondEvent : List TriggerInfo := stampedStations.map fun t => { t with time := { t.time with sec := 18 } }

end Sample

theorem located_once_two : ∃ events l first second,
    Runs (Sample.platform Sample.prefersLate) Sample.doubles Sample.siteMap Sample.siteTimeMap events l ∧
    locations Sample.siteTimeMap.value Sample.doubles events = [first, second] ∧
    (∀ t ∈ first.2, FirstOfStation first.1 t) ∧ first.2.length = 5 ∧ second.2.length = 5 ∧
    ∀ t ∈ first.2, ∀ t' ∈ second.2, t'.key ≠ t.key := by
  obtain ⟨⟨events, l⟩, ran, shown⟩ := Option.map_eq_some_iff.mp
    (show (Sample.runDoubles [.merge (Sample.stampedStations ++ Sample.secondEvent), .pass Sample.now,
        .pass Sample.now]).map (fun r => (r.1.all (Event.covered (Sample.platform Sample.prefersLate) Sample.doubles),
          (locations Sample.siteTimeMap.value Sample.doubles r.1).map fun found =>
            (decide (∀ t ∈ found.2, FirstOfStation found.1 t), found.2.length))) =
      some (true, [(true, 5), (true, 5)]) by decide +kernel)
  obtain ⟨covered, shown⟩ := Prod.mk.inj shown
  obtain ⟨first, rest, split, one, two⟩ := List.map_eq_cons_iff.mp shown
  obtain ⟨second, rfl, last⟩ := List.map_eq_singleton_iff.mp two
  obtain ⟨firsts, five⟩ := Prod.mk.inj one
  obtain ⟨-, five'⟩ := Prod.mk.inj last
  have firsts := of_decide_eq_true firsts
  have handed : Handed events Stamped := by
    refine handed_of_run ran fun batch member x inBatch => ?_
    have sample : batch = Sample.stampedStations ++ Sample.secondEvent := by simpa using member
    subst sample
    revert x
    decide +kernel
  have once := located_once (by decide +kernel) (by decide +kernel) handed (List.all_eq_true.mp covered) ⟨_, ran⟩
  rw [split, List.pairwise_pair] at once
  exact ⟨events, l, first, second, ⟨_, ran⟩, split, firsts, five, five',
    fun t member => once t member (firsts t member)⟩

end LigDataParsing
