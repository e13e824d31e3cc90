import LigDataParsing.Located

/-! What holds after every run of `ThreadLoc`: the queue stays sorted, its triggers come
from the batches, and both maps keep the values they were built with. -/
namespace LigDataParsing

open Lookup

structure Sane (siteMap : SiteMap) (siteTimeMap : SiteTimeMap) (l : Locator) : Prop where
  ascending : Ascending l.allTriggers
  sites : l.siteMap.value = siteMap.value
  times : siteTimeMap.Grown l.siteTimeMap

def Handed (events : List Event) (property : TriggerInfo → Prop) : Prop :=
  ∀ queue watermark batch, Event.merge queue watermark batch ∈ events → ∀ x ∈ batch, property x

theorem Handed.earlier {events more : List Event} {property : TriggerInfo → Prop}
    (handed : Handed (events ++ more) property) : Handed events property :=
  fun queue watermark batch member => handed queue watermark batch (List.mem_append_left _ member)

theorem Handed.last {events : List Event} {queue batch : List TriggerInfo} {watermark : GPSTime}
    {property : TriggerInfo → Prop} (handed : Handed (events ++ [.merge queue watermark batch]) property) :
    ∀ x ∈ batch, property x :=
  handed queue watermark batch (List.mem_append_right _ (List.mem_singleton.mpr rfl))

/-- A trigger as the loaders hand it over: a well-formed time and no position yet. -/
structure WellFormed (t : TriggerInfo) : Prop where
  time : t.time.Valid
  unset : t.trigIdx = 0

instance (t : TriggerInfo) : Decidable (WellFormed t) :=
  decidable_of_iff (t.time.Valid ∧ t.trigIdx = 0) ⟨fun ⟨a, b⟩ => ⟨a, b⟩, fun h => ⟨h.1, h.2⟩⟩

theorem Sample.distinctStations_wellFormed : ∀ x ∈ Sample.distinctStations, WellFormed x := by
  decide +kernel

structure Stamped (t : TriggerInfo) : Prop extends WellFormed t where
  double : Binary64.Representable t.time.actPointSec

instance (t : TriggerInfo) : Decidable (Stamped t) :=
  decidable_of_iff (WellFormed t ∧ Binary64.Representable t.time.actPointSec)
    ⟨fun ⟨a, b⟩ => ⟨a, b⟩, fun h => ⟨h.1, h.2⟩⟩

def Event.gone : Event → List TriggerInfo
  | .pass _ queue _ remaining => queue.filter (· ∉ remaining)
  | _ => []

def gone (events : List Event) : List TriggerInfo := events.flatMap Event.gone

def UnitesKeys (old added result : List TriggerInfo) : Prop :=
  ∀ key, key ∈ result.map TriggerInfo.key ↔
    key ∈ old.map TriggerInfo.key ∨ key ∈ added.map TriggerInfo.key

section Step

variable {p : Platform} {c : Config} {now : ℤ} {l next : Locator} {baseTrig : TriggerInfo}
  {rest : List TriggerInfo} {verdict : Verdict} {a : Action} {event : Event}

theorem Passed.sublist (queue : l.allTriggers = baseTrig :: rest)
    (passed : Passed p c now l baseTrig rest verdict next) : next.allTriggers.Sublist l.allTriggers := by
  cases passed with
  | isolated | few | rejected =>
    rw [queue]
    exact List.sublist_cons_self baseTrig rest
  | waiting => exact List.Sublist.refl _
  | located => exact IndexedErase.eraseAll_sublist _ _

theorem Passed.sites (passed : Passed p c now l baseTrig rest verdict next) :
    next.siteMap.value = l.siteMap.value := by
  have scanned := (scanFrom_spec c baseTrig l).2.1
  cases passed with
  | isolated | waiting => rfl
  | few => exact scanned
  | rejected _ _ enough => exact (locate_consistent p c _ enough).locations.trans scanned
  | located _ _ enough rounds found =>
    subst found
    exact (Table.touch_value _ _).trans ((locate_consistent p c _ enough).locations.trans scanned)

theorem Passed.times (passed : Passed p c now l baseTrig rest verdict next) :
    l.siteTimeMap.Grown next.siteTimeMap := by
  have scanned := (scanFrom_spec c baseTrig l).2.2
  cases passed with
  | isolated | waiting => exact Table2.Grown.refl _
  | few => exact scanned
  | rejected _ _ enough => exact scanned.trans (locate_consistent p c _ enough).times
  | located _ _ enough rounds found =>
    subst found
    exact scanned.trans (locate_consistent p c _ enough).times

theorem merge_ascending (p : Platform) (transTriggers : List TriggerInfo) (l : Locator) :
    Ascending (l.merge p transTriggers).allTriggers :=
  KeyedSort.sortUnique_ascending p.sorter TriggerInfo.lt_iff TriggerInfo.eq_iff _

/-- A merge takes from the batch only what is later than the watermark. -/
theorem mem_merge {transTriggers : List TriggerInfo} {x : TriggerInfo}
    (member : x ∈ (l.merge p transTriggers).allTriggers) :
    x ∈ l.allTriggers ∨ x ∈ transTriggers ∧ l.currentProcessingTime.stamp < x.time.stamp := by
  rcases List.mem_append.mp (KeyedSort.sortUnique_subset p.sorter member) with old | new
  · exact .inl old
  · obtain ⟨inBatch, later⟩ := List.mem_filter.mp new
    exact .inr ⟨inBatch, GPSTime.gt_iff.mp later⟩

theorem keys_merge (p : Platform) (transTriggers : List TriggerInfo) (l : Locator) :
    UnitesKeys l.allTriggers (transTriggers.filter fun trigger => trigger.time.gt l.currentProcessingTime)
      (l.merge p transTriggers).allTriggers := by
  intro key
  rw [← List.mem_append, ← List.map_append]
  exact KeyedSort.keys_sortUnique p.sorter TriggerInfo.eq_iff

theorem step_sane {siteMap : SiteMap} {siteTimeMap : SiteTimeMap} (sane : Sane siteMap siteTimeMap l)
    (stepped : Stepped p c l a event next) : Sane siteMap siteTimeMap next := by
  obtain ⟨ascending, sites, times⟩ := sane
  cases stepped with
  | merge transTriggers => exact ⟨merge_ascending p transTriggers l, sites, times⟩
  | idle => exact ⟨ascending, sites, times⟩
  | pass now baseTrig rest verdict next busy queue passed =>
    exact ⟨ascending.sublist (passed.sublist queue), passed.sites.trans sites, times.trans passed.times⟩

end Step

section Runs

variable {p : Platform} {c : Config} {siteMap : SiteMap} {siteTimeMap : SiteTimeMap}
  {events : List Event} {l : Locator}

theorem runs_sane (reached : Runs p c siteMap siteTimeMap events l) : Sane siteMap siteTimeMap l := by
  apply reached.invariant (fun _ => Sane siteMap siteTimeMap)
  · exact ⟨.nil, rfl, Table2.Grown.refl _⟩
  · intro _ _ _ _ _ _ sane stepped
    exact step_sane sane (step_cases stepped)

/-- What every handed trigger satisfies, every queued trigger satisfies. -/
theorem runs_queue {property : TriggerInfo → Prop} (reached : Runs p c siteMap siteTimeMap events l)
    (handed : Handed events property) : ∀ x ∈ l.allTriggers, property x := by
  refine reached.invariant (fun shown current => Handed shown property → ∀ x ∈ current.allTriggers, property x)
    ?_ ?_ handed
  · exact fun _ x member => absurd member List.not_mem_nil
  · intro shown current a event next _ holds stepped handed x member
    have before := holds handed.earlier
    cases step_cases stepped with
    | merge transTriggers =>
      rcases mem_merge member with old | ⟨new, _⟩
      · exact before x old
      · exact handed.last x new
    | idle => exact before x member
    | pass now baseTrig rest verdict next busy queue passed =>
      exact before x ((passed.sublist queue).subset member)

theorem handed_of_run {property : TriggerInfo → Prop} {start : Locator} {actions : List Action}
    (ran : Machine.run (Locator.step p c) start actions = some (events, l))
    (batches : ∀ batch, Action.merge batch ∈ actions → ∀ x ∈ batch, property x) :
    Handed events property := by
  intro queue watermark batch member
  refine batches batch ?_
  induction actions generalizing start events with
  | nil =>
    cases ran
    simp at member
  | cons a actions ih =>
    obtain ⟨event, next, rest, stepped, tail, rfl⟩ := Machine.run_cons.mp ran
    rcases List.mem_cons.mp member with rfl | later
    · cases step_cases stepped with
      | merge => exact List.mem_cons_self
    · exact List.mem_cons_of_mem _
        (ih tail (fun b inside => batches b (List.mem_cons_of_mem _ inside)) later)

/-- Every pass of a run started from a state the run had reached. -/
theorem runs_pass {now : ℤ} {queue remaining : List TriggerInfo} {verdict : Verdict}
    (reached : Runs p c siteMap siteTimeMap events l)
    (member : Event.pass now queue verdict remaining ∈ events) :
    ∃ earlier later before baseTrig rest after,
      events = earlier ++ Event.pass now queue verdict remaining :: later ∧
      Runs p c siteMap siteTimeMap earlier before ∧ before.busy = true ∧
      before.allTriggers = queue ∧ queue = baseTrig :: rest ∧ after.allTriggers = remaining ∧
      Passed p c now before baseTrig rest verdict after ∧
      Machine.Reaches (Locator.step p c) after later l := by
  obtain ⟨earlier, later, rfl⟩ := List.append_of_mem member
  obtain ⟨before, a, after, run, stepped, tail⟩ := reached.step_at
  cases step_cases stepped with
  | pass now baseTrig rest verdict after busy queue passed =>
    exact ⟨earlier, later, before, baseTrig, rest, after, rfl, run, busy, rfl, queue, rfl, passed, tail⟩

end Runs

end LigDataParsing
