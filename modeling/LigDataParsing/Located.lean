import LigDataParsing.ThreadLoc

/-! Where the triggers of a located combination stand in the queue, and what erasing
their stored positions leaves of it. -/
namespace LigDataParsing

open Lookup IndexedErase

def Locator.windowOf (c : Config) (baseTrig : TriggerInfo) (l : Locator) : List (ℕ × TriggerInfo) :=
  window l.siteTimeMap.value c.maxBaseLineAsTOA baseTrig 0 l.allTriggers

def FirstOfStation (entries : List (ℕ × TriggerInfo)) (t : TriggerInfo) : Prop :=
  ∀ e ∈ entries, e.2.stationID = t.stationID → t.key ≤ e.2.key

instance (entries : List (ℕ × TriggerInfo)) (t : TriggerInfo) : Decidable (FirstOfStation entries t) := by
  unfold FirstOfStation
  infer_instance

/-- `t` is the trigger at position `j`, carrying `j` if it is the first of its station
and whatever the queue stored otherwise. -/
structure StandsAt (queue : List TriggerInfo) (entries : List (ℕ × TriggerInfo)) (t : TriggerInfo)
    (j : ℕ) (x : TriggerInfo) : Prop where
  inWindow : (j, x) ∈ entries
  inQueue : queue[j]? = some x
  carried : t = { x with trigIdx := j } ∧ FirstOfStation entries t ∨ t = x ∧ ¬ FirstOfStation entries t

theorem StandsAt.key {queue : List TriggerInfo} {entries : List (ℕ × TriggerInfo)} {t x : TriggerInfo}
    {j : ℕ} (stands : StandsAt queue entries t j x) : t.key = x.key := by
  rcases stands.carried with ⟨rfl, _⟩ | ⟨rfl, _⟩ <;> rfl

structure Drawn (queue : List TriggerInfo) (entries : List (ℕ × TriggerInfo)) (comb : List TriggerInfo) :
    Prop where
  stations : (comb.map TriggerInfo.stationID).Nodup
  stands : ∀ t ∈ comb, ∃ j x, StandsAt queue entries t j x

def without (queue comb : List TriggerInfo) : List TriggerInfo :=
  queue.filter fun x => ∀ t ∈ comb, x.key ≠ t.key

section Window

variable {c : Config} {baseTrig : TriggerInfo} {l : Locator}

theorem scanFrom_spec (c : Config) (baseTrig : TriggerInfo) (l : Locator) :
    PoolOf l.siteMap.location (l.windowOf c baseTrig) (l.scanFrom c baseTrig).triggerPool ∧
    (l.scanFrom c baseTrig).siteMap.value = l.siteMap.value ∧
    l.siteTimeMap.Grown (l.scanFrom c baseTrig).siteTimeMap := by
  obtain ⟨pool, values, grown⟩ := scan_spec c.maxBaseLineAsTOA baseTrig 0 l.allTriggers
    ⟨.empty, l.siteMap, l.siteTimeMap⟩
  refine ⟨?_, values, grown⟩
  rw [Locator.scanFrom, pool]
  exact poolOf_foldl l.siteMap.location (l.windowOf c baseTrig)

theorem windowOf_queue {e : ℕ × TriggerInfo} (member : e ∈ l.windowOf c baseTrig) :
    l.allTriggers[e.1]? = some e.2 := (mem_examined (mem_window.mp member).1).1.2

theorem windowOf_sorted (c : Config) (baseTrig : TriggerInfo) (l : Locator) :
    (l.windowOf c baseTrig).Pairwise (fun a b => a.1 < b.1) :=
  (examined_sorted c.maxBaseLineAsTOA baseTrig 0 l.allTriggers).filter _

/-- Positions in an ascending queue are ordered as the keys are. -/
theorem key_lt_of_index_lt {queue : List TriggerInfo} (ascending : Ascending queue) {i j : ℕ}
    {a b : TriggerInfo} (atI : queue[i]? = some a) (atJ : queue[j]? = some b) (before : i < j) :
    a.key < b.key := by
  obtain ⟨boundI, rfl⟩ := List.getElem?_eq_some_iff.mp atI
  obtain ⟨boundJ, rfl⟩ := List.getElem?_eq_some_iff.mp atJ
  exact List.pairwise_iff_getElem.mp ascending i j boundI boundJ before

/-- A trigger of a pool entry stands in the queue at its own position. -/
theorem marked_stands (ascending : Ascending l.allTriggers) {id : ℤ} {t : TriggerInfo}
    (member : t ∈ marked (ofStation id (l.windowOf c baseTrig))) :
    t.stationID = id ∧ ∃ j x, StandsAt l.allTriggers (l.windowOf c baseTrig) t j x := by
  have sorted := (windowOf_sorted c baseTrig l).filter (fun e => e.2.stationID = id)
  have inWindow {e} (inside : e ∈ ofStation id (l.windowOf c baseTrig)) :
      e ∈ l.windowOf c baseTrig ∧ e.2.stationID = id := by
    simpa [ofStation] using List.mem_filter.mp inside
  obtain ⟨j, x, inside, first | later⟩ := mem_marked member
  · obtain ⟨rfl, head⟩ := first
    obtain ⟨here, station⟩ := inWindow inside
    obtain ⟨rest, split⟩ := List.head?_eq_some_iff.mp head
    refine ⟨station, j, x, here, windowOf_queue here, .inl ⟨rfl, ?_⟩⟩
    intro e inside same
    have listed : e ∈ ofStation id (l.windowOf c baseTrig) := by
      simpa [ofStation, inside] using same.trans station
    rw [split] at listed
    rw [← ofStation, split] at sorted
    rcases List.mem_cons.mp listed with rfl | behind
    · exact le_rfl
    · exact (key_lt_of_index_lt ascending (windowOf_queue here) (windowOf_queue inside)
        (List.rel_of_pairwise_cons sorted behind)).le
  · obtain ⟨rfl, rest, inRest, first, split⟩ := later
    obtain ⟨here, station⟩ := inWindow inside
    have head := inWindow (split ▸ List.mem_cons_self : first ∈ ofStation id (l.windowOf c baseTrig))
    rw [← ofStation, split] at sorted
    refine ⟨station, j, t, here, windowOf_queue here, .inr ⟨rfl, fun least => ?_⟩⟩
    exact absurd (least first head.1 (head.2.trans station.symm)) (not_le.mpr
      (key_lt_of_index_lt ascending (windowOf_queue head.1) (windowOf_queue here)
        (List.rel_of_pairwise_cons sorted inRest)))

end Window

/-- One trigger of each pool entry, in pool order: its stations are the pool's keys. -/
theorem choice_stations {entries : List (ℤ × TriggerAtStation)} {comb : List TriggerInfo}
    (keyed : ∀ id entry, (id, entry) ∈ entries → ∀ t ∈ entry.triggers, t.stationID = id)
    (choice : Backtrack.Choice comb (entries.map fun e => e.2.triggers)) :
    comb.map TriggerInfo.stationID = entries.map Prod.fst := by
  induction entries generalizing comb with
  | nil =>
    cases choice
    rfl
  | cons entry entries ih =>
    cases choice with
    | cons member choice =>
      rw [List.map_cons, List.map_cons, keyed entry.1 entry.2 List.mem_cons_self _ member,
        ih (fun id e inside => keyed id e (List.mem_cons_of_mem _ inside)) choice]

theorem choice_mem {entries : List (ℤ × TriggerAtStation)} {comb : List TriggerInfo} {t : TriggerInfo}
    (choice : Backtrack.Choice comb (entries.map fun e => e.2.triggers)) (member : t ∈ comb) :
    ∃ id entry, (id, entry) ∈ entries ∧ t ∈ entry.triggers := by
  obtain ⟨list, inLists, inList⟩ := choice.exists_list member
  obtain ⟨entry, inside, rfl⟩ := List.mem_map.mp inLists
  exact ⟨entry.1, entry.2, inside, inList⟩

theorem poolTriggers_eq (pool : TriggerPool) :
    poolTriggers pool = pool.entries.map fun e => e.2.triggers := by
  simp [poolTriggers, OrderedMap.values, Function.comp_def]

theorem oneComb_mem {s : Rounds} (inRange : s.finalCombIdx < s.locCombinationPool.length) :
    s.oneComb ∈ s.locCombinationPool := by
  rw [Rounds.oneComb, List.getD_eq_getElem?_getD, List.getElem?_eq_getElem inRange]
  exact List.getElem_mem inRange

theorem Best.oneComb_mem {p : Platform} {time : ℤ → ℤ → ℚ} {s : Rounds} (best : Best p time s) :
    s.oneComb ∈ combinationsOf time s.triggerPool := best.combinations ▸ LigDataParsing.oneComb_mem best.inRange

def Keyed (triggerPool : TriggerPool) : Prop :=
  ∀ id entry, (id, entry) ∈ triggerPool.entries → ∀ t ∈ entry.triggers, t.stationID = id

theorem Keyed.part {pool part : TriggerPool} (keyed : Keyed pool)
    (sub : part.entries.Sublist pool.entries) : Keyed part :=
  fun id entry member => keyed id entry (sub.subset member)

section Combination

variable {time : ℤ → ℤ → ℚ} {pool : TriggerPool} {comb : List TriggerInfo}

theorem combination_length (member : comb ∈ combinationsOf time pool) : comb.length = pool.size := by
  have choice := (mem_combinationsOf.mp member).1
  rw [poolTriggers_eq] at choice
  rw [choice.length, List.length_map, OrderedMap.size]

theorem combination_stations (keyed : Keyed pool) (member : comb ∈ combinationsOf time pool) :
    comb.map TriggerInfo.stationID = pool.keys := by
  have choice := (mem_combinationsOf.mp member).1
  rw [poolTriggers_eq] at choice
  exact choice_stations keyed choice

end Combination

theorem marked_station {id : ℤ} {entries : List (ℕ × TriggerInfo)} {t : TriggerInfo}
    (member : t ∈ marked (ofStation id entries)) : t.stationID = id := by
  obtain ⟨j, x, inside, ⟨rfl, _⟩ | ⟨rfl, _⟩⟩ := mem_marked member
  · exact of_decide_eq_true (List.mem_filter.mp inside).2
  · exact of_decide_eq_true (List.mem_filter.mp inside).2

theorem scanFrom_keyed (c : Config) (baseTrig : TriggerInfo) (l : Locator) :
    Keyed (l.scanFrom c baseTrig).triggerPool := by
  intro id entry member t inEntry
  rw [((scanFrom_spec c baseTrig l).1.entry id entry member).2.2.1] at inEntry
  exact marked_station inEntry

section Pass

variable {p : Platform} {c : Config} {baseTrig : TriggerInfo} {l : Locator}

/-- The entries of the pool the rounds end with are entries of the scanned pool. -/
theorem locate_entry (p : Platform) (enough : 5 ≤ (l.scanFrom c baseTrig).triggerPool.size) {id : ℤ}
    {entry : TriggerAtStation}
    (member : (id, entry) ∈ (locate p c (l.scanFrom c baseTrig)).triggerPool.entries) :
    entry.stationID = id ∧ entry.staLocation = l.siteMap.location id ∧
    entry.triggers = marked (ofStation id (l.windowOf c baseTrig)) := by
  have scanned := (locate_consistent p c (l.scanFrom c baseTrig) enough).part.subset member
  obtain ⟨station, held, triggers, _⟩ := (scanFrom_spec c baseTrig l).1.entry id entry scanned
  exact ⟨station, held, triggers⟩

/-- The triggers of a combination of that pool are admitted triggers of the window. -/
theorem locate_marked (p : Platform) (enough : 5 ≤ (l.scanFrom c baseTrig).triggerPool.size)
    {time : ℤ → ℤ → ℚ} {comb : List TriggerInfo} {t : TriggerInfo}
    (found : comb ∈ combinationsOf time (locate p c (l.scanFrom c baseTrig)).triggerPool) (inComb : t ∈ comb) :
    ∃ id, t ∈ marked (ofStation id (l.windowOf c baseTrig)) := by
  have choice := (mem_combinationsOf.mp found).1
  rw [poolTriggers_eq] at choice
  obtain ⟨id, entry, inside, inEntry⟩ := choice_mem choice inComb
  exact ⟨id, (locate_entry p enough inside).2.2 ▸ inEntry⟩

/-- A located combination is a compatible choice from the final pool, drawn from the
window. -/
theorem locate_drawn (ascending : Ascending l.allTriggers)
    (enough : 5 ≤ (l.scanFrom c baseTrig).triggerPool.size)
    (sentinel : c.locThresholdInitial ≤ Params.floatMax)
    (good : (locate p c (l.scanFrom c baseTrig)).minSq < c.locThresholdInitial) :
    Drawn l.allTriggers (l.windowOf c baseTrig) (locate p c (l.scanFrom c baseTrig)).oneComb ∧
    5 ≤ (locate p c (l.scanFrom c baseTrig)).oneComb.length := by
  have best := locate_best enough sentinel good
  have consistent := locate_consistent p c (l.scanFrom c baseTrig) enough
  refine ⟨⟨?_, ?_⟩, combination_length best.oneComb_mem ▸ consistent.stations⟩
  · rw [combination_stations ((scanFrom_keyed c baseTrig l).part consistent.part) best.oneComb_mem]
    exact (locate p c (l.scanFrom c baseTrig)).triggerPool.nodup
  · intro t inComb
    obtain ⟨id, member⟩ := locate_marked p enough best.oneComb_mem inComb
    exact (marked_stands ascending member).2

/-- Above the sentinel the combination is empty. -/
theorem located_drawn (ascending : Ascending l.allTriggers)
    (enough : 5 ≤ (l.scanFrom c baseTrig).triggerPool.size)
    (good : (locate p c (l.scanFrom c baseTrig)).minSq < c.locThresholdInitial) :
    Drawn l.allTriggers (l.windowOf c baseTrig) (locate p c (l.scanFrom c baseTrig)).oneComb := by
  by_cases sentinel : c.locThresholdInitial ≤ Params.floatMax
  · exact (locate_drawn ascending enough sentinel good).1
  · rw [locate_above_sentinel p _ (not_le.mp sentinel)]
    exact ⟨.nil, fun _ member => absurd member List.not_mem_nil⟩

end Pass

section Erasure

variable {queue comb : List TriggerInfo} {entries : List (ℕ × TriggerInfo)}

theorem index_lt_of_key_lt (ascending : Ascending queue) {i j : ℕ} {a b : TriggerInfo}
    (atI : queue[i]? = some a) (atJ : queue[j]? = some b) (before : a.key < b.key) : i < j := by
  rcases lt_trichotomy i j with less | rfl | more
  · exact less
  · obtain rfl : a = b := Option.some.inj (atI.symm.trans atJ)
    exact absurd before (lt_irrefl _)
  · exact absurd (key_lt_of_index_lt ascending atJ atI more) (not_lt.mpr before.le)

theorem Drawn.eq_of_key (drawn : Drawn queue entries comb) {t t' : TriggerInfo} (member : t ∈ comb)
    (member' : t' ∈ comb) (same : t.key = t'.key) : t = t' :=
  List.inj_on_of_nodup_map drawn.stations member member' (Prod.mk.inj (toLex_inj.mp same)).2

/-- Only a first trigger of a station carries a position other than zero, its own. -/
theorem StandsAt.of_nonzero (unset : ∀ x ∈ queue, x.trigIdx = 0) {t x : TriggerInfo} {j : ℕ}
    (stands : StandsAt queue entries t j x) (nonzero : t.trigIdx ≠ 0) :
    t.trigIdx = j ∧ FirstOfStation entries t := by
  rcases stands.carried with ⟨same, first⟩ | ⟨rfl, _⟩
  · exact ⟨by rw [same], first⟩
  · exact absurd (unset t (List.mem_of_getElem? stands.inQueue)) nonzero

/-- `t` carries the position of a queued trigger of its station, or none. -/
def CarriesPosition (queue : List TriggerInfo) (t : TriggerInfo) : Prop :=
  ∃ x ∈ queue, x.stationID = t.stationID ∧ (t.trigIdx = 0 ∨ queue[t.trigIdx]? = some x)

theorem carried_distinct (stations : (comb.map TriggerInfo.stationID).Nodup)
    (carried : ∀ t ∈ comb, CarriesPosition queue t) :
    ((comb.map TriggerInfo.trigIdx).filter (· ≠ 0)).Nodup := by
  rw [List.filter_map]
  refine List.Nodup.map_on ?_ ((List.Nodup.of_map _ stations).filter _)
  intro t member t' member' same
  obtain ⟨inComb, nonzero⟩ := List.mem_filter.mp member
  obtain ⟨inComb', nonzero'⟩ := List.mem_filter.mp member'
  obtain ⟨x, _, station, stored⟩ := carried t inComb
  obtain ⟨x', _, station', stored'⟩ := carried t' inComb'
  have held := stored.resolve_left (by simpa using nonzero)
  have held' := stored'.resolve_left (by simpa using nonzero')
  rw [same, held', Option.some.injEq] at held
  exact List.inj_on_of_nodup_map stations inComb inComb' (station.symm.trans (held ▸ station'))

/-- The positions a combination of distinct stations carries can be erased one after the
other: the queue holds a trigger of each of these stations. -/
theorem carried_inRange (stations : (comb.map TriggerInfo.stationID).Nodup)
    (carried : ∀ t ∈ comb, CarriesPosition queue t) :
    InRange (descending (comb.map TriggerInfo.trigIdx)) queue.length := by
  refine InRange.of_descending ?_ (carried_distinct stations carried) ?_
  · intro i member
    obtain ⟨t, inComb, rfl⟩ := List.mem_map.mp member
    obtain ⟨x, queued, _, zero | held⟩ := carried t inComb
    · rw [zero]
      exact List.length_pos_of_mem queued
    · exact (List.getElem?_eq_some_iff.mp held).1
  · have sub : comb.map TriggerInfo.stationID ⊆ queue.map TriggerInfo.stationID := by
      intro id member
      obtain ⟨t, inComb, rfl⟩ := List.mem_map.mp member
      obtain ⟨x, queued, station, _⟩ := carried t inComb
      exact station ▸ List.mem_map_of_mem queued
    simpa using (List.subperm_of_subset stations sub).length_le

theorem StandsAt.carries (unset : ∀ x ∈ queue, x.trigIdx = 0) {t x : TriggerInfo} {j : ℕ}
    (stands : StandsAt queue entries t j x) : CarriesPosition queue t := by
  have queued := List.mem_of_getElem? stands.inQueue
  rcases stands.carried with ⟨rfl, _⟩ | ⟨rfl, _⟩
  · exact ⟨x, queued, rfl, .inr stands.inQueue⟩
  · exact ⟨t, queued, rfl, .inl (unset t queued)⟩

theorem Drawn.distinct (drawn : Drawn queue entries comb) (unset : ∀ x ∈ queue, x.trigIdx = 0) :
    ((comb.map TriggerInfo.trigIdx).filter (· ≠ 0)).Nodup := by
  have carried : ∀ t ∈ comb, CarriesPosition queue t := by
    intro t member
    obtain ⟨j, x, stands⟩ := drawn.stands t member
    exact stands.carries unset
  exact carried_distinct drawn.stations carried

/-- The erasures stay in the part of the queue up to the last trigger of the
combination, and never run past its end. -/
theorem Drawn.front (drawn : Drawn queue entries comb) (ascending : Ascending queue)
    (unset : ∀ x ∈ queue, x.trigIdx = 0) :
    ∃ front back, queue = front ++ back ∧
      InRange (descending (comb.map TriggerInfo.trigIdx)) front.length ∧
      ∀ x ∈ front, ∃ t ∈ comb, x.key ≤ t.key := by
  have split := ascending.prefix_of_closed (fun x => decide (∃ t ∈ comb, x.key ≤ t.key)) (by
    intro a b below holds
    obtain ⟨t, member, bound⟩ := of_decide_eq_true holds
    exact decide_eq_true ⟨t, member, below.trans bound⟩)
  generalize inFront : queue.filter (fun x => decide (∃ t ∈ comb, x.key ≤ t.key)) = front at split
  generalize inBack : queue.filter (fun x => !decide (∃ t ∈ comb, x.key ≤ t.key)) = back at split
  have standing : ∀ t ∈ comb, ∀ j x, StandsAt queue entries t j x → x ∈ front ∧ j < front.length := by
    intro t member j x stands
    have low : ∃ t ∈ comb, x.key ≤ t.key := ⟨t, member, stands.key.ge⟩
    constructor
    · rw [← inFront]
      exact List.mem_filter.mpr ⟨List.mem_of_getElem? stands.inQueue, decide_eq_true low⟩
    · by_contra outside
      have atBack := stands.inQueue
      rw [split, List.getElem?_append_right (not_lt.mp outside)] at atBack
      have high := List.mem_of_getElem? atBack
      rw [← inBack] at high
      simpa [low] using (List.mem_filter.mp high).2
  refine ⟨front, back, split, InRange.of_descending ?_ (drawn.distinct unset) ?_, ?_⟩
  · intro i member
    obtain ⟨t, inComb, rfl⟩ := List.mem_map.mp member
    obtain ⟨j, x, stands⟩ := drawn.stands t inComb
    obtain ⟨inside, bound⟩ := standing t inComb j x stands
    by_cases zero : t.trigIdx = 0
    · rw [zero]
      exact List.length_pos_of_mem inside
    · rw [(stands.of_nonzero unset zero).1]
      exact bound
  · have nodup : (comb.map TriggerInfo.key).Nodup :=
      (List.Nodup.of_map _ drawn.stations).map_on fun t member t' member' same =>
        drawn.eq_of_key member member' same
    have sub : comb.map TriggerInfo.key ⊆ front.map TriggerInfo.key := by
      intro k member
      obtain ⟨t, inComb, rfl⟩ := List.mem_map.mp member
      obtain ⟨j, x, stands⟩ := drawn.stands t inComb
      rw [stands.key]
      exact List.mem_map_of_mem (standing t inComb j x stands).1
    simpa using (List.subperm_of_subset nodup sub).length_le
  · intro x member
    rw [← inFront] at member
    exact of_decide_eq_true (List.mem_filter.mp member).2

/-- What a located pass erases lies in a front part of the queue that ends within the window. -/
theorem locate_front {p : Platform} {c : Config} {baseTrig : TriggerInfo} {l : Locator}
    (ascending : Ascending l.allTriggers) (unset : ∀ x ∈ l.allTriggers, x.trigIdx = 0)
    (enough : 5 ≤ (l.scanFrom c baseTrig).triggerPool.size)
    (good : (locate p c (l.scanFrom c baseTrig)).minSq < c.locThresholdInitial) :
    ∃ front back, l.allTriggers = front ++ back ∧
      InRange (descending ((locate p c (l.scanFrom c baseTrig)).oneComb.map TriggerInfo.trigIdx)) front.length ∧
      ∀ x ∈ front, ∃ e ∈ l.windowOf c baseTrig, x.key ≤ e.2.key := by
  have drawn := located_drawn ascending enough good
  obtain ⟨front, back, split, inRange, low⟩ := drawn.front ascending unset
  refine ⟨front, back, split, inRange, fun x member => ?_⟩
  obtain ⟨t, inComb, bound⟩ := low x member
  obtain ⟨j, y, stands⟩ := drawn.stands t inComb
  exact ⟨(j, y), stands.inWindow, stands.key ▸ bound⟩

/-- The stored positions are right exactly for the first triggers of their stations. -/
theorem Drawn.indexed_iff (drawn : Drawn queue entries comb) (ascending : Ascending queue)
    (unset : ∀ x ∈ queue, x.trigIdx = 0) (queued : ∀ e ∈ entries, queue[e.1]? = some e.2) :
    (∀ t ∈ comb, ∃ x, queue[t.trigIdx]? = some x ∧ x.key = t.key) ↔
      ∀ t ∈ comb, FirstOfStation entries t := by
  refine forall₂_congr fun t member => ?_
  obtain ⟨j, x, stands⟩ := drawn.stands t member
  rcases stands.carried with ⟨same, first⟩ | ⟨rfl, later⟩
  · refine iff_of_true ⟨x, ?_, stands.key.symm⟩ first
    rw [same]
    exact stands.inQueue
  · refine iff_of_false ?_ later
    rintro ⟨y, held, sameKey⟩
    rw [unset t (List.mem_of_getElem? stands.inQueue)] at held
    refine later fun e inside _ => le_of_not_gt fun below => ?_
    exact Nat.not_lt_zero _ (index_lt_of_key_lt ascending (queued e inside) held (sameKey ▸ below))

theorem Drawn.position_of_first (drawn : Drawn queue entries comb) {t : TriggerInfo} (member : t ∈ comb)
    (first : FirstOfStation entries t) : ∃ x, queue[t.trigIdx]? = some x ∧ x.key = t.key := by
  obtain ⟨j, x, stands⟩ := drawn.stands t member
  rcases stands.carried with ⟨same, _⟩ | ⟨_, later⟩
  · exact ⟨x, by rw [same]; exact stands.inQueue, stands.key.symm⟩
  · exact absurd first later

theorem Drawn.trigIdx_of_later (drawn : Drawn queue entries comb) (unset : ∀ x ∈ queue, x.trigIdx = 0)
    {t : TriggerInfo} (member : t ∈ comb) (later : ¬ FirstOfStation entries t) : t.trigIdx = 0 := by
  obtain ⟨j, x, stands⟩ := drawn.stands t member
  by_contra nonzero
  exact later (stands.of_nonzero unset nonzero).2

theorem Drawn.indices_perm (drawn : Drawn queue entries comb) (unset : ∀ x ∈ queue, x.trigIdx = 0) :
    (comb.map TriggerInfo.trigIdx).Perm
      ((comb.filter fun t => FirstOfStation entries t).map TriggerInfo.trigIdx ++
        List.replicate (comb.filter fun t => ¬ FirstOfStation entries t).length 0) := by
  have zeros : (comb.filter fun t => ¬ FirstOfStation entries t).map TriggerInfo.trigIdx =
      List.replicate (comb.filter fun t => ¬ FirstOfStation entries t).length 0 := by
    rw [List.eq_replicate_iff, List.length_map]
    refine ⟨rfl, fun i member => ?_⟩
    obtain ⟨t, later, rfl⟩ := List.mem_map.mp member
    exact drawn.trigIdx_of_later unset (List.mem_of_mem_filter later) (of_decide_eq_true (List.mem_filter.mp later).2)
  rw [← zeros, ← List.map_append]
  simpa using ((List.filter_append_perm (fun t => decide (FirstOfStation entries t)) comb).map
    TriggerInfo.trigIdx).symm

theorem Drawn.indices_nodup (drawn : Drawn queue entries comb) :
    ((comb.filter fun t => FirstOfStation entries t).map TriggerInfo.trigIdx).Nodup := by
  refine ((List.Nodup.of_map _ drawn.stations).filter _).map_on fun t member t' member' same => ?_
  obtain ⟨inComb, first⟩ := List.mem_filter.mp member
  obtain ⟨inComb', first'⟩ := List.mem_filter.mp member'
  obtain ⟨x, stored, key⟩ := drawn.position_of_first inComb (of_decide_eq_true first)
  obtain ⟨x', stored', key'⟩ := drawn.position_of_first inComb' (of_decide_eq_true first')
  rw [same] at stored
  exact drawn.eq_of_key inComb inComb' (key ▸ key' ▸ congrArg _ (Option.some.inj (stored.symm.trans stored')))

/-- The first triggers of their stations carry their own positions, the others zero: erasing
takes the first ones out and then, for each other one, whatever stands in front. -/
theorem Drawn.erased (drawn : Drawn queue entries comb) (ascending : Ascending queue)
    (unset : ∀ x ∈ queue, x.trigIdx = 0) :
    eraseAll queue (descending (comb.map TriggerInfo.trigIdx)) =
      (without queue (comb.filter fun t => FirstOfStation entries t)).drop
        (comb.filter fun t => ¬ FirstOfStation entries t).length := by
  have position {t : TriggerInfo} (member : t ∈ comb.filter fun t => FirstOfStation entries t) :
      ∃ x, queue[t.trigIdx]? = some x ∧ x.key = t.key := by
    obtain ⟨inComb, first⟩ := List.mem_filter.mp member
    exact drawn.position_of_first inComb (of_decide_eq_true first)
  rw [eraseAll_zeros_last queue (drawn.indices_perm unset)]
  congr 1
  refine KeyedSort.Ascending.ext (ascending.sublist (eraseAll_sublist _ _))
    (ascending.sublist List.filter_sublist) fun a => ?_
  rw [mem_eraseAll ascending.nodup (descending_strict drawn.indices_nodup), without, List.mem_filter, decide_eq_true_eq]
  refine and_congr_right fun inQueue => ?_
  constructor
  · intro unnamed t member same
    obtain ⟨x, stored, key⟩ := position member
    have : x = a := ascending.key_injective (List.mem_of_getElem? stored) inQueue (key.trans same.symm)
    exact unnamed t.trigIdx ((descending_perm _).mem_iff.mpr (List.mem_map_of_mem member)) (this ▸ stored)
  · intro other i named stored
    obtain ⟨t, member, rfl⟩ := List.mem_map.mp ((descending_perm _).mem_iff.mp named)
    obtain ⟨x, stored', key⟩ := position member
    exact other t member (Option.some.inj (stored.symm.trans stored') ▸ key)

/-- Erasing by the stored positions removes the combination and nothing else exactly
if it consists of first triggers: a later trigger is reached, if at all, only by
zeros, and these take the first trigger of its station with it. -/
theorem Drawn.erased_iff (drawn : Drawn queue entries comb) (ascending : Ascending queue)
    (unset : ∀ x ∈ queue, x.trigIdx = 0) (queued : ∀ e ∈ entries, queue[e.1]? = some e.2) :
    eraseAll queue (descending (comb.map TriggerInfo.trigIdx)) = without queue comb ↔
      ∀ t ∈ comb, FirstOfStation entries t := by
  rw [drawn.erased ascending unset]
  constructor
  · intro exactly t member
    by_contra later
    obtain ⟨j, x, stands⟩ := drawn.stands t member
    obtain ⟨e, inside, station, before⟩ : ∃ e ∈ entries, e.2.stationID = t.stationID ∧ e.2.key < t.key := by
      simpa [FirstOfStation] using later
    have survives : e.2 ∈ without queue comb := by
      refine List.mem_filter.mpr ⟨List.mem_of_getElem? (queued e inside), decide_eq_true ?_⟩
      intro t' member' same
      have sameStation : t'.stationID = t.stationID :=
        (Prod.mk.inj (toLex_inj.mp same)).2.symm.trans station
      have : t' = t := List.inj_on_of_nodup_map drawn.stations member' member sameStation
      rw [same, this] at before
      exact lt_irrefl _ before
    have located : x ∉ without queue comb := fun kept =>
      of_decide_eq_true (List.mem_filter.mp kept).2 t member stands.key.symm
    have unnamed : x ∈ without queue (comb.filter fun t => FirstOfStation entries t) := by
      refine List.mem_filter.mpr ⟨List.mem_of_getElem? stands.inQueue, decide_eq_true ?_⟩
      intro t' member' same
      obtain ⟨inComb, first⟩ := List.mem_filter.mp member'
      obtain rfl : t' = t := drawn.eq_of_key inComb member (same.symm.trans stands.key.symm)
      exact later (of_decide_eq_true first)
    have ordered : Ascending (without queue (comb.filter fun t => FirstOfStation entries t)) :=
      ascending.sublist List.filter_sublist
    rw [← List.take_append_drop (comb.filter fun t => ¬ FirstOfStation entries t).length
      (without queue (comb.filter fun t => FirstOfStation entries t)), exactly] at ordered unnamed
    have front := (List.mem_append.mp unnamed).resolve_right located
    have after := (List.pairwise_append.mp ordered).2.2 x front e.2 survives
    exact lt_asymm before (stands.key ▸ after)
  · intro first
    have all : comb.filter (fun t => FirstOfStation entries t) = comb :=
      List.filter_eq_self.mpr fun t member => decide_eq_true (first t member)
    have noLater : comb.filter (fun t => ¬ FirstOfStation entries t) = [] :=
      List.filter_eq_nil_iff.mpr fun t member => by simpa using first t member
    rw [all, noLater, List.length_nil, List.drop_zero]

end Erasure

/-- A located pass takes exactly its combination out of the queue, and the positions it
carries are right, if and only if no trigger of the combination follows another one of
its station in the window. -/
theorem located_pass_exact_iff {p : Platform} {c : Config} {now : ℤ} {l next : Locator}
    {baseTrig : TriggerInfo} {triggerPool : TriggerPool} {rounds : Rounds} {post : Option Post}
    (ascending : Ascending l.allTriggers) (unset : ∀ x ∈ l.allTriggers, x.trigIdx = 0)
    (sentinel : c.locThresholdInitial ≤ Params.floatMax)
    (passed : l.pass p c now = some (.located baseTrig triggerPool rounds post, next)) :
    (next.allTriggers = without l.allTriggers rounds.oneComb ∧
      ∀ t ∈ rounds.oneComb, ∃ x, l.allTriggers[t.trigIdx]? = some x ∧ x.key = t.key) ↔
    ∀ t ∈ rounds.oneComb, FirstOfStation (l.windowOf c baseTrig) t := by
  obtain ⟨base, rest, queue, inverted⟩ := pass_cases passed
  cases inverted with
  | located near old enough _ found good =>
    subst found
    obtain ⟨drawn, _⟩ := locate_drawn ascending enough sentinel good
    have queued := fun e (member : e ∈ l.windowOf c baseTrig) => windowOf_queue member
    have erased := drawn.erased_iff ascending unset queued
    have indexed := drawn.indexed_iff ascending unset queued
    constructor
    · rintro ⟨_, positions⟩
      exact indexed.mp positions
    · intro first
      exact ⟨erased.mpr first, indexed.mpr first⟩

namespace Sample

/-- Prefers the combination whose second trigger arrives at 17.0003 s. -/
def prefersLate (_ : List LocSta) (locTime : List ℚ) : LocSta :=
  ⟨0, 110, 5, if locTime.getD 1 0 = 17.0003 then 0 else 1 / 2, 17⟩

def run (actions : List Action) : Option (List Event × Locator) :=
  Machine.run (Locator.step (platform prefersLate) config) (Locator.start config siteMap siteTimeMap) actions

def distinctStations : List TriggerInfo :=
  [trigger 1 0.0001, trigger 2 0.0002, trigger 3 0.0004, trigger 4 0.0005, trigger 5 0.0006]

def repeatedStation : List TriggerInfo :=
  [trigger 1 0.0001, trigger 2 0.0002, trigger 2 0.0003, trigger 3 0.0004, trigger 4 0.0005,
    trigger 5 0.0006]

end Sample

theorem located_pass_exact_distinct : ∃ baseTrig triggerPool rounds post next,
    (Sample.locator Sample.distinctStations).pass (Sample.platform Sample.prefersLate) Sample.config
      Sample.now = some (.located baseTrig triggerPool rounds post, next) ∧
    ((next.allTriggers = without Sample.distinctStations rounds.oneComb ∧
      ∀ t ∈ rounds.oneComb, ∃ x, Sample.distinctStations[t.trigIdx]? = some x ∧ x.key = t.key) ↔
    ∀ t ∈ rounds.oneComb, FirstOfStation
      ((Sample.locator Sample.distinctStations).windowOf Sample.config baseTrig) t) := by
  obtain ⟨baseTrig, triggerPool, rounds, post, next, passed, _⟩ := located_of_oneComb
    (show ((Sample.locator Sample.distinctStations).pass (Sample.platform Sample.prefersLate)
      Sample.config Sample.now).map (fun done => (done.1.oneComb, done.2.allTriggers)) =
      some ([Sample.trigger 1 0.0001, { Sample.trigger 2 0.0002 with trigIdx := 1 },
        { Sample.trigger 3 0.0004 with trigIdx := 2 }, { Sample.trigger 4 0.0005 with trigIdx := 3 },
        { Sample.trigger 5 0.0006 with trigIdx := 4 }], []) by decide +kernel)
  exact ⟨baseTrig, triggerPool, rounds, post, next, passed,
    located_pass_exact_iff (by decide +kernel) (by decide +kernel) (by decide +kernel) passed⟩

/-- The second trigger of station 2 is located, but the first one is erased in its place. -/
theorem located_pass_repeated_station :
    Ascending Sample.repeatedStation ∧ (∀ x ∈ Sample.repeatedStation, x.trigIdx = 0) ∧
    Sample.config.locThresholdInitial ≤ Params.floatMax ∧
    ∃ baseTrig triggerPool rounds post next,
      (Sample.locator Sample.repeatedStation).pass (Sample.platform Sample.prefersLate) Sample.config
        Sample.now = some (.located baseTrig triggerPool rounds post, next) ∧
      Sample.trigger 2 0.0003 ∈ rounds.oneComb ∧ next.allTriggers = [Sample.trigger 2 0.0003] ∧
      next.allTriggers ≠ without Sample.repeatedStation rounds.oneComb := by
  refine ⟨by decide +kernel, by decide +kernel, by decide +kernel, ?_⟩
  obtain ⟨baseTrig, triggerPool, rounds, post, next, passed, comb, left⟩ := located_of_oneComb
    (show ((Sample.locator Sample.repeatedStation).pass (Sample.platform Sample.prefersLate)
      Sample.config Sample.now).map (fun done => (done.1.oneComb, done.2.allTriggers)) =
      some ([Sample.trigger 1 0.0001, Sample.trigger 2 0.0003,
        { Sample.trigger 3 0.0004 with trigIdx := 3 }, { Sample.trigger 4 0.0005 with trigIdx := 4 },
        { Sample.trigger 5 0.0006 with trigIdx := 5 }], [Sample.trigger 2 0.0003]) by decide +kernel)
  refine ⟨baseTrig, triggerPool, rounds, post, next, passed, ?_, left, ?_⟩
  · rw [comb]
    decide +kernel
  · rw [left, comb]
    decide +kernel

end LigDataParsing
