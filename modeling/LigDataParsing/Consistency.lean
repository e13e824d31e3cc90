import LigDataParsing.Located

/-! The rounds of one pass: what a round may read and leave out, and what the locals say
about each other when the rounds are over. -/
namespace LigDataParsing

open Lookup

def Rounds.Erases (c : Config) (s : Rounds) : Prop :=
  s.minSq > c.locThresholdInitial ∧ s.triggerPool.size > 6 ∧ s.locCombinationPool.length > 0

/-- A round that leaves a station out reads an existing combination, erases a key of the
pool, and finds combinations again. -/
structure LeavesOut (p : Platform) (c : Config) (s : Rounds) : Prop where
  inRange : s.finalCombIdx < s.locCombinationPool.length
  present : ∃ id ∈ s.triggerPool.keys, (round p c s).triggerPool = s.triggerPool.erase id
  size : (round p c s).triggerPool.size + 1 = s.triggerPool.size
  remaining : 6 ≤ (round p c s).triggerPool.size
  refilled : (round p c s).locCombinationPool ≠ []

/-- The locals of a located pass agree: the result belongs to the chosen combination, and
no other combination of the current pool has a smaller `sq`. -/
structure Settled (p : Platform) (siteTimeMap : SiteTimeMap) (s : Rounds) : Prop where
  current : s.locCombinationPool =
    (getLocationPoolP s.triggerPool siteTimeMap s.triggerPool.size).combinationPool
  inRange : s.finalCombIdx < s.locCombinationPool.length
  result : s.result = p.geoLocation (stationsOne p s.triggerPool s.oneComb) (locTimeOne s.oneComb)
  minSq : s.minSq = s.result.sq
  least : ∀ other ∈ s.locCombinationPool,
    s.minSq ≤ (p.geoLocation (stationsOne p s.triggerPool other) (locTimeOne other)).sq
  stations : ∀ t ∈ s.oneComb, t.stationID ∈ s.triggerPool.keys

section Combination

variable {pool : TriggerPool} {comb : List TriggerInfo}

theorem evaluate_solved (p : Platform) (enough : 5 ≤ comb.length) : evaluate p pool comb =
    ((p.geoLocation (stationsOne p pool comb) (locTimeOne comb)).sq,
      p.geoLocation (stationsOne p pool comb) (locTimeOne comb)) := if_neg (not_lt.mpr enough)

theorem keys_fillSqMap (libm : Libm) (result : LocSta) (comb : List TriggerInfo)
    (s : List (ℤ × ℚ) × SiteMap) (key : ℤ) :
    key ∈ (fillSqMap libm result comb s).1.map Prod.fst ↔
      key ∈ comb.map TriggerInfo.stationID ∨ key ∈ s.1.map Prod.fst := by
  induction comb generalizing s with
  | nil => simp [fillSqMap]
  | cons iter rest ih =>
    rw [fillSqMap, ih, keys_assignSorted, List.map_cons, List.mem_cons]
    tauto

end Combination

theorem eliminate_station (libm : Libm) {s : Rounds} (nonempty : s.oneComb ≠ []) :
    ∃ id ∈ s.oneComb.map TriggerInfo.stationID, (eliminate libm s).triggerPool = s.triggerPool.erase id := by
  have keys := keys_fillSqMap libm s.result s.oneComb ([], s.siteMap)
  refine ⟨_, ?_, rfl⟩
  have filled : (fillSqMap libm s.result s.oneComb ([], s.siteMap)).1 ≠ [] := by
    obtain ⟨first, rest, split⟩ := List.exists_cons_of_ne_nil nonempty
    have entered := (keys first.stationID).mpr (.inl (by simp [split]))
    exact fun empty => by simp [empty] at entered
  have inRange := Extremum.firstGreatest_lt
    (l := (fillSqMap libm s.result s.oneComb ([], s.siteMap)).1.map Prod.snd) (by simpa using filled)
  rw [List.length_map] at inRange
  rw [List.getD_eq_getElem?_getD, List.getElem?_eq_getElem inRange, Option.getD_some]
  have member := (keys _).mp (List.mem_map_of_mem (List.getElem_mem inRange))
  simpa using member

section Round

variable {p : Platform} {c : Config} {pool : TriggerPool} {siteMap : SiteMap} {siteTimeMap : SiteTimeMap}
  {s : Rounds}

theorem enumerate_triggerPool (p : Platform) (s : Rounds) : (enumerate p s).triggerPool = s.triggerPool := by
  simp only [enumerate]
  split_ifs <;> rfl

theorem enumerate_combinations (p : Platform) (s : Rounds) : (enumerate p s).locCombinationPool =
    combinationsOf s.siteTimeMap.value s.triggerPool := by
  rw [← getLocationPoolP_eq]
  simp only [enumerate]
  split_ifs <;> rfl

theorem round_erases (erases : s.Erases c) : round p c s = enumerate p (eliminate p.libm s) := by
  obtain ⟨poor, many, nonempty⟩ := erases
  rw [round, if_pos ⟨poor, many⟩, if_pos nonempty]

theorem round_keeps (keeps : ¬ s.Erases c) : (round p c s).triggerPool = s.triggerPool := by
  rw [round]
  split_ifs with again nonempty
  · exact absurd ⟨again.1, again.2, nonempty⟩ keeps
  · exact enumerate_triggerPool p s
  · rfl

theorem round_leavesOut (keyed : Keyed pool) (consistent : Consistent p pool siteMap siteTimeMap s)
    (erases : s.Erases c) : LeavesOut p c s := by
  obtain ⟨poor, many, nonempty⟩ := erases
  rcases consistent.chosen with ⟨empty, _⟩ | best
  · simp [empty] at nonempty
  · have chosen := oneComb_mem best.inRange
    rw [best.combinations] at chosen
    have length := combination_length chosen
    obtain ⟨id, inComb, erased⟩ := eliminate_station p.libm (s := s) (List.ne_nil_of_length_pos (by omega))
    rw [combination_stations (keyed.part consistent.part) chosen] at inComb
    have after : (round p c s).triggerPool = s.triggerPool.erase id := by
      rw [round_erases ⟨poor, many, nonempty⟩, enumerate_triggerPool, erased]
    have size : (round p c s).triggerPool.size + 1 = s.triggerPool.size := by
      rw [after]
      exact OrderedMap.size_erase inComb
    refine ⟨best.inRange, ⟨id, inComb, after⟩, size, by omega, ?_⟩
    rw [round_erases ⟨poor, many, nonempty⟩, enumerate_combinations]
    change combinationsOf s.siteTimeMap.value (eliminate p.libm s).triggerPool ≠ []
    rw [erased, consistent.times.value]
    apply combinationsOf_erase
    rw [← best.combinations]
    exact List.ne_nil_of_length_pos nonempty

theorem round_size (keyed : Keyed pool) (consistent : Consistent p pool siteMap siteTimeMap s) :
    s.triggerPool.size ≤ (round p c s).triggerPool.size + 1 ∧
    ((round p c s).triggerPool.size = s.triggerPool.size ∨ 6 ≤ (round p c s).triggerPool.size) := by
  by_cases erases : s.Erases c
  · have leaves := round_leavesOut keyed consistent erases
    exact ⟨leaves.size.ge, .inr leaves.remaining⟩
  · rw [round_keeps erases]
    exact ⟨Nat.le_succ _, .inl rfl⟩

theorem settled_of_best (keyed : Keyed pool) (consistent : Consistent p pool siteMap siteTimeMap s)
    (best : Best p siteTimeMap.value s) : Settled p siteTimeMap s := by
  have solved : ∀ comb ∈ s.locCombinationPool, evaluate p s.triggerPool comb =
      ((p.geoLocation (stationsOne p s.triggerPool comb) (locTimeOne comb)).sq,
        p.geoLocation (stationsOne p s.triggerPool comb) (locTimeOne comb)) := by
    intro comb member
    rw [best.combinations] at member
    exact evaluate_solved p (combination_length member ▸ consistent.stations)
  have evaluated := (solved s.oneComb (oneComb_mem best.inRange)).symm.trans best.evaluated
  obtain ⟨sq, result⟩ := Prod.mk.inj evaluated
  refine ⟨?_, best.inRange, result.symm, ?_, ?_, ?_⟩
  · rw [getLocationPoolP_eq, best.combinations]
  · rw [← sq, result]
  · intro other member
    have least := best.least other member
    rwa [solved other member] at least
  · intro t inComb
    rw [← combination_stations (keyed.part consistent.part) best.oneComb_mem]
    exact List.mem_map_of_mem inComb

end Round

/-- From any pool of at least five stations the two rounds read combinations in range and
leave out present stations only, at most two and never below six, and a location below
the threshold is the best of the pool that is left. -/
theorem rounds_consistent {p : Platform} {c : Config} {scanned : Scan}
    (stations : 5 ≤ scanned.triggerPool.size) (keyed : Keyed scanned.triggerPool)
    (sentinel : c.locThresholdInitial ≤ Params.floatMax) :
    (∀ s, s = firstRound p c (scanned.rounds p) ∨ s = round p c (firstRound p c (scanned.rounds p)) →
      s.Erases c → LeavesOut p c s) ∧
    scanned.triggerPool.size ≤ (locate p c scanned).triggerPool.size + 2 ∧
    ((locate p c scanned).triggerPool.size = scanned.triggerPool.size ∨
      6 ≤ (locate p c scanned).triggerPool.size) ∧
    ((locate p c scanned).minSq < c.locThresholdInitial →
      Settled p scanned.siteTimeMap (locate p c scanned)) := by
  have first := firstRound_consistent p c scanned stations
  have second := round_consistent c first
  have start : (firstRound p c (scanned.rounds p)).triggerPool = scanned.triggerPool := by
    rw [firstRound]
    split_ifs
    · exact enumerate_triggerPool p _
    · rfl
  obtain ⟨cost, six⟩ := round_size (c := c) keyed first
  obtain ⟨cost', six'⟩ := round_size (c := c) keyed second
  rw [start] at cost six
  change _ ≤ (locate p c scanned).triggerPool.size + 1 at cost'
  change (locate p c scanned).triggerPool.size = _ ∨ 6 ≤ (locate p c scanned).triggerPool.size at six'
  refine ⟨?_, by omega, by omega, ?_⟩
  · rintro s (rfl | rfl) erases
    · exact round_leavesOut keyed first erases
    · exact round_leavesOut keyed second erases
  · intro good
    exact settled_of_best keyed (locate_consistent p c scanned stations) (locate_best stations sentinel good)

namespace Sample

def wantsSix (stations : List LocSta) (_ : List ℚ) : LocSta :=
  ⟨0, 110, 5, if stations.length = 6 then 1 / 2 else 2, 17⟩

def scanOf (triggers : List TriggerInfo) : Scan :=
  (locator triggers).scanFrom config (trigger 1 0.0001)

def eightStations : List TriggerInfo :=
  [trigger 1 0.0001, trigger 2 0.0002, trigger 3 0.0004, trigger 4 0.0005, trigger 5 0.0006, trigger 6 0.0007,
    trigger 7 0.0008, trigger 8 0.0009]

end Sample

theorem rounds_consistent_eight :
    (Sample.scanOf Sample.eightStations).triggerPool.size = 8 ∧
    (locate (Sample.platform Sample.wantsSix) Sample.config
      (Sample.scanOf Sample.eightStations)).triggerPool.size = 6 ∧
    Settled (Sample.platform Sample.wantsSix) (Sample.scanOf Sample.eightStations).siteTimeMap
      (locate (Sample.platform Sample.wantsSix) Sample.config (Sample.scanOf Sample.eightStations)) ∧
    LeavesOut (Sample.platform Sample.wantsSix) Sample.config
      (firstRound (Sample.platform Sample.wantsSix) Sample.config
        ((Sample.scanOf Sample.eightStations).rounds (Sample.platform Sample.wantsSix))) := by
  have keyed : Keyed (Sample.scanOf Sample.eightStations).triggerPool := by
    have checked : ∀ e ∈ (Sample.scanOf Sample.eightStations).triggerPool.entries,
        ∀ t ∈ e.2.triggers, t.stationID = e.1 := by decide +kernel
    exact fun id entry member => checked (id, entry) member
  obtain ⟨leaves, _, _, settled⟩ := rounds_consistent (p := Sample.platform Sample.wantsSix)
    (c := Sample.config) (by decide +kernel) keyed (by decide +kernel)
  refine ⟨by decide +kernel, by decide +kernel, settled (by decide +kernel), leaves _ (.inl rfl) ?_⟩
  exact ⟨by decide +kernel, by decide +kernel, by decide +kernel⟩

end LigDataParsing
