import LigDataParsing.GPSTimeAlgorithm
import LigDataParsing.LigTools
import LigDataParsing.Scan

/-! Locating a pool: every combination is solved, the one with the least `sq` is kept,
and while it is not good enough the station with the largest residual is left out, at
most twice. -/
namespace LigDataParsing

open Lookup

structure Config where
  maxBaseLineAsTOA : ℚ
  locThresholdInitial : ℚ
  checkTheta : ℚ
  waitTime : ℚ
  locThresholdFinal : ℚ
  currentProcessingTime : GPSTime
  /-- `mode` is `reProcess`. -/
  reProcess : Bool
  startTime : GPSTime
  endTime : GPSTime

/-- What the program takes from outside: the local clock's offset, `std::sort`, the C
library, the solver, and the values an uninitialised local happens to hold. -/
structure Platform where
  utcOffset : ℤ
  sorter : KeyedSort.Sorter TriggerInfo TriggerInfo.lt
  libm : Libm
  geoLocation : List LocSta → List ℚ → LocSta
  uninitResult : LocSta
  uninitIndex : ℕ

/-- The locals of one pass that the rounds work on, with the shared maps. -/
structure Rounds where
  triggerPool : TriggerPool
  locCombinationPool : List (List TriggerInfo)
  minSq : ℚ
  result : LocSta
  finalCombIdx : ℕ
  siteMap : SiteMap
  siteTimeMap : SiteTimeMap

def Rounds.oneComb (s : Rounds) : List TriggerInfo := s.locCombinationPool.getD s.finalCombIdx []

def locTimeOne (oneComb : List TriggerInfo) : List ℚ :=
  oneComb.map fun t => t.time.sec + t.time.actPointSec

def stationsOne (p : Platform) (triggerPool : TriggerPool) (oneComb : List TriggerInfo) : List LocSta :=
  oneComb.map fun t => ((triggerPool.find t.stationID).map TriggerAtStation.staLocation).getD p.uninitResult

/-- The entries `sqList[m]` and `resultList[m]` of one combination. -/
def evaluate (p : Platform) (triggerPool : TriggerPool) (oneComb : List TriggerInfo) : ℚ × LocSta :=
  if oneComb.length < 5 then (Params.floatMax, p.uninitResult)
  else
    let oneResult := p.geoLocation (stationsOne p triggerPool oneComb) (locTimeOne oneComb)
    (oneResult.sq, oneResult)

def processCombinationPool (p : Platform) (s : Rounds) : Rounds :=
  let evaluated := s.locCombinationPool.map (evaluate p s.triggerPool)
  let minElement := Extremum.firstLeast (evaluated.map Prod.fst)
  { s with
    minSq := (evaluated.getD minElement (Params.floatMax, p.uninitResult)).1
    finalCombIdx := minElement
    result := (evaluated.getD minElement (Params.floatMax, p.uninitResult)).2 }

def enumerate (p : Platform) (s : Rounds) : Rounds :=
  let found := getLocationPoolP s.triggerPool s.siteTimeMap s.triggerPool.size
  let s := { s with locCombinationPool := found.combinationPool, siteTimeMap := found.siteTimeMap }
  if s.locCombinationPool.length > 0 then processCombinationPool p s else s

def residual (libm : Libm) (site : StationInfo) (result : LocSta) (iter : TriggerInfo) : ℚ :=
  |(iter.time.sec + iter.time.actPointSec - result.occurT) * Params.cVeo -
    stadistance libm site.latitude site.longitude result.lat result.lon|

/-- The loop that fills `sqMap`; it reads the station data with `operator[]`. -/
def fillSqMap (libm : Libm) (result : LocSta) : List TriggerInfo → List (ℤ × ℚ) × SiteMap →
    List (ℤ × ℚ) × SiteMap
  | [], s => s
  | iter :: rest, (sqMap, siteMap) =>
    fillSqMap libm result rest
      (assignSorted iter.stationID (residual libm (siteMap.value iter.stationID) result iter) sqMap,
        siteMap.touch iter.stationID)

def eliminate (libm : Libm) (s : Rounds) : Rounds :=
  let filled := fillSqMap libm s.result s.oneComb ([], s.siteMap)
  let maxElement := Extremum.firstGreatest (filled.1.map Prod.snd)
  { s with
    triggerPool := s.triggerPool.erase (filled.1.getD maxElement (0, 0)).1
    siteMap := filled.2 }

def round (p : Platform) (c : Config) (s : Rounds) : Rounds :=
  if s.minSq > c.locThresholdInitial ∧ s.triggerPool.size > 6 then
    enumerate p (if s.locCombinationPool.length > 0 then eliminate p.libm s else s)
  else s

def Scan.rounds (p : Platform) (scanned : Scan) : Rounds :=
  ⟨scanned.triggerPool, [], Params.floatMax, p.uninitResult, p.uninitIndex, scanned.siteMap,
    scanned.siteTimeMap⟩

def firstRound (p : Platform) (c : Config) (s : Rounds) : Rounds :=
  if s.minSq > c.locThresholdInitial then enumerate p s else s

def locate (p : Platform) (c : Config) (scanned : Scan) : Rounds :=
  round p c (round p c (firstRound p c (scanned.rounds p)))

/-- The combinations `getLocationPoolP` finds in a pool, with the propagation times as
a function. -/
def combinationsOf (time : ℤ → ℤ → ℚ) (triggerPool : TriggerPool) : List (List TriggerInfo) :=
  Backtrack.extensions (pairFits time) (poolTriggers triggerPool) []

structure Best (p : Platform) (time : ℤ → ℤ → ℚ) (s : Rounds) : Prop where
  combinations : s.locCombinationPool = combinationsOf time s.triggerPool
  inRange : s.finalCombIdx < s.locCombinationPool.length
  evaluated : evaluate p s.triggerPool s.oneComb = (s.minSq, s.result)
  least : ∀ other ∈ s.locCombinationPool, s.minSq ≤ (evaluate p s.triggerPool other).1

/-- What holds between the rounds that start from `pool`. -/
structure Consistent (p : Platform) (pool : TriggerPool) (siteMap : SiteMap) (siteTimeMap : SiteTimeMap)
    (s : Rounds) : Prop where
  part : s.triggerPool.entries.Sublist pool.entries
  stations : 5 ≤ s.triggerPool.size
  locations : s.siteMap.value = siteMap.value
  times : siteTimeMap.Grown s.siteTimeMap
  chosen : s.locCombinationPool = [] ∧ s.minSq = Params.floatMax ∨ Best p siteTimeMap.value s

theorem mem_combinationsOf {time : ℤ → ℤ → ℚ} {triggerPool : TriggerPool} {comb : List TriggerInfo} :
    comb ∈ combinationsOf time triggerPool ↔ Backtrack.Choice comb (poolTriggers triggerPool) ∧
      Backtrack.Compatible (pairFits time) comb := Backtrack.mem_extensions_nil

theorem getLocationPoolP_eq (triggerPool : TriggerPool) (siteTimeMap : SiteTimeMap) :
    (getLocationPoolP triggerPool siteTimeMap triggerPool.size).combinationPool =
      combinationsOf siteTimeMap.value triggerPool := by
  rw [getLocationPoolP_size, (permuteVector_spec _ _).2.1, List.nil_append, combinationsOf]

/-- The minimum and its position stay in step with the result. -/
theorem processCombinationPool_best {p : Platform} {time : ℤ → ℤ → ℚ} {s : Rounds}
    (combinations : s.locCombinationPool = combinationsOf time s.triggerPool)
    (nonempty : s.locCombinationPool ≠ []) : Best p time (processCombinationPool p s) := by
  obtain ⟨found, held, least⟩ := Extremum.firstLeast_spec
    (l := (s.locCombinationPool.map (evaluate p s.triggerPool)).map Prod.fst) (by simpa using nonempty)
  have inRange := (List.getElem?_eq_some_iff.mp held).1
  simp only [List.length_map] at inRange
  obtain ⟨comb, atComb⟩ : ∃ comb, s.locCombinationPool[_]? = some comb :=
    ⟨_, List.getElem?_eq_getElem inRange⟩
  have sq : (evaluate p s.triggerPool comb).1 = found := by
    rw [List.getElem?_map, List.getElem?_map, atComb] at held
    exact Option.some.inj held
  refine ⟨combinations, inRange, ?_, ?_⟩
  · simp only [processCombinationPool, Rounds.oneComb, List.getD_eq_getElem?_getD, List.getElem?_map,
      atComb, Option.map_some, Option.getD_some]
  · intro other member
    have below := least (evaluate p s.triggerPool other).1
      (List.mem_map_of_mem (List.mem_map_of_mem member))
    rw [← sq] at below
    simpa only [processCombinationPool, List.getD_eq_getElem?_getD, List.getElem?_map, atComb,
      Option.map_some, Option.getD_some] using below

/-- Enumerating again restores the choice, as long as `minSq` is untouched or some
combination is left. -/
theorem enumerate_consistent {p : Platform} {pool : TriggerPool} {siteMap : SiteMap}
    {siteTimeMap : SiteTimeMap} {s : Rounds} (part : s.triggerPool.entries.Sublist pool.entries)
    (stations : 5 ≤ s.triggerPool.size) (locations : s.siteMap.value = siteMap.value)
    (times : siteTimeMap.Grown s.siteTimeMap)
    (ready : s.minSq = Params.floatMax ∨ combinationsOf siteTimeMap.value s.triggerPool ≠ []) :
    Consistent p pool siteMap siteTimeMap (enumerate p s) := by
  have grown := times.trans (getLocationPoolP_grown s.triggerPool s.siteTimeMap)
  have found := getLocationPoolP_eq s.triggerPool s.siteTimeMap
  rw [times.value] at found
  simp only [enumerate]
  split_ifs with nonempty
  · refine ⟨part, stations, locations, grown, .inr ?_⟩
    exact processCombinationPool_best found (List.ne_nil_of_length_pos nonempty)
  · have empty : (getLocationPoolP s.triggerPool s.siteTimeMap s.triggerPool.size).combinationPool = [] :=
      List.eq_nil_of_length_eq_zero (by simpa using nonempty)
    refine ⟨part, stations, locations, grown, .inl ⟨empty, ?_⟩⟩
    rcases ready with untouched | left
    · exact untouched
    · exact absurd (found ▸ empty) left

theorem fillSqMap_value (libm : Libm) (result : LocSta) (comb : List TriggerInfo)
    (s : List (ℤ × ℚ) × SiteMap) : (fillSqMap libm result comb s).2.value = s.2.value := by
  induction comb generalizing s with
  | nil => rfl
  | cons iter rest ih =>
    rw [fillSqMap, ih]
    exact Table.touch_value s.2 iter.stationID

/-- Leaving a station out keeps every pool with a combination one with a combination. -/
theorem combinationsOf_erase {time : ℤ → ℤ → ℚ} {pool : TriggerPool} (id : ℤ)
    (nonempty : combinationsOf time pool ≠ []) : combinationsOf time (pool.erase id) ≠ [] := by
  rcases OrderedMap.entries_erase pool id with same | ⟨before, entry, after, split, erased⟩
  · simpa [combinationsOf, poolTriggers, OrderedMap.values, same] using nonempty
  · simp only [combinationsOf, poolTriggers, OrderedMap.values, split, List.map_append, List.map_cons]
      at nonempty
    have left := Backtrack.extensions_leave_out nonempty
    simpa [combinationsOf, poolTriggers, OrderedMap.values, erased] using left

theorem size_erase_ge (pool : TriggerPool) (id : ℤ) : pool.size ≤ (pool.erase id).size + 1 := by
  rcases OrderedMap.entries_erase pool id with same | ⟨before, entry, after, split, erased⟩
  · simp [OrderedMap.size, same]
  · simp only [OrderedMap.size, split, erased, List.length_append, List.length_cons]
    omega

theorem eliminate_size (libm : Libm) (s : Rounds) :
    s.triggerPool.size ≤ (eliminate libm s).triggerPool.size + 1 := size_erase_ge ..

theorem eliminate_part (libm : Libm) (s : Rounds) :
    (eliminate libm s).triggerPool.entries.Sublist s.triggerPool.entries := List.filter_sublist

theorem eliminate_value (libm : Libm) (s : Rounds) : (eliminate libm s).siteMap.value = s.siteMap.value :=
  fillSqMap_value ..

theorem round_consistent {p : Platform} {pool : TriggerPool} {siteMap : SiteMap}
    {siteTimeMap : SiteTimeMap} {s : Rounds} (c : Config)
    (consistent : Consistent p pool siteMap siteTimeMap s) :
    Consistent p pool siteMap siteTimeMap (round p c s) := by
  obtain ⟨part, stations, locations, times, chosen⟩ := consistent
  rw [round]
  split_ifs with again nonempty
  · apply enumerate_consistent ((eliminate_part p.libm s).trans part)
    · have := eliminate_size p.libm s
      omega
    · exact (eliminate_value p.libm s).trans locations
    · exact times
    · rcases chosen with ⟨empty, _⟩ | best
      · simp [empty] at nonempty
      · refine .inr (combinationsOf_erase _ ?_)
        rw [← best.combinations]
        exact List.ne_nil_of_length_pos nonempty
  · apply enumerate_consistent part stations locations times
    rcases chosen with ⟨_, untouched⟩ | best
    · exact .inl untouched
    · exact absurd (Nat.zero_lt_of_lt best.inRange) nonempty
  · exact ⟨part, stations, locations, times, chosen⟩

theorem firstRound_consistent (p : Platform) (c : Config) (scanned : Scan)
    (stations : 5 ≤ scanned.triggerPool.size) :
    Consistent p scanned.triggerPool scanned.siteMap scanned.siteTimeMap
      (firstRound p c (scanned.rounds p)) := by
  rw [firstRound]
  split_ifs
  · exact enumerate_consistent (List.Sublist.refl _) stations rfl (Table2.Grown.refl _) (.inl rfl)
  · exact ⟨List.Sublist.refl _, stations, rfl, Table2.Grown.refl _, .inl ⟨rfl, rfl⟩⟩

theorem locate_consistent (p : Platform) (c : Config) (scanned : Scan)
    (stations : 5 ≤ scanned.triggerPool.size) :
    Consistent p scanned.triggerPool scanned.siteMap scanned.siteTimeMap (locate p c scanned) :=
  round_consistent c (round_consistent c (firstRound_consistent p c scanned stations))

/-- Above the sentinel the threshold admits the initial `minSq`, and nothing is enumerated. -/
theorem locate_above_sentinel (p : Platform) {c : Config} (scanned : Scan)
    (above : Params.floatMax < c.locThresholdInitial) : locate p c scanned = scanned.rounds p := by
  have first : firstRound p c (scanned.rounds p) = scanned.rounds p := if_neg (not_lt.mpr above.le)
  have again : round p c (scanned.rounds p) = scanned.rounds p :=
    if_neg fun ⟨poor, _⟩ => not_lt.mpr above.le poor
  rw [locate, first, again, again]

/-- A location below the threshold comes from a best combination. -/
theorem locate_best {p : Platform} {c : Config} {scanned : Scan}
    (stations : 5 ≤ scanned.triggerPool.size) (sentinel : c.locThresholdInitial ≤ Params.floatMax)
    (located : (locate p c scanned).minSq < c.locThresholdInitial) :
    Best p scanned.siteTimeMap.value (locate p c scanned) := by
  rcases (locate_consistent p c scanned stations).chosen with ⟨_, untouched⟩ | best
  · rw [untouched] at located
    exact absurd located (not_lt.mpr sentinel)
  · exact best

end LigDataParsing
