import LigDataParsing.Consistency
import LigDataParsing.Report

/-! Station coordinates between degrees and radians. The scan converts with one constant,
`GeoLocation_GPU` converts back with another, and the two are not inverse to each other. -/
namespace LigDataParsing

open Lookup

/-- The coordinates up to which the way there and back moves less than 0.0001 degree. -/
def coordinateLimit : ℚ := 0.0001 / (Params.degree2radians * Params.radians2degree - 1)

/-- The error of the conversion is proportional to the coordinate. -/
theorem converted_close_iff (x : ℚ) :
    |x * Params.degree2radians * Params.radians2degree - x| ≤ 0.0001 ↔ |x| ≤ coordinateLimit := by
  have excess : 0 < Params.degree2radians * Params.radians2degree - 1 := by
    norm_num [Params.degree2radians, Params.radians2degree]
  have error : x * Params.degree2radians * Params.radians2degree - x =
      x * (Params.degree2radians * Params.radians2degree - 1) := by ring
  rw [error, abs_mul, abs_of_pos excess, coordinateLimit, le_div_iff₀ excess]

theorem coordinateLimit_bounds : 0.197 < coordinateLimit ∧ coordinateLimit < 0.198 := by
  norm_num [coordinateLimit, Params.degree2radians, Params.radians2degree]

/-- The station position at which `occur_t` is computed, in degrees. -/
def occurStation (stations : List LocSta) (locTime : List ℚ) : LocSta :=
  stations.getD (Extremum.firstLeast locTime) (LocSta.ofPosition 0 0 0)

def AgreesWith (station : LocSta) (site : StationInfo) : Prop :=
  |station.lat * Params.radians2degree - site.latitude| ≤ 0.0001 ∧
  |station.lon * Params.radians2degree - site.longitude| ≤ 0.0001

theorem agreesWith_iff (site : StationInfo) : AgreesWith site.staLocation site ↔
    |site.latitude| ≤ coordinateLimit ∧ |site.longitude| ≤ coordinateLimit := by
  rw [← converted_close_iff, ← converted_close_iff]
  rfl

section Rounds

variable {p : Platform} {c : Config} {baseTrig : TriggerInfo} {l : Locator}

def Between (p : Platform) (c : Config) (scanned : Scan) (s : Rounds) : Prop :=
  s = firstRound p c (scanned.rounds p) ∨ s = round p c (firstRound p c (scanned.rounds p)) ∨
    s = locate p c scanned

theorem Between.consistent {scanned : Scan} {s : Rounds} (between : Between p c scanned s)
    (enough : 5 ≤ scanned.triggerPool.size) :
    Consistent p scanned.triggerPool scanned.siteMap scanned.siteTimeMap s := by
  have first := firstRound_consistent p c scanned enough
  rcases between with rfl | rfl | rfl
  · exact first
  · exact round_consistent c first
  · exact locate_consistent p c scanned enough

theorem Consistent.combinations {pool : TriggerPool} {siteMap : SiteMap} {siteTimeMap : SiteTimeMap}
    {s : Rounds} (consistent : Consistent p pool siteMap siteTimeMap s) {comb : List TriggerInfo}
    (member : comb ∈ s.locCombinationPool) : comb ∈ combinationsOf siteTimeMap.value s.triggerPool := by
  rcases consistent.chosen with ⟨empty, _⟩ | best
  · simp [empty] at member
  · rwa [best.combinations] at member

theorem stationsOne_getElem? {pool : TriggerPool} {siteMap : SiteMap}
    (placed : ∀ id entry, (id, entry) ∈ pool.entries → entry.staLocation = siteMap.location id)
    {comb : List TriggerInfo} (known : ∀ t ∈ comb, t.stationID ∈ pool.keys) {i : ℕ} {t : TriggerInfo}
    (held : comb[i]? = some t) : (stationsOne p pool comb)[i]? = some (siteMap.location t.stationID) := by
  have inPool := OrderedMap.find_isSome.mpr (known t (List.mem_of_getElem? held))
  obtain ⟨entry, found⟩ := Option.isSome_iff_exists.mp inPool
  rw [stationsOne, List.getElem?_map, held, Option.map_some, found]
  exact congrArg some (placed t.stationID entry (OrderedMap.find_eq_some.mp found))

/-- The residual of the arrival that sets `occur_t` is the difference of the two
distances computed for its station. -/
theorem residual_earliest (libm : Libm) (location3D : LocPara → List LocSta → List ℚ → LocSta)
    (stations : List LocSta) {locTime : List ℚ} {earliest : TriggerInfo} (site : StationInfo)
    (least : locTime.getD (Extremum.firstLeast locTime) 0 = earliest.seconds) :
    residual libm site (geoLocationGPU libm location3D stations locTime) earliest =
      |resultDistance libm stations (Extremum.firstLeast locTime)
          (geoLocationGPU libm location3D stations locTime) -
        stadistance libm site.latitude site.longitude
          (geoLocationGPU libm location3D stations locTime).lat
          (geoLocationGPU libm location3D stations locTime).lon| := by
  have speed : Params.cVeo ≠ 0 := by norm_num [Params.cVeo]
  have travelled (t d : ℚ) : (t - (t - d / Params.cVeo)) * Params.cVeo = d := by
    rw [sub_sub_cancel, div_mul_cancel₀ d speed]
  rw [residual, geoLocationGPU_occurT, least, TriggerInfo.seconds, travelled]

end Rounds

/-- For every combination the rounds meet, the station of its earliest arrival comes back
from the conversion to within 0.0001 degree if and only if both its coordinates are
within the limit; the residual of that arrival is what the conversion makes of it. -/
theorem occur_station_agrees_iff {p : Platform} {c : Config} {baseTrig : TriggerInfo} {l : Locator}
    {location3D : LocPara → List LocSta → List ℚ → LocSta} {s : Rounds} {comb : List TriggerInfo}
    (solver : p.geoLocation = geoLocationGPU p.libm location3D)
    (enough : 5 ≤ (l.scanFrom c baseTrig).triggerPool.size)
    (between : Between p c (l.scanFrom c baseTrig) s) (member : comb ∈ s.locCombinationPool) :
    ∃ earliest result station, comb[Extremum.firstLeast (locTimeOne comb)]? = some earliest ∧
      evaluate p s.triggerPool comb = (result.sq, result) ∧
      station = occurStation (stationsOne p s.triggerPool comb) (locTimeOne comb) ∧
      (AgreesWith station (s.siteMap.value earliest.stationID) ↔
        |(s.siteMap.value earliest.stationID).latitude| ≤ coordinateLimit ∧
        |(s.siteMap.value earliest.stationID).longitude| ≤ coordinateLimit) ∧
      residual p.libm (s.siteMap.value earliest.stationID) result earliest =
        |stadistance p.libm (station.lat * Params.radians2degree) (station.lon * Params.radians2degree)
            result.lat result.lon -
          stadistance p.libm (s.siteMap.value earliest.stationID).latitude
            (s.siteMap.value earliest.stationID).longitude result.lat result.lon| := by
  have consistent := between.consistent enough
  have keyed := (scanFrom_keyed c baseTrig l).part consistent.part
  have found := consistent.combinations member
  have length := combination_length found
  have nonempty : comb ≠ [] := List.ne_nil_of_length_pos (by have := consistent.stations; omega)
  obtain ⟨earliest, held, least, _⟩ := firstLeast_locTimeOne nonempty
  have placed : ∀ id entry, (id, entry) ∈ s.triggerPool.entries →
      entry.staLocation = s.siteMap.location id := by
    intro id entry inPool
    have sites := consistent.locations.trans (scanFrom_spec c baseTrig l).2.1
    rw [SiteMap.location_congr sites]
    exact ((scanFrom_spec c baseTrig l).1.entry id entry (consistent.part.subset inPool)).2.1
  have known : ∀ t ∈ comb, t.stationID ∈ s.triggerPool.keys := by
    intro t inComb
    rw [← combination_stations keyed found]
    exact List.mem_map_of_mem inComb
  have station : occurStation (stationsOne p s.triggerPool comb) (locTimeOne comb) =
      (s.siteMap.value earliest.stationID).staLocation := by
    rw [occurStation, List.getD_eq_getElem?_getD, stationsOne_getElem? placed known held, Option.getD_some]
    rfl
  refine ⟨earliest, _, _, held, evaluate_solved p (length ▸ consistent.stations), rfl, ?_, ?_⟩
  · rw [station]
    exact agreesWith_iff _
  · rw [solver]
    exact residual_earliest p.libm location3D _ _ least

namespace Sample

def searching : Platform := platform (geoLocationGPU (platform prefersLate).libm location3D)

def searched : Rounds := firstRound searching config ((scanOf distinctStations).rounds searching)

def fiveStations : List TriggerInfo :=
  [trigger 1 0.0001, { trigger 2 0.0002 with trigIdx := 1 }, { trigger 3 0.0004 with trigIdx := 2 },
    { trigger 4 0.0005 with trigIdx := 3 }, { trigger 5 0.0006 with trigIdx := 4 }]

end Sample

theorem occur_station_agrees_five : ∃ earliest result station,
    Sample.fiveStations[Extremum.firstLeast (locTimeOne Sample.fiveStations)]? = some earliest ∧
    evaluate Sample.searching Sample.searched.triggerPool Sample.fiveStations = (result.sq, result) ∧
    station = occurStation (stationsOne Sample.searching Sample.searched.triggerPool Sample.fiveStations)
      (locTimeOne Sample.fiveStations) ∧
    (AgreesWith station (Sample.searched.siteMap.value earliest.stationID) ↔
      |(Sample.searched.siteMap.value earliest.stationID).latitude| ≤ coordinateLimit ∧
      |(Sample.searched.siteMap.value earliest.stationID).longitude| ≤ coordinateLimit) := by
  obtain ⟨earliest, result, station, held, evaluated, same, agrees, _⟩ := occur_station_agrees_iff
    (c := Sample.config) (l := Sample.locator Sample.distinctStations)
    (show Sample.searching.geoLocation = geoLocationGPU Sample.searching.libm Sample.location3D from rfl)
    (show 5 ≤ (Sample.scanOf Sample.distinctStations).triggerPool.size by decide +kernel) (.inl rfl)
    (show Sample.fiveStations ∈ Sample.searched.locCombinationPool by decide +kernel)
  exact ⟨earliest, result, station, held, evaluated, same, agrees⟩

/-- At longitude 110 the way there and back moves a station by more than 0.05 degree. -/
theorem occur_station_moves :
    Sample.fiveStations ∈ Sample.searched.locCombinationPool ∧
    Sample.fiveStations[Extremum.firstLeast (locTimeOne Sample.fiveStations)]? = some (Sample.trigger 1 0.0001) ∧
    (Sample.searched.siteMap.value 1).latitude = 0 ∧ (Sample.searched.siteMap.value 1).longitude = 110 ∧
    ¬ AgreesWith (occurStation (stationsOne Sample.searching Sample.searched.triggerPool Sample.fiveStations)
      (locTimeOne Sample.fiveStations)) (Sample.searched.siteMap.value 1) ∧
    0.05 < (occurStation (stationsOne Sample.searching Sample.searched.triggerPool Sample.fiveStations)
      (locTimeOne Sample.fiveStations)).lon * Params.radians2degree - 110 := by
  refine ⟨by decide +kernel, by decide +kernel, by decide +kernel, by decide +kernel, ?_, by decide +kernel⟩
  rintro ⟨_, close⟩
  exact absurd close (by decide +kernel)

end LigDataParsing
