import Mathlib.Tactic.Linarith
import LigDataParsing.Extremum
import LigDataParsing.GPSTime
import LigDataParsing.GeoTools
import LigDataParsing.Lookup

/-! The maps the threads share and the solver of `LocStruct.cpp`. The grid search
inside it comes from a closed library and stays a parameter. -/
namespace LigDataParsing

abbrev SiteMap := Lookup.Table ℤ StationInfo

/-- Propagation times in seconds between two station IDs; a missing entry reads 0. -/
abbrev SiteTimeMap := Lookup.Table2 ℤ ℚ

structure TriggerAtStation where
  triggers : List TriggerInfo
  staLocation : LocSta
  stationID : ℤ

abbrev TriggerPool := Lookup.OrderedMap ℤ TriggerAtStation

/-- The constructor from a position; it leaves `sq` unset and nothing reads it there. -/
def LocSta.ofPosition (lat lon h : ℚ) : LocSta := ⟨lat, lon, h, 0, 0⟩

/-- The solver's view of a station entry: radians and kilometres. -/
def StationInfo.staLocation (site : StationInfo) : LocSta :=
  LocSta.ofPosition (site.latitude * Params.degree2radians) (site.longitude * Params.degree2radians)
    (site.altitude / 1000.0)

structure LocPara where
  lat : ℚ
  boundW : ℚ
  boundE : ℚ
  boundS : ℚ
  boundN : ℚ
  boundhb : ℚ
  boundht : ℚ
  dh : ℚ

def LocPara.around (result : LocSta) (lat below above boundhb boundht dh : ℚ) : LocPara where
  lat := lat * Params.pi / 180
  boundW := (result.lon - below) * Params.pi / 180
  boundE := (result.lon + above) * Params.pi / 180
  boundS := (result.lat - below) * Params.pi / 180
  boundN := (result.lat + above) * Params.pi / 180
  boundhb := if boundhb < 0 then 0 else boundhb
  boundht := if boundht > 20 then 20 else boundht
  dh := dh

/-- Path differences between neighbouring arrivals, closed into a cycle at index 0. -/
def diffBe2s (locTime : List ℚ) : List ℚ :=
  (List.range locTime.length).map fun m =>
    if m = 0 then (locTime.getD 0 0 - locTime.getD (locTime.length - 1) 0) * Params.cVeo
    else (locTime.getD m 0 - locTime.getD (m - 1) 0) * Params.cVeo

/-- Distance from the converted position of station `index` to a result in degrees. -/
def resultDistance (libm : Libm) (stations : List LocSta) (index : ℕ) (result : LocSta) : ℚ :=
  let station := stations.getD index (LocSta.ofPosition 0 0 0)
  stadistance libm (station.lat * Params.radians2degree) (station.lon * Params.radians2degree)
    result.lat result.lon

/-- The position part of `GeoLocation_GPU`: one coarse search and, where it fits, three finer ones. -/
def searchLocation (location3D : LocPara → List LocSta → List ℚ → LocSta) (stations : List LocSta)
    (diff : List ℚ) : LocSta :=
  let wide : LocPara := ⟨0.08 * Params.pi / 180, Params.boundaryW * Params.pi / 180,
    Params.boundaryE * Params.pi / 180, Params.boundaryS * Params.pi / 180,
    Params.boundaryN * Params.pi / 180, 0, 0.1, 0.1⟩
  let result := location3D wide stations diff
  if result.sq < 50 then
    let result := location3D (.around result 0.01 1.28 1.28001 0 20 1) stations diff
    let result := location3D (.around result 0.001 0.064 0.064001 0 20 0.2) stations diff
    location3D (.around result 0.001 0.064 0.064001 (result.h - 0.1) (result.h + 0.1) 0.1) stations diff
  else result

def geoLocationGPU (libm : Libm) (location3D : LocPara → List LocSta → List ℚ → LocSta)
    (stations : List LocSta) (locTime : List ℚ) : LocSta :=
  let result := searchLocation location3D stations (diffBe2s locTime)
  let minIndex := Extremum.firstLeast locTime
  { result with
    occurT := locTime.getD minIndex 0 - resultDistance libm stations minIndex result / Params.cVeo }

/-- The distance `occurT` was computed from is the one to the position returned. -/
theorem geoLocationGPU_occurT (libm : Libm) (location3D : LocPara → List LocSta → List ℚ → LocSta)
    (stations : List LocSta) (locTime : List ℚ) :
    (geoLocationGPU libm location3D stations locTime).occurT =
      locTime.getD (Extremum.firstLeast locTime) 0 -
        resultDistance libm stations (Extremum.firstLeast locTime)
          (geoLocationGPU libm location3D stations locTime) / Params.cVeo := rfl

end LigDataParsing
