import Mathlib.Data.Rat.Floor

/-! Constants of `Params.h`, stations, solver results and the spherical distance of
`GeoTools.h`. The C library's real functions are parameters that take and return the
rationals standing for doubles; `float` and `double` share one exact type. -/
namespace LigDataParsing

namespace Params

def pi : ℚ := 3.1415926535897931
def degree2radians : ℚ := 0.017453292519943
def radians2degree : ℚ := 57.32484076433121
/-- Kilometres per second. -/
def cVeo : ℚ := 299792.458
/-- The macro `R`, in kilometres. -/
def earthR : ℚ := 6371.004
def floatMax : ℚ := 1000000000000
def boundaryW : ℚ := 80.0
def boundaryE : ℚ := boundaryW + 6144 * 0.01
def boundaryS : ℚ := 0
def boundaryN : ℚ := boundaryS + 6144 * 0.01

end Params

structure Libm where
  sin : ℚ → ℚ
  cos : ℚ → ℚ
  asin : ℚ → ℚ
  acos : ℚ → ℚ
  sqrt : ℚ → ℚ
  sqrtf : ℚ → ℚ

structure StationInfo where
  stationID : ℤ
  name : String
  latitude : ℚ
  longitude : ℚ
  altitude : ℚ
  gpsTime : String
  gpsIsValid : Bool
  deriving DecidableEq

/-- What `operator[]` inserts for an unknown station. -/
instance : Inhabited StationInfo := ⟨⟨0, "", 0, 0, 0, "", false⟩⟩

/-- A station position in radians and kilometres, or a solver result in degrees. -/
structure LocSta where
  lat : ℚ
  lon : ℚ
  h : ℚ
  sq : ℚ
  occurT : ℚ
  deriving DecidableEq

def rads (x : ℚ) : ℚ := x * Params.pi * 1.0 / 180

def stadistance (libm : Libm) (latA lonA latB lonB : ℚ) : ℚ :=
  let latA := rads latA
  let latB := rads latB
  let lonA := rads lonA
  let lonB := rads lonB
  (2 * libm.asin (min 1 (libm.sqrtf (libm.sin ((latB - latA) / 2) * libm.sin ((latB - latA) / 2) +
    libm.sin ((lonB - lonA) / 2) * libm.sin ((lonB - lonA) / 2) * libm.cos latA * libm.cos latB)))) *
    Params.earthR

structure Cmath (T : Type*) where
  sin : T → T
  cos : T → T
  asin : T → T
  sqrt : T → T
  atan2 : T → T → T

def stadistance3D (m : Cmath ℚ) (latA lonA altA latB lonB altB : ℚ) : ℚ :=
  let latA := rads latA
  let latB := rads latB
  let lonA := rads lonA
  let lonB := rads lonB
  let dlat := latB - latA
  let dlon := lonB - lonA
  let a := m.sin (dlat / 2) * m.sin (dlat / 2) + m.cos latA * m.cos latB * m.sin (dlon / 2) * m.sin (dlon / 2)
  let c := 2 * m.atan2 (m.sqrt a) (m.sqrt (1 - a))
  let distance := c * Params.earthR
  m.sqrt (distance ^ 2 + (altA - altB) ^ 2)

structure Cartesian where
  x : ℚ
  y : ℚ
  z : ℚ

def Cartesian.ofLatLon (libm : Libm) (lan lon : ℚ) : Cartesian :=
  ⟨libm.cos lan * libm.cos lon, libm.cos lan * libm.sin lon, libm.sin lan⟩

def Cartesian.minus (a b : Cartesian) : Cartesian := ⟨a.x - b.x, a.y - b.y, a.z - b.z⟩

def Cartesian.dot (a b : Cartesian) : ℚ := a.x * b.x + a.y * b.y + a.z * b.z

end LigDataParsing
