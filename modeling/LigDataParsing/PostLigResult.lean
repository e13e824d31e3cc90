import LigDataParsing.LocStruct
import LigDataParsing.TimeText

/-! What is posted of a location: the record `PostLigResult` builds from a combination,
with the peak current taken from one of its stations. Sending it is left out. -/
namespace LigDataParsing

/-- The keys of `config.yaml` the record depends on; a station without gain reads `none`. -/
structure PostConfig where
  expTag : List Char
  gainCoefficient : ℤ → Option ℚ

structure StaInfo where
  id : ℤ
  name : List Char
  value : ℚ
  peakCurrent : List Char
  residual : ℚ

structure PostState where
  totalNames : List Char
  totalIDs : List Char
  minT : GPSTime
  minIdx : ℕ
  minDis : ℚ
  f : ℚ
  infoOfSta : List StaInfo
  siteMap : SiteMap

structure LigData where
  expTag : List Char
  time : List Char
  nano : ℚ
  latitude : ℚ
  longitude : ℚ
  altitude : ℚ
  residual : ℚ
  numOfSta : ℕ
  peakCurrent : ℚ
  type : List Char
  datetime : List Char
  nameOfSta : List Char
  idOfSta : List Char
  infoOfSta : List StaInfo
  isDeleted : ℤ
  locationMethod : List Char

def oneMinute : Duration := ⟨0, 0, 0, 0, 1, 0⟩

section Post

variable (m : Cmath ℚ) (c : PostConfig) (ligTime : GPSTime) (res : LocSta)

def siteDistance (site : StationInfo) : ℚ :=
  stadistance3D m res.lat res.lon res.h site.latitude site.longitude site.altitude

/-- One turn of the loop; the station is read with `operator[]`. -/
def postStep (i : ℕ) (iter : TriggerInfo) (s : PostState) : PostState :=
  let site := s.siteMap.value iter.stationID
  let dis := siteDistance m res site
  let residual := iter.time.sub ligTime * Params.cVeo - dis
  let s := { s with
    siteMap := s.siteMap.touch iter.stationID
    totalIDs := s.totalIDs ++ (toString iter.stationID).toList ++ ['+']
    totalNames := s.totalNames ++ site.name.toList ++ ['+']
    infoOfSta := s.infoOfSta ++ [⟨iter.stationID, site.name.toList, iter.value, [], residual⟩] }
  match c.gainCoefficient iter.stationID with
  | some gain => if iter.time.lt s.minT then { s with minT := iter.time, minIdx := i, f := gain, minDis := dis } else s
  | none => s

def postLoop : ℕ → List TriggerInfo → PostState → PostState
  | _, [], s => s
  | i, iter :: rest, s => postLoop (i + 1) rest (postStep m c ligTime res i iter s)

/-- The combination is not empty: its first time is read before the loop. -/
def postLigResult (utcOffset : ℤ) (first : TriggerInfo) (rest : List TriggerInfo) (siteMap : SiteMap) : LigData :=
  let oneComb := first :: rest
  let s := postLoop m c ligTime res 0 oneComb
    ⟨[], [], first.time.plus utcOffset oneMinute, 0, 0, 0, [], siteMap⟩
  { expTag := c.expTag
    time := getTimeStr ligTime
    nano := ligTime.actPointSec * 1000000000
    latitude := res.lat
    longitude := res.lon
    altitude := res.h
    residual := res.sq
    numOfSta := oneComb.length
    peakCurrent := (oneComb.getD s.minIdx first).value * s.minDis * s.f
    type := if res.h < 2.0 then ['R', 'S'] else ['I', 'C']
    datetime := ['2', '0'] ++ ligTime.str.drop 2
    nameOfSta := s.totalNames.dropLast
    idOfSta := s.totalIDs.dropLast
    infoOfSta := s.infoOfSta
    isDeleted := 0
    locationMethod := ['T', 'O', 'A'] }

end Post

/-- A trigger that may set the peak current: before the sentinel, of a calibrated station. -/
def Eligible (c : PostConfig) (sentinel : GPSTime) (t : TriggerInfo) : Prop :=
  (c.gainCoefficient t.stationID).isSome ∧ t.time.lt sentinel = true

abbrev Earliest (c : PostConfig) (sentinel : GPSTime) : List TriggerInfo → ℕ → TriggerInfo → Prop :=
  Extremum.FirstLeastAmong (Eligible c sentinel) fun t => t.time.stamp

/-- What the loop holds after the triggers `done`: the sentinel, or time, index, distance
and coefficient of one trigger. -/
inductive Peak (m : Cmath ℚ) (c : PostConfig) (res : LocSta) (site : ℤ → StationInfo) (sentinel : GPSTime)
    (done : List TriggerInfo) (s : PostState) : Prop where
  | untouched (skipped : ∀ t ∈ done, ¬Eligible c sentinel t) (minT : s.minT = sentinel) (minDis : s.minDis = 0)
  | taken (t : TriggerInfo) (earliest : Earliest c sentinel done s.minIdx t) (minT : s.minT = t.time)
      (minDis : s.minDis = siteDistance m res (site t.stationID)) (gain : c.gainCoefficient t.stationID = some s.f)

section Loop

variable {m : Cmath ℚ} {c : PostConfig} {res : LocSta} {sentinel : GPSTime}

theorem postStep_siteMap (m : Cmath ℚ) (c : PostConfig) (ligTime : GPSTime) (res : LocSta) (i : ℕ)
    (iter : TriggerInfo) (s : PostState) :
    (postStep m c ligTime res i iter s).siteMap.value = s.siteMap.value := by
  have touched := Lookup.Table.touch_value s.siteMap iter.stationID
  unfold postStep
  cases c.gainCoefficient iter.stationID with
  | none => exact touched
  | some gain =>
    dsimp only
    split_ifs
    · exact touched
    · exact touched

theorem postStep_peak (ligTime : GPSTime) {done : List TriggerInfo} {s : PostState} (iter : TriggerInfo)
    (peak : Peak m c res s.siteMap.value sentinel done s) :
    Peak m c res s.siteMap.value sentinel (done ++ [iter]) (postStep m c ligTime res done.length iter s) := by
  unfold postStep
  cases gain : c.gainCoefficient iter.stationID with
  | none =>
    have ineligible : ¬Eligible c sentinel iter := by simp [Eligible, gain]
    cases peak with
    | untouched skipped minT minDis =>
      refine .untouched ?_ minT minDis
      simpa [or_imp, forall_and] using ⟨skipped, ineligible⟩
    | taken t earliest minT minDis known =>
      exact .taken t (earliest.keep fun eligible => absurd eligible ineligible) minT minDis known
  | some value =>
    dsimp only
    split_ifs with sooner
    · cases peak with
      | untouched skipped minT minDis =>
        have eligible : Eligible c sentinel iter := ⟨by simp [gain], minT ▸ sooner⟩
        exact .taken iter (.take eligible fun t member early => absurd early (skipped t member)) rfl rfl gain
      | taken t earliest minT minDis known =>
        rw [minT, GPSTime.lt_iff] at sooner
        have eligible : Eligible c sentinel iter :=
          ⟨by simp [gain], GPSTime.lt_iff.mpr (sooner.trans (GPSTime.lt_iff.mp earliest.passes.2))⟩
        refine .taken iter (.take eligible fun u member early => ?_) rfl rfl gain
        obtain ⟨j, held⟩ := List.mem_iff_getElem?.mp member
        exact sooner.trans_le (earliest.least j u held early).1
    · cases peak with
      | untouched skipped minT minDis =>
        have ineligible : ¬Eligible c sentinel iter := fun eligible => sooner (minT ▸ eligible.2)
        refine .untouched ?_ minT minDis
        simpa [or_imp, forall_and] using ⟨skipped, ineligible⟩
      | taken t earliest minT minDis known =>
        refine .taken t (earliest.keep fun _ => ?_) minT minDis known
        rw [minT, GPSTime.lt_iff] at sooner
        exact not_lt.mp sooner

theorem postLoop_peak (ligTime : GPSTime) (done rest : List TriggerInfo) {s : PostState}
    (peak : Peak m c res s.siteMap.value sentinel done s) :
    Peak m c res s.siteMap.value sentinel (done ++ rest) (postLoop m c ligTime res done.length rest s) := by
  induction rest generalizing done s with
  | nil => simpa [postLoop] using peak
  | cons iter rest ih =>
    have next := postStep_peak ligTime iter peak
    rw [← postStep_siteMap m c ligTime res done.length iter s] at next
    have finished := ih (done ++ [iter]) next
    rw [postStep_siteMap, List.append_assoc, List.length_append] at finished
    exact finished

end Loop

/-- With every time before the sentinel the posted peak current is the value, the distance
and the gain of one trigger: the earliest, then first, of a calibrated station. Without a
calibrated station it is zero. -/
theorem peak_current_earliest (m : Cmath ℚ) (c : PostConfig) (ligTime : GPSTime) (res : LocSta) (utcOffset : ℤ)
    {first : TriggerInfo} {rest : List TriggerInfo} (siteMap : SiteMap)
    (early : ∀ t ∈ first :: rest, t.time.lt (first.time.plus utcOffset oneMinute) = true) :
    ((∃ t ∈ first :: rest, (c.gainCoefficient t.stationID).isSome) → ∃ i t gain,
      Extremum.FirstLeastAmong (fun t => (c.gainCoefficient t.stationID).isSome) (fun t => t.time.stamp)
        (first :: rest) i t ∧
      c.gainCoefficient t.stationID = some gain ∧
      (postLigResult m c ligTime res utcOffset first rest siteMap).peakCurrent =
        t.value * siteDistance m res (siteMap.value t.stationID) * gain) ∧
    ((∀ t ∈ first :: rest, c.gainCoefficient t.stationID = none) →
      (postLigResult m c ligTime res utcOffset first rest siteMap).peakCurrent = 0) := by
  let start : PostState := ⟨[], [], first.time.plus utcOffset oneMinute, 0, 0, 0, [], siteMap⟩
  let s := postLoop m c ligTime res 0 (first :: rest) start
  have started : Peak m c res start.siteMap.value start.minT [] start := .untouched (by simp) rfl rfl
  have peak : Peak m c res start.siteMap.value start.minT (first :: rest) s :=
    postLoop_peak ligTime [] (first :: rest) started
  have posted : (postLigResult m c ligTime res utcOffset first rest siteMap).peakCurrent =
      ((first :: rest).getD s.minIdx first).value * s.minDis * s.f := rfl
  rw [posted]
  cases peak with
  | untouched skipped minT minDis =>
    constructor
    · rintro ⟨t, member, calibrated⟩
      exact absurd ⟨calibrated, early t member⟩ (skipped t member)
    · intro _
      rw [minDis, mul_zero, zero_mul]
  | taken t earliest minT minDis gain =>
    constructor
    · intro _
      refine ⟨s.minIdx, t, s.f, ⟨earliest.held, earliest.passes.1, fun j u listed calibrated => ?_⟩, gain, ?_⟩
      · exact earliest.least j u listed ⟨calibrated, early u (List.mem_of_getElem? listed)⟩
      · rw [List.getD_eq_getElem?_getD, earliest.held, Option.getD_some, minDis]
    · intro uncalibrated
      have member : t ∈ first :: rest := List.mem_of_getElem? earliest.held
      simp [uncalibrated t member] at gain

namespace Sample

/-- The C functions where stations stand right below the event, at a distance of 3. -/
def overhead : Cmath ℚ := ⟨fun _ => 0, fun _ => 1, fun _ => 0, fun x => if x = 9 then 3 else x, fun _ _ => 0⟩

def atOrigin : SiteMap := fun id => some ⟨id, "station", 0, 0, 0, "", true⟩

/-- Station 1 has no gain. -/
def postConfig : PostConfig := ⟨"TOA".toList, fun id => if id = 1 then none else some id⟩

def uncalibrated : TriggerInfo := ⟨.ofFields 24 4 20 20 5 59 0.7501, 1, 7, 0⟩

def calibrated : List TriggerInfo :=
  [⟨.ofFields 24 4 20 20 5 59 0.7503, 3, 5, 0⟩, ⟨.ofFields 24 4 20 20 5 59 0.7503, 2, 8, 0⟩]

def posted : LigData :=
  postLigResult overhead postConfig (.ofFields 24 4 20 20 5 59 0.75) ⟨0, 0, 3, 0, 0⟩ 28800 uncalibrated calibrated
    atOrigin

end Sample

/-- An earlier uncalibrated station, and two calibrated ones with the same time. -/
theorem peak_current_earliest_tie : Sample.posted.peakCurrent = 5 * 3 * 3 ∧ ∃ i t gain,
    Extremum.FirstLeastAmong (fun t => (Sample.postConfig.gainCoefficient t.stationID).isSome) (fun t => t.time.stamp)
      (Sample.uncalibrated :: Sample.calibrated) i t ∧
    Sample.postConfig.gainCoefficient t.stationID = some gain ∧
    Sample.posted.peakCurrent =
      t.value * siteDistance Sample.overhead ⟨0, 0, 3, 0, 0⟩ (Sample.atOrigin.value t.stationID) * gain := by
  refine ⟨by decide +kernel, ?_⟩
  have early : ∀ t ∈ Sample.uncalibrated :: Sample.calibrated,
      t.time.lt (Sample.uncalibrated.time.plus 28800 oneMinute) = true := by decide +kernel
  exact (peak_current_earliest Sample.overhead Sample.postConfig _ _ 28800 Sample.atOrigin early).1 (by decide +kernel)

end LigDataParsing
