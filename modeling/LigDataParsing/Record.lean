import LigDataParsing.TimeString
import LigDataParsing.PostLigResult

/-! Texts of fields between separators. What is written with a separator after each field
is split into the fields again, as long as no field holds one. -/
namespace Separated

variable {α : Type*} {separator : α} {fields : List (List α)}

/-- Each field and a separator after it, as a loop that appends both leaves them. -/
def terminated (separator : α) (fields : List (List α)) : List α := fields.flatMap fun field => field ++ [separator]

@[simp] theorem terminated_nil : terminated separator [] = [] := rfl

@[simp] theorem terminated_cons (field : List α) (fields : List (List α)) :
    terminated separator (field :: fields) = field ++ [separator] ++ terminated separator fields := rfl

/-- The last separator stands before an empty field. -/
theorem terminated_eq_intercalate (separator : α) (fields : List (List α)) :
    terminated separator fields = [separator].intercalate (fields ++ [[]]) := by
  induction fields with
  | nil => rfl
  | cons field fields ih =>
    rw [terminated_cons, ih, List.cons_append, List.intercalate_cons_of_ne_nil (by simp)]

/-- Without the last separator the others stand between the fields. -/
theorem dropLast_terminated (nonempty : fields ≠ []) :
    (terminated separator fields).dropLast = [separator].intercalate fields := by
  induction fields with
  | nil => contradiction
  | cons field fields ih =>
    cases fields with
    | nil => simp
    | cons next fields =>
      have more : terminated separator (next :: fields) ≠ [] := by simp
      rw [terminated_cons, List.dropLast_append_of_ne_nil more, ih (List.cons_ne_nil next fields),
        List.intercalate_cons_of_ne_nil (List.cons_ne_nil next fields)]

theorem not_mem_dropLast {a : α} (other : a ≠ separator) (apart : ∀ field ∈ fields, a ∉ field) :
    a ∉ (terminated separator fields).dropLast := by
  intro member
  obtain ⟨field, inside, here⟩ := List.mem_flatMap.mp (List.dropLast_subset _ member)
  rcases List.mem_append.mp here with inField | last
  · exact apart field inside inField
  · exact other (List.mem_singleton.mp last)

variable [BEq α] [LawfulBEq α]

theorem splitOn_terminated (clean : ∀ field ∈ fields, separator ∉ field) :
    (terminated separator fields).splitOn separator = fields ++ [[]] := by
  rw [terminated_eq_intercalate, List.splitOn_intercalate separator]
  · simpa [or_imp, forall_and] using clean
  · simp

theorem splitOn_dropLast (clean : ∀ field ∈ fields, separator ∉ field) (nonempty : fields ≠ []) :
    (terminated separator fields).dropLast.splitOn separator = fields := by
  rw [dropLast_terminated nonempty, List.splitOn_intercalate separator clean nonempty]

end Separated

/-! Reading a posted record again: the lists of stations and of names, the time of the
event, and from the residuals the arrivals the event was located from. -/
namespace LigDataParsing

open Decimal Separated

namespace LigData

def stations (d : LigData) : Option (List ℤ) := (d.idOfSta.splitOn '+').mapM stoi

def names (d : LigData) : List (List Char) := d.nameOfSta.splitOn '+'

def eventTime (d : LigData) : Option GPSTime := do
  let year ← stoi (substr d.datetime 2 2)
  let month ← stoi (substr d.datetime 5 2)
  let day ← stoi (substr d.datetime 8 2)
  let hour ← stoi (substr d.datetime 11 2)
  let min ← stoi (substr d.datetime 14 2)
  let sec ← stoi (substr d.datetime 17 2)
  return GPSTime.ofFields year month day hour min sec (d.nano / 1000000000)

/-- How long after the event the station of an entry was reached, from the residual and
the position of the event. -/
def travelTime (m : Cmath ℚ) (d : LigData) (site : StationInfo) (info : StaInfo) : ℚ :=
  (info.residual + stadistance3D m d.latitude d.longitude d.altitude site.latitude site.longitude site.altitude) /
    Params.cVeo

end LigData

section Texts

variable (m : Cmath ℚ) (c : PostConfig) (ligTime : GPSTime) (res : LocSta)

def staInfo (site : ℤ → StationInfo) (iter : TriggerInfo) : StaInfo :=
  ⟨iter.stationID, (site iter.stationID).name.toList, iter.value, [],
    iter.time.sub ligTime * Params.cVeo - siteDistance m res (site iter.stationID)⟩

theorem postStep_texts (i : ℕ) (iter : TriggerInfo) (s : PostState) :
    (postStep m c ligTime res i iter s).totalIDs = s.totalIDs ++ (toString iter.stationID).toList ++ ['+'] ∧
    (postStep m c ligTime res i iter s).totalNames =
      s.totalNames ++ (s.siteMap.value iter.stationID).name.toList ++ ['+'] ∧
    (postStep m c ligTime res i iter s).infoOfSta =
      s.infoOfSta ++ [staInfo m ligTime res s.siteMap.value iter] := by
  unfold postStep
  cases c.gainCoefficient iter.stationID with
  | none => exact ⟨rfl, rfl, rfl⟩
  | some gain =>
    dsimp only
    split_ifs
    · exact ⟨rfl, rfl, rfl⟩
    · exact ⟨rfl, rfl, rfl⟩

/-- The loop writes each station, its name and its entry once, in the order of the
combination. -/
theorem postLoop_texts (i : ℕ) (comb : List TriggerInfo) (s : PostState) :
    (postLoop m c ligTime res i comb s).totalIDs =
      s.totalIDs ++ terminated '+' (comb.map fun t => (toString t.stationID).toList) ∧
    (postLoop m c ligTime res i comb s).totalNames =
      s.totalNames ++ terminated '+' (comb.map fun t => (s.siteMap.value t.stationID).name.toList) ∧
    (postLoop m c ligTime res i comb s).infoOfSta =
      s.infoOfSta ++ comb.map (staInfo m ligTime res s.siteMap.value) := by
  induction comb generalizing i s with
  | nil => simp [postLoop]
  | cons iter comb ih =>
    obtain ⟨ids, names, infos⟩ := ih (i + 1) (postStep m c ligTime res i iter s)
    obtain ⟨id, name, info⟩ := postStep_texts m c ligTime res i iter s
    rw [postStep_siteMap] at names infos
    rw [postLoop, ids, names, infos, id, name, info]
    simp

end Texts

section Digits

variable {t : GPSTime}

theorem stoi_column {n : ℤ} (bounds : 0 ≤ n ∧ n < 10 ^ 2) : stoi (column 2 n.toNat) = some n := by
  have fits : n.toNat < 10 ^ 2 := by omega
  have nonempty : column 2 n.toNat ≠ [] := List.ne_nil_of_length_pos (by simp)
  have natural : ((n.toNat : ℕ) : ℤ) = n := by omega
  rw [stoi, leading_of_digits nonempty (column_isDigit 2 n.toNat), value_column fits, natural,
    Option.filter_some_pos]
  exact decide_eq_true ⟨by omega, by omega⟩

theorem stoi_toString {n : ℤ} (fits : GPSTime.FitsInt n) : stoi (toString n).toList = some n := by
  rw [stoi, leading_toString, Option.filter_some_pos]
  exact decide_eq_true fits

/-- `datetime` in columns; its first two digits are always written as 20. -/
theorem datetime_eq (within : t.InCentury) : ['2', '0'] ++ t.str.drop 2 =
    ['2', '0'] ++ column 2 t.year.toNat ++ '-' :: column 2 t.month.toNat ++ '-' :: column 2 t.day.toNat ++
      ' ' :: column 2 t.hour.toNat ++ ':' :: column 2 t.min.toNat ++ ':' :: column 2 t.sec.toNat := by
  obtain ⟨year, month, day, hour, min, sec, -⟩ := within.inColumns
  have two {n : ℤ} (bounds : 0 ≤ n ∧ n < 10 ^ 2) : padded 2 n = column 2 n.toNat :=
    padded_eq_column (by norm_num) bounds.1 bounds.2
  have four : padded 4 t.year = column 4 t.year.toNat := padded_eq_column (by norm_num) year.1 (by omega)
  simp [GPSTime.str, two month, two day, two hour, two min, two sec, four, column]

theorem eventTime_eq {d : LigData} (within : t.InCentury) (datetime : d.datetime = ['2', '0'] ++ t.str.drop 2)
    (nano : d.nano = t.actPointSec * 1000000000) :
    d.eventTime = some (GPSTime.ofFields t.year t.month t.day t.hour t.min t.sec t.actPointSec) := by
  obtain ⟨year, month, day, hour, min, sec, -⟩ := within.inColumns
  have fraction : d.nano / 1000000000 = t.actPointSec := by
    rw [nano]
    ring
  have at2 : stoi (substr d.datetime 2 2) = some t.year := by
    rw [datetime, datetime_eq within]
    exact stoi_column year
  have at5 : stoi (substr d.datetime 5 2) = some t.month := by
    rw [datetime, datetime_eq within]
    exact stoi_column month
  have at8 : stoi (substr d.datetime 8 2) = some t.day := by
    rw [datetime, datetime_eq within]
    exact stoi_column day
  have at11 : stoi (substr d.datetime 11 2) = some t.hour := by
    rw [datetime, datetime_eq within]
    exact stoi_column hour
  have at14 : stoi (substr d.datetime 14 2) = some t.min := by
    rw [datetime, datetime_eq within]
    exact stoi_column min
  have at17 : stoi (substr d.datetime 17 2) = some t.sec := by
    rw [datetime, datetime_eq within]
    exact stoi_column sec
  simp [LigData.eventTime, at2, at5, at8, at11, at14, at17, fraction]

end Digits

theorem mapM_stoi (ids : List ℤ) (fits : ∀ id ∈ ids, GPSTime.FitsInt id) :
    (ids.map fun id => (toString id).toList).mapM stoi = some ids := by
  induction ids with
  | nil => rfl
  | cons id ids ih =>
    obtain ⟨here, later⟩ := List.forall_mem_cons.mp fits
    rw [List.map_cons, List.mapM_cons, stoi_toString here, ih later]
    rfl

section Posted

variable (m : Cmath ℚ) (c : PostConfig) (ligTime : GPSTime) (res : LocSta) (utcOffset : ℤ) {first : TriggerInfo}
  {rest : List TriggerInfo} (siteMap : SiteMap)

theorem postLigResult_texts (first : TriggerInfo) (rest : List TriggerInfo) :
    (postLigResult m c ligTime res utcOffset first rest siteMap).idOfSta =
      (terminated '+' ((first :: rest).map fun t => (toString t.stationID).toList)).dropLast ∧
    (postLigResult m c ligTime res utcOffset first rest siteMap).nameOfSta =
      (terminated '+' ((first :: rest).map fun t => (siteMap.value t.stationID).name.toList)).dropLast ∧
    (postLigResult m c ligTime res utcOffset first rest siteMap).infoOfSta =
      (first :: rest).map (staInfo m ligTime res siteMap.value) := by
  obtain ⟨ids, names, infos⟩ := postLoop_texts m c ligTime res 0 (first :: rest)
    ⟨[], [], first.time.plus utcOffset oneMinute, 0, 0, 0, [], siteMap⟩
  exact ⟨congrArg List.dropLast ids, congrArg List.dropLast names, infos⟩

theorem postLigResult_stations (fits : ∀ t ∈ first :: rest, GPSTime.FitsInt t.stationID) :
    (postLigResult m c ligTime res utcOffset first rest siteMap).stations =
      some ((first :: rest).map TriggerInfo.stationID) := by
  have clean : ∀ field ∈ (first :: rest).map (fun t => (toString t.stationID).toList), '+' ∉ field := by
    intro field member
    obtain ⟨t, -, rfl⟩ := List.mem_map.mp member
    exact toString_clean (by decide) (by decide) t.stationID
  have read := mapM_stoi ((first :: rest).map TriggerInfo.stationID) (by simpa using fits)
  rw [LigData.stations, (postLigResult_texts m c ligTime res utcOffset siteMap first rest).1,
    splitOn_dropLast clean (by simp)]
  rwa [List.map_map] at read

theorem postLigResult_names (plain : ∀ t ∈ first :: rest, '+' ∉ (siteMap.value t.stationID).name.toList) :
    (postLigResult m c ligTime res utcOffset first rest siteMap).names =
      (first :: rest).map fun t => (siteMap.value t.stationID).name.toList := by
  rw [LigData.names, (postLigResult_texts m c ligTime res utcOffset siteMap first rest).2.1,
    splitOn_dropLast (by simpa using plain) (by simp)]

end Posted

/-- A record of an event of this century loses nothing of it: it is read back as the
stations of the combination in their order, their names where none holds a `+`, the values,
the time of the event and, from the positions of the stations, each station's arrival. -/
theorem record_round_trip (m : Cmath ℚ) (c : PostConfig) {ligTime : GPSTime} (res : LocSta) (utcOffset : ℤ)
    {first : TriggerInfo} {rest : List TriggerInfo} {siteMap : SiteMap} (within : ligTime.InCentury)
    (fits : ∀ t ∈ first :: rest, GPSTime.FitsInt t.stationID)
    (plain : ∀ t ∈ first :: rest, '+' ∉ (siteMap.value t.stationID).name.toList) :
    let d := postLigResult m c ligTime res utcOffset first rest siteMap
    d.stations = some ((first :: rest).map TriggerInfo.stationID) ∧
    d.names = (first :: rest).map (fun t => (siteMap.value t.stationID).name.toList) ∧
    d.infoOfSta.map (fun info => (info.id, info.name, info.value)) =
      (first :: rest).map (fun t => (t.stationID, (siteMap.value t.stationID).name.toList, t.value)) ∧
    d.numOfSta = d.infoOfSta.length ∧
    (∃ t, d.eventTime = some t ∧ t.stamp = ligTime.stamp) ∧
    d.infoOfSta.map (fun info => d.travelTime m (siteMap.value info.id) info) =
      (first :: rest).map (fun t => t.time.sub ligTime) := by
  intro d
  have infoOfSta : d.infoOfSta = (first :: rest).map (staInfo m ligTime res siteMap.value) :=
    (postLigResult_texts m c ligTime res utcOffset siteMap first rest).2.2
  refine ⟨postLigResult_stations m c ligTime res utcOffset siteMap fits,
    postLigResult_names m c ligTime res utcOffset siteMap plain, ?_, ?_, ⟨_, eventTime_eq within rfl rfl, rfl⟩, ?_⟩
  · rw [infoOfSta, List.map_map]
    rfl
  · rw [infoOfSta, List.length_map]
    rfl
  · rw [infoOfSta, List.map_map]
    refine List.map_congr_left fun t _ => ?_
    have speed : Params.cVeo ≠ 0 := by norm_num [Params.cVeo]
    have travel : d.travelTime m (siteMap.value t.stationID) (staInfo m ligTime res siteMap.value t) =
        (t.time.sub ligTime * Params.cVeo - siteDistance m res (siteMap.value t.stationID) +
          siteDistance m res (siteMap.value t.stationID)) / Params.cVeo := rfl
    rw [Function.comp_apply]
    exact travel.trans (by rw [sub_add_cancel, mul_div_cancel_right₀ _ speed])

theorem record_round_trip_three : Sample.posted.stations = some [1, 3, 2] ∧
    Sample.posted.names = ["station".toList, "station".toList, "station".toList] ∧
    ∃ t, Sample.posted.eventTime = some t ∧ t.stamp = (GPSTime.ofFields 24 4 20 20 5 59 0.75).stamp := by
  obtain ⟨stations, names, -, -, time, -⟩ := record_round_trip Sample.overhead Sample.postConfig ⟨0, 0, 3, 0, 0⟩ 28800
    (show (GPSTime.ofFields 24 4 20 20 5 59 0.75).InCentury by decide +kernel)
    (show ∀ t ∈ Sample.uncalibrated :: Sample.calibrated, GPSTime.FitsInt t.stationID by decide +kernel)
    (show ∀ t ∈ Sample.uncalibrated :: Sample.calibrated,
      '+' ∉ (Sample.atOrigin.value t.stationID).name.toList by decide +kernel)
  exact ⟨stations, names, time⟩

end LigDataParsing
