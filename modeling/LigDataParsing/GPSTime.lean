import Mathlib.Data.Prod.Lex
import Mathlib.Data.Rat.Floor
import Mathlib.Tactic.Linarith
import Mathlib.Tactic.Ring
import Mathlib.Tactic.NormNum
import LigDataParsing.Gregorian
import LigDataParsing.KeyedSort

/-! The broken-down time and trigger records of `DataStruct.h`, their comparison
operators and the subtraction of two times. `double` is exact arithmetic on ℚ. -/
namespace LigDataParsing

structure GPSTime where
  isTimeVaild : Bool
  isTimeConfirm : Bool
  year : ℤ
  month : ℤ
  day : ℤ
  hour : ℤ
  min : ℤ
  sec : ℤ
  actPointSec : ℚ
  deriving DecidableEq

namespace GPSTime

def zero : GPSTime := ⟨false, false, 0, 0, 0, 0, 0, 0, 0⟩

/-- The constructor from fields, with its default flags. -/
def ofFields (year month day hour min sec : ℤ) (actPointSec : ℚ) : GPSTime :=
  ⟨true, true, year, month, day, hour, min, sec, actPointSec⟩

def eq (s1 s2 : GPSTime) : Bool :=
  s1.actPointSec = s2.actPointSec ∧ s1.year = s2.year ∧ s1.month = s2.month ∧ s1.day = s2.day ∧
    s1.hour = s2.hour ∧ s1.min = s2.min ∧ s1.sec = s2.sec

def ne (s1 s2 : GPSTime) : Bool :=
  ¬(s1.actPointSec = s2.actPointSec ∧ s1.year = s2.year ∧ s1.month = s2.month ∧ s1.day = s2.day ∧
    s1.hour = s2.hour ∧ s1.min = s2.min ∧ s1.sec = s2.sec)

def lt (s1 s2 : GPSTime) : Bool :=
  s1.year < s2.year ∨
  (s1.year = s2.year ∧ s1.month < s2.month) ∨
  (s1.year = s2.year ∧ s1.month = s2.month ∧ s1.day < s2.day) ∨
  (s1.year = s2.year ∧ s1.month = s2.month ∧ s1.day = s2.day ∧ s1.hour < s2.hour) ∨
  (s1.year = s2.year ∧ s1.month = s2.month ∧ s1.day = s2.day ∧ s1.hour = s2.hour ∧
    s1.min < s2.min) ∨
  (s1.year = s2.year ∧ s1.month = s2.month ∧ s1.day = s2.day ∧ s1.hour = s2.hour ∧
    s1.min = s2.min ∧ s1.sec < s2.sec) ∨
  (s1.year = s2.year ∧ s1.month = s2.month ∧ s1.day = s2.day ∧ s1.hour = s2.hour ∧
    s1.min = s2.min ∧ s1.sec = s2.sec ∧ s1.actPointSec < s2.actPointSec)

def le (s1 s2 : GPSTime) : Bool :=
  s1.eq s2 ∨ s1.year < s2.year ∨
  (s1.year = s2.year ∧ s1.month < s2.month) ∨
  (s1.year = s2.year ∧ s1.month = s2.month ∧ s1.day < s2.day) ∨
  (s1.year = s2.year ∧ s1.month = s2.month ∧ s1.day = s2.day ∧ s1.hour < s2.hour) ∨
  (s1.year = s2.year ∧ s1.month = s2.month ∧ s1.day = s2.day ∧ s1.hour = s2.hour ∧
    s1.min < s2.min) ∨
  (s1.year = s2.year ∧ s1.month = s2.month ∧ s1.day = s2.day ∧ s1.hour = s2.hour ∧
    s1.min = s2.min ∧ s1.sec < s2.sec) ∨
  (s1.year = s2.year ∧ s1.month = s2.month ∧ s1.day = s2.day ∧ s1.hour = s2.hour ∧
    s1.min = s2.min ∧ s1.sec = s2.sec ∧ s1.actPointSec < s2.actPointSec)

def gt (s1 s2 : GPSTime) : Bool :=
  s1.year > s2.year ∨
  (s1.year = s2.year ∧ s1.month > s2.month) ∨
  (s1.year = s2.year ∧ s1.month = s2.month ∧ s1.day > s2.day) ∨
  (s1.year = s2.year ∧ s1.month = s2.month ∧ s1.day = s2.day ∧ s1.hour > s2.hour) ∨
  (s1.year = s2.year ∧ s1.month = s2.month ∧ s1.day = s2.day ∧ s1.hour = s2.hour ∧
    s1.min > s2.min) ∨
  (s1.year = s2.year ∧ s1.month = s2.month ∧ s1.day = s2.day ∧ s1.hour = s2.hour ∧
    s1.min = s2.min ∧ s1.sec > s2.sec) ∨
  (s1.year = s2.year ∧ s1.month = s2.month ∧ s1.day = s2.day ∧ s1.hour = s2.hour ∧
    s1.min = s2.min ∧ s1.sec = s2.sec ∧ s1.actPointSec > s2.actPointSec)

def ge (s1 s2 : GPSTime) : Bool :=
  s1.eq s2 ∨ s1.year > s2.year ∨
  (s1.year = s2.year ∧ s1.month > s2.month) ∨
  (s1.year = s2.year ∧ s1.month = s2.month ∧ s1.day > s2.day) ∨
  (s1.year = s2.year ∧ s1.month = s2.month ∧ s1.day = s2.day ∧ s1.hour > s2.hour) ∨
  (s1.year = s2.year ∧ s1.month = s2.month ∧ s1.day = s2.day ∧ s1.hour = s2.hour ∧
    s1.min > s2.min) ∨
  (s1.year = s2.year ∧ s1.month = s2.month ∧ s1.day = s2.day ∧ s1.hour = s2.hour ∧
    s1.min = s2.min ∧ s1.sec > s2.sec) ∨
  (s1.year = s2.year ∧ s1.month = s2.month ∧ s1.day = s2.day ∧ s1.hour = s2.hour ∧
    s1.min = s2.min ∧ s1.sec = s2.sec ∧ s1.actPointSec > s2.actPointSec)

/-- `operator-`, in the source a `double` whose callers read it as seconds. -/
def sub (s1 s2 : GPSTime) : ℚ :=
  if s1.year = s2.year ∧ s1.month = s2.month ∧ s1.day = s2.day ∧ s1.hour = s2.hour ∧
      s1.min = s2.min ∧ s1.sec = s2.sec then
    s1.actPointSec - s2.actPointSec
  else
    (s1.year - s2.year : ℤ) * 1e10 + (s1.month - s2.month : ℤ) * 1e8 + (s1.day - s2.day : ℤ) * 1e6 +
      (s1.hour - s2.hour : ℤ) * 1e4 + (s1.min - s2.min : ℤ) * 1e2 + (s1.sec - s2.sec : ℤ) +
      s1.actPointSec - s2.actPointSec

/-- `operator-` with the sums that take in a fraction rounded by `double`; those of the
other fields are integers. -/
def subWith (double : ℚ → ℚ) (s1 s2 : GPSTime) : ℚ :=
  if s1.year = s2.year ∧ s1.month = s2.month ∧ s1.day = s2.day ∧ s1.hour = s2.hour ∧
      s1.min = s2.min ∧ s1.sec = s2.sec then
    double (s1.actPointSec - s2.actPointSec)
  else
    double (double ((s1.year - s2.year : ℤ) * 1e10 + (s1.month - s2.month : ℤ) * 1e8 +
      (s1.day - s2.day : ℤ) * 1e6 + (s1.hour - s2.hour : ℤ) * 1e4 + (s1.min - s2.min : ℤ) * 1e2 +
      (s1.sec - s2.sec : ℤ) + s1.actPointSec) - s2.actPointSec)

@[simp] theorem subWith_id (s1 s2 : GPSTime) : s1.subWith id s2 = s1.sub s2 := rfl

/-- The fields in the order the comparisons rank them. -/
abbrev Stamp := ℤ ×ₗ ℤ ×ₗ ℤ ×ₗ ℤ ×ₗ ℤ ×ₗ ℤ ×ₗ ℚ

def stamp (t : GPSTime) : Stamp :=
  toLex (t.year, toLex (t.month, toLex (t.day, toLex (t.hour, toLex (t.min,
    toLex (t.sec, t.actPointSec))))))

theorem stamp_lt {a b : GPSTime} : a.stamp < b.stamp ↔
    a.year < b.year ∨ a.year = b.year ∧ (a.month < b.month ∨ a.month = b.month ∧
      (a.day < b.day ∨ a.day = b.day ∧ (a.hour < b.hour ∨ a.hour = b.hour ∧
        (a.min < b.min ∨ a.min = b.min ∧ (a.sec < b.sec ∨ a.sec = b.sec ∧
          a.actPointSec < b.actPointSec))))) := by
  simp only [stamp, Prod.Lex.toLex_lt_toLex]

theorem stamp_eq {a b : GPSTime} : a.stamp = b.stamp ↔
    a.year = b.year ∧ a.month = b.month ∧ a.day = b.day ∧ a.hour = b.hour ∧ a.min = b.min ∧
      a.sec = b.sec ∧ a.actPointSec = b.actPointSec := by
  simp only [stamp, EmbeddingLike.apply_eq_iff_eq, Prod.mk.injEq]

@[simp] theorem lt_iff {a b : GPSTime} : a.lt b = true ↔ a.stamp < b.stamp := by
  rw [stamp_lt, lt, decide_eq_true_eq]
  tauto

@[simp] theorem eq_iff {a b : GPSTime} : a.eq b = true ↔ a.stamp = b.stamp := by
  rw [stamp_eq, eq, decide_eq_true_eq]
  tauto

@[simp] theorem ne_iff {a b : GPSTime} : a.ne b = true ↔ a.stamp ≠ b.stamp := by
  rw [Ne, stamp_eq, ne, decide_eq_true_eq]
  tauto

@[simp] theorem gt_iff {a b : GPSTime} : a.gt b = true ↔ b.stamp < a.stamp := by
  rw [stamp_lt, gt, decide_eq_true_eq]
  grind

@[simp] theorem le_iff {a b : GPSTime} : a.le b = true ↔ a.stamp ≤ b.stamp := by
  have split : a.le b = (a.eq b || a.lt b) := by simp only [le, lt, Bool.decide_or, Bool.decide_eq_true]
  rw [split, Bool.or_eq_true, eq_iff, lt_iff, or_comm, le_iff_lt_or_eq]

@[simp] theorem ge_iff {a b : GPSTime} : a.ge b = true ↔ b.stamp ≤ a.stamp := by
  have split : a.ge b = (a.eq b || a.gt b) := by simp only [ge, gt, Bool.decide_or, Bool.decide_eq_true]
  rw [split, Bool.or_eq_true, eq_iff, gt_iff, or_comm, le_iff_lt_or_eq, eq_comm]

/-- The calendar date and time of day the fields name; years count from 2000. -/
def civil (t : GPSTime) : Gregorian.DateTime := ⟨t.year + 2000, t.month, t.day, t.hour, t.min, t.sec⟩

/-- A well-formed time: existing calendar fields and a fraction of a second. -/
structure Valid (t : GPSTime) : Prop where
  calendar : t.civil.Valid
  fraction : 0 ≤ t.actPointSec ∧ t.actPointSec < 1

instance (t : GPSTime) : Decidable t.Valid :=
  decidable_of_iff (t.civil.Valid ∧ 0 ≤ t.actPointSec ∧ t.actPointSec < 1)
    ⟨fun ⟨a, b⟩ => ⟨a, b⟩, fun h => ⟨h.1, h.2⟩⟩

/-- Seconds since 1970 in local time. -/
def instant (t : GPSTime) : ℚ := t.civil.toSeconds + t.actPointSec

theorem instant_lt_iff {a b : GPSTime} (va : a.Valid) (vb : b.Valid) :
    a.instant < b.instant ↔ a.stamp < b.stamp := by
  have fields := Gregorian.DateTime.toSeconds_lt_iff va.calendar vb.calendar
  have same : a.civil.toSeconds = b.civil.toSeconds ↔ a.civil = b.civil :=
    ⟨Gregorian.DateTime.toSeconds_injective va.calendar vb.calendar, fun h => by rw [h]⟩
  have split : a.instant < b.instant ↔ a.civil.toSeconds < b.civil.toSeconds ∨
      a.civil.toSeconds = b.civil.toSeconds ∧ a.actPointSec < b.actPointSec := by
    have fa := va.fraction
    have fb := vb.fraction
    unfold instant
    constructor
    · intro less
      rcases lt_trichotomy a.civil.toSeconds b.civil.toSeconds with lt | eq | gt
      · exact .inl lt
      · rw [eq] at less
        exact .inr ⟨eq, by linarith⟩
      · have : (b.civil.toSeconds : ℚ) + 1 ≤ a.civil.toSeconds := by exact_mod_cast gt
        linarith
    · rintro (lt | ⟨eq, less⟩)
      · have : (a.civil.toSeconds : ℚ) + 1 ≤ b.civil.toSeconds := by exact_mod_cast lt
        linarith
      · rw [eq]
        linarith
  rw [split, fields, same, stamp_lt]
  simp only [Gregorian.DateTime.Before, civil, Gregorian.DateTime.mk.injEq, add_left_inj,
    add_lt_add_iff_right]
  grind

theorem instant_le_iff {a b : GPSTime} (va : a.Valid) (vb : b.Valid) :
    a.instant ≤ b.instant ↔ a.stamp ≤ b.stamp := by
  rw [← not_lt, ← not_lt, instant_lt_iff vb va]

/-! Subtraction reads the fields as digits of one decimal number. -/

def minuteCode (t : GPSTime) : ℤ :=
  t.year * 10 ^ 10 + t.month * 10 ^ 8 + t.day * 10 ^ 6 + t.hour * 10 ^ 4 + t.min * 10 ^ 2

theorem sub_def (a b : GPSTime) : a.sub b =
    ((a.minuteCode - b.minuteCode : ℤ) : ℚ) + ((a.sec + a.actPointSec) - (b.sec + b.actPointSec)) := by
  unfold sub minuteCode
  split_ifs with same
  · obtain ⟨year, month, day, hour, min, sec⟩ := same
    rw [year, month, day, hour, min, sec]
    push_cast
    ring
  · push_cast
    ring

theorem sub_self (a : GPSTime) : a.sub a = 0 := by
  rw [sub_def]
  simp

theorem sub_neg (a b : GPSTime) : a.sub b = -(b.sub a) := by
  rw [sub_def, sub_def]
  push_cast
  ring

theorem sub_add_sub (a b c : GPSTime) : a.sub b + b.sub c = a.sub c := by
  rw [sub_def, sub_def, sub_def]
  push_cast
  ring

def SameMinute (a b : GPSTime) : Prop :=
  a.year = b.year ∧ a.month = b.month ∧ a.day = b.day ∧ a.hour = b.hour ∧ a.min = b.min

instance (a b : GPSTime) : Decidable (SameMinute a b) := by unfold SameMinute; infer_instance

def minutes (t : GPSTime) : ℤ := 1440 * t.civil.dayNumber + 60 * t.hour + t.min

theorem instant_eq (t : GPSTime) : t.instant = 60 * t.minutes + (t.sec + t.actPointSec) := by
  have : t.civil.toSeconds = 60 * t.minutes + t.sec := by
    simp only [Gregorian.DateTime.toSeconds, Gregorian.DateTime.secondOfDay, minutes, civil]
    ring
  rw [instant, this]
  push_cast
  ring

theorem SameMinute.minutes {a b : GPSTime} (same : SameMinute a b) : a.minutes = b.minutes := by
  obtain ⟨year, month, day, hour, min⟩ := same
  simp [GPSTime.minutes, Gregorian.DateTime.dayNumber, Gregorian.DateTime.dayOfYear, civil, year, month,
    day, hour, min]

theorem SameMinute.minuteCode {a b : GPSTime} (same : SameMinute a b) :
    a.minuteCode = b.minuteCode := by
  obtain ⟨year, month, day, hour, min⟩ := same
  simp [GPSTime.minuteCode, year, month, day, hour, min]

/-- Within one minute the digit difference is the elapsed time. -/
theorem SameMinute.sub_eq {a b : GPSTime} (same : SameMinute a b) : a.sub b = a.instant - b.instant := by
  rw [sub_def, same.minuteCode, instant_eq, instant_eq, same.minutes]
  push_cast
  ring

def MinuteBefore (a b : GPSTime) : Prop :=
  a.year < b.year ∨ a.year = b.year ∧ (a.month < b.month ∨ a.month = b.month ∧
    (a.day < b.day ∨ a.day = b.day ∧ (a.hour < b.hour ∨ a.hour = b.hour ∧ a.min < b.min)))

theorem minute_trichotomy (a b : GPSTime) : MinuteBefore a b ∨ SameMinute a b ∨ MinuteBefore b a := by
  unfold MinuteBefore SameMinute
  omega

theorem MinuteBefore.stamp_lt {a b : GPSTime} (before : MinuteBefore a b) : a.stamp < b.stamp := by
  rw [GPSTime.stamp_lt]
  unfold MinuteBefore at before
  tauto

/-- Each carry out of the minutes makes the digit code run ahead of the clock, by 40
seconds for a minute within the hour and by more for every larger unit. -/
theorem MinuteBefore.excess {a b : GPSTime} (va : a.Valid) (vb : b.Valid) (before : MinuteBefore a b) :
    60 * (b.minutes - a.minutes) + 40 ≤ b.minuteCode - a.minuteCode := by
  obtain ⟨am, ad, ah, amin, _⟩ := va.calendar
  obtain ⟨bm, bd, bh, bmin, _⟩ := vb.calendar
  have ya := va.calendar.dayOfYear_bounds.1
  have yb := vb.calendar.dayOfYear_lt
  have da := Gregorian.daysInMonth_bounds a.civil.year a.civil.month
  have db := Gregorian.daysInMonth_bounds b.civil.year b.civil.month
  simp only [civil] at am ad ah amin bm bd bh bmin da db
  have yearB : b.civil.year = b.year + 2000 := rfl
  have yearA : a.civil.year = a.year + 2000 := rfl
  simp only [GPSTime.minutes, GPSTime.minuteCode, Gregorian.DateTime.dayNumber]
  rcases before with year | ⟨year, month | ⟨month, time⟩⟩
  · have spread : Gregorian.daysBeforeYear b.civil.year - Gregorian.daysBeforeYear a.civil.year ≤
        366 * (b.year - a.year) := by
      unfold Gregorian.daysBeforeYear
      omega
    omega
  · have sameYear : a.civil.year = b.civil.year := by omega
    rw [sameYear]
    omega
  · have sameMonth : b.civil.dayOfYear - a.civil.dayOfYear = b.day - a.day := by
      simp only [Gregorian.DateTime.dayOfYear, civil, year, month]
      ring
    have sameYear : a.civil.year = b.civil.year := by omega
    rw [sameYear]
    omega

/-- Across minutes the digit difference exceeds the elapsed time by at least 40 s. -/
theorem MinuteBefore.sub_ge {a b : GPSTime} (va : a.Valid) (vb : b.Valid) (before : MinuteBefore a b) :
    b.instant - a.instant + 40 ≤ b.sub a := by
  have excess : (60 * (b.minutes - a.minutes) + 40 : ℚ) ≤ ((b.minuteCode - a.minuteCode : ℤ) : ℚ) := by
    exact_mod_cast before.excess va vb
  rw [sub_def, instant_eq, instant_eq]
  linarith

/-- Towards a later time the digit difference never falls short of the elapsed time. -/
theorem elapsed_le_sub {a b : GPSTime} (va : a.Valid) (vb : b.Valid) (ordered : a.stamp ≤ b.stamp) :
    b.instant - a.instant ≤ b.sub a := by
  rcases minute_trichotomy a b with before | same | after
  · have := before.sub_ge va vb
    linarith
  · have swapped : SameMinute b a := by
      obtain ⟨year, month, day, hour, min⟩ := same
      exact ⟨year.symm, month.symm, day.symm, hour.symm, min.symm⟩
    exact swapped.sub_eq.ge
  · exact absurd after.stamp_lt (not_lt.mpr ordered)

theorem sub_nonneg {a b : GPSTime} (va : a.Valid) (vb : b.Valid) (ordered : a.stamp ≤ b.stamp) :
    0 ≤ b.sub a := by
  have elapsed := elapsed_le_sub va vb ordered
  have := (instant_le_iff va vb).mpr ordered
  linarith

/-- Against a fixed time the digit difference falls along the order. -/
theorem sub_le_sub {a b : GPSTime} (va : a.Valid) (vb : b.Valid) (ordered : a.stamp ≤ b.stamp)
    (base : GPSTime) : base.sub b ≤ base.sub a := by
  have step := sub_nonneg va vb ordered
  have sum := sub_add_sub base b a
  linarith

/-- A digit difference below 40 s in absolute value stays within one minute. -/
theorem sameMinute_of_abs_sub_lt {a b : GPSTime} (va : a.Valid) (vb : b.Valid) (close : |a.sub b| < 40) :
    SameMinute a b := by
  obtain ⟨lower, upper⟩ := abs_lt.mp close
  rcases minute_trichotomy a b with before | same | after
  · have gap := before.sub_ge va vb
    have := (instant_lt_iff va vb).mpr before.stamp_lt
    rw [sub_neg] at gap
    linarith
  · exact same
  · have gap := after.sub_ge vb va
    have := (instant_lt_iff vb va).mpr after.stamp_lt
    linarith

end GPSTime

structure TriggerInfo where
  time : GPSTime
  stationID : ℤ
  value : ℚ
  /-- Position in `allTriggers`, 0 until the scan sets it. -/
  trigIdx : ℕ := 0
  deriving DecidableEq

namespace TriggerInfo

def lt (s1 s2 : TriggerInfo) : Bool :=
  s1.time.lt s2.time ∨ (s1.time.eq s2.time ∧ s1.stationID < s2.stationID)

def eq (s1 s2 : TriggerInfo) : Bool := s1.time.eq s2.time ∧ s1.stationID = s2.stationID

/-- What the comparisons look at: the time, then the station. -/
abbrev Key := GPSTime.Stamp ×ₗ ℤ

def key (t : TriggerInfo) : Key := toLex (t.time.stamp, t.stationID)

@[simp] theorem lt_iff (a b : TriggerInfo) : a.lt b = true ↔ a.key < b.key := by
  simp [lt, key, Prod.Lex.toLex_lt_toLex]

@[simp] theorem eq_iff (a b : TriggerInfo) : a.eq b = true ↔ a.key = b.key := by
  simp [eq, key]

theorem stamp_le_of_key_le {a b : TriggerInfo} (ordered : a.key ≤ b.key) :
    a.time.stamp ≤ b.time.stamp := by
  rcases Prod.Lex.toLex_le_toLex.mp ordered with lt | ⟨eq, _⟩
  · exact lt.le
  · exact eq.le

end TriggerInfo

/-- A trigger queue in the order of `TriggerInfo`'s `operator<`, without repeated keys. -/
abbrev Ascending (queue : List TriggerInfo) : Prop := KeyedSort.Ascending TriggerInfo.key queue

end LigDataParsing
