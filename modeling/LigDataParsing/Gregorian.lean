import Mathlib.Tactic.Linarith
import Mathlib.Tactic.IntervalCases
import Mathlib.Data.Int.Order.Basic

/-! The proleptic Gregorian calendar on broken-down dates. Day and second numbers
are integers counted from 1970-01-01T00:00:00; `ofSeconds` is the inverse that a
C library's `localtime` computes, and both directions agree with field order. -/
namespace Gregorian

def isLeap (year : ℤ) : Bool :=
  year % 4 = 0 ∧ (year % 100 ≠ 0 ∨ year % 400 = 0)

def daysInMonth (year month : ℤ) : ℤ :=
  if month = 2 then (if isLeap year then 29 else 28)
  else if month = 4 ∨ month = 6 ∨ month = 9 ∨ month = 11 then 30 else 31

/-- Days before 1 January of `year`, counted from 1 January of year 1. -/
def daysBeforeYear (year : ℤ) : ℤ :=
  365 * (year - 1) + (year - 1) / 4 - (year - 1) / 100 + (year - 1) / 400

/-- Days of `year` before the first of `month`; the quotient spreads 30 and 31 day
months and the correction restores the short February. -/
def daysBeforeMonth (year month : ℤ) : ℤ :=
  (367 * month - 362) / 12 - (if month ≤ 2 then 0 else if isLeap year then 1 else 2)

structure DateTime where
  year : ℤ
  month : ℤ
  day : ℤ
  hour : ℤ
  minute : ℤ
  second : ℤ
  deriving DecidableEq, Repr

namespace DateTime

structure Valid (t : DateTime) : Prop where
  month : 1 ≤ t.month ∧ t.month ≤ 12
  day : 1 ≤ t.day ∧ t.day ≤ daysInMonth t.year t.month
  hour : 0 ≤ t.hour ∧ t.hour < 24
  minute : 0 ≤ t.minute ∧ t.minute < 60
  second : 0 ≤ t.second ∧ t.second < 60

instance (t : DateTime) : Decidable t.Valid :=
  decidable_of_iff
    ((1 ≤ t.month ∧ t.month ≤ 12) ∧ (1 ≤ t.day ∧ t.day ≤ daysInMonth t.year t.month) ∧
      (0 ≤ t.hour ∧ t.hour < 24) ∧ (0 ≤ t.minute ∧ t.minute < 60) ∧ 0 ≤ t.second ∧ t.second < 60)
    ⟨fun ⟨a, b, c, d, e⟩ => ⟨a, b, c, d, e⟩, fun h => ⟨h.1, h.2, h.3, h.4, h.5⟩⟩

def dayOfYear (t : DateTime) : ℤ := daysBeforeMonth t.year t.month + (t.day - 1)

/-- Day number of the date part; 719162 days separate 0001-01-01 from 1970-01-01. -/
def dayNumber (t : DateTime) : ℤ := daysBeforeYear t.year + t.dayOfYear - 719162

def secondOfDay (t : DateTime) : ℤ := 3600 * t.hour + 60 * t.minute + t.second

def toSeconds (t : DateTime) : ℤ := 86400 * t.dayNumber + t.secondOfDay

end DateTime

/-- The year containing a day counted from 0001-01-01: the mean year length gives
it up to one, and the two neighbours are tested. -/
def yearOfDay (day : ℤ) : ℤ :=
  let year := 400 * day / 146097 + 1
  if day < daysBeforeYear year then year - 1
  else if daysBeforeYear (year + 1) ≤ day then year + 1 else year

def monthOfDay (year day : ℤ) : ℤ :=
  let leap : ℤ := if isLeap year then 1 else 0
  (12 * (day + (if day < 59 + leap then 0 else 2 - leap)) + 373) / 367

def ofSeconds (seconds : ℤ) : DateTime :=
  let days := seconds / 86400 + 719162
  let time := seconds % 86400
  let year := yearOfDay days
  let dayOfYear := days - daysBeforeYear year
  let month := monthOfDay year dayOfYear
  ⟨year, month, dayOfYear - daysBeforeMonth year month + 1, time / 3600, time % 3600 / 60, time % 60⟩

theorem daysBeforeYear_succ (year : ℤ) :
    daysBeforeYear (year + 1) = daysBeforeYear year + (if isLeap year then 366 else 365) := by
  by_cases leap : isLeap year
  · simp only [leap, ite_true]
    simp only [isLeap, decide_eq_true_eq] at leap
    unfold daysBeforeYear; omega
  · simp only [leap]
    simp only [isLeap, decide_eq_true_eq] at leap
    unfold daysBeforeYear; simp; omega

theorem yearOfDay_bounds (day : ℤ) :
    daysBeforeYear (yearOfDay day) ≤ day ∧ day < daysBeforeYear (yearOfDay day + 1) := by
  have below : daysBeforeYear (400 * day / 146097 + 1 - 1) ≤ day := by
    unfold daysBeforeYear; omega
  have above : day < daysBeforeYear (400 * day / 146097 + 1 + 1 + 1) := by
    unfold daysBeforeYear; omega
  simp only [yearOfDay]
  split_ifs with early late
  · exact ⟨below, by simpa using early⟩
  · exact ⟨late, above⟩
  · exact ⟨by omega, by omega⟩

theorem monthOfDay_bounds (year day : ℤ) (lower : 0 ≤ day)
    (upper : day < if isLeap year then 366 else 365) :
    (1 ≤ monthOfDay year day ∧ monthOfDay year day ≤ 12) ∧
    daysBeforeMonth year (monthOfDay year day) ≤ day ∧
    day < daysBeforeMonth year (monthOfDay year day) + daysInMonth year (monthOfDay year day) := by
  by_cases leap : isLeap year <;>
    simp only [monthOfDay, daysBeforeMonth, daysInMonth, leap] at upper ⊢ <;>
    simp at upper ⊢ <;> split_ifs <;> omega

theorem daysBeforeMonth_succ (year month : ℤ) (lower : 1 ≤ month) (upper : month ≤ 11) :
    daysBeforeMonth year (month + 1) = daysBeforeMonth year month + daysInMonth year month := by
  by_cases leap : isLeap year <;> simp only [daysBeforeMonth, daysInMonth, leap] <;>
    interval_cases month <;> rfl

theorem daysBeforeMonth_december (year : ℤ) :
    daysBeforeMonth year 12 + daysInMonth year 12 = if isLeap year then 366 else 365 := by
  by_cases leap : isLeap year <;> simp only [daysBeforeMonth, daysInMonth, leap] <;> rfl

theorem daysBeforeMonth_january (year : ℤ) : daysBeforeMonth year 1 = 0 := by
  simp [daysBeforeMonth]

theorem daysInMonth_bounds (year month : ℤ) :
    28 ≤ daysInMonth year month ∧ daysInMonth year month ≤ 31 := by
  unfold daysInMonth; split_ifs <;> omega

/-- A later month of the same year starts after every day of an earlier one. -/
theorem daysBeforeMonth_mono (year : ℤ) {month later : ℤ} (lower : 1 ≤ month)
    (before : month < later) (upper : later ≤ 12) :
    daysBeforeMonth year month + daysInMonth year month ≤ daysBeforeMonth year later := by
  induction later, before using Int.leInduction with
  | base => exact (daysBeforeMonth_succ year month lower (by omega)).ge
  | succ later reached ih =>
    have previous := ih (by omega)
    have step := daysBeforeMonth_succ year later (by omega) (by omega)
    have := daysInMonth_bounds year later
    omega

theorem daysBeforeYear_mono {year later : ℤ} (before : year < later) :
    daysBeforeYear year + (if isLeap year then 366 else 365) ≤ daysBeforeYear later := by
  induction later, before using Int.leInduction with
  | base => exact (daysBeforeYear_succ year).ge
  | succ later reached ih =>
    have step := daysBeforeYear_succ later
    split_ifs at step ih ⊢ <;> omega

namespace DateTime

/-- Field-by-field order, the most significant field first. -/
def Before (a b : DateTime) : Prop :=
  a.year < b.year ∨ a.year = b.year ∧ (a.month < b.month ∨ a.month = b.month ∧
    (a.day < b.day ∨ a.day = b.day ∧ (a.hour < b.hour ∨ a.hour = b.hour ∧
      (a.minute < b.minute ∨ a.minute = b.minute ∧ a.second < b.second))))

theorem before_trichotomy (a b : DateTime) : a.Before b ∨ a = b ∨ b.Before a := by
  cases a; cases b
  simp only [Before, mk.injEq]
  omega

theorem Valid.secondOfDay_bounds {t : DateTime} (valid : t.Valid) :
    0 ≤ t.secondOfDay ∧ t.secondOfDay < 86400 := by
  obtain ⟨_, _, hour, minute, second⟩ := valid
  unfold secondOfDay; omega

theorem Valid.dayOfYear_bounds {t : DateTime} (valid : t.Valid) :
    0 ≤ t.dayOfYear ∧ t.dayOfYear < if isLeap t.year then 366 else 365 := by
  obtain ⟨month, day, _⟩ := valid
  have first : 0 ≤ daysBeforeMonth t.year t.month := by
    rcases month.1.eq_or_lt with january | later
    · rw [← january, daysBeforeMonth_january]
    · have := daysBeforeMonth_mono t.year le_rfl later month.2
      have := daysInMonth_bounds t.year 1
      rw [daysBeforeMonth_january] at *
      omega
  have last : daysBeforeMonth t.year t.month + daysInMonth t.year t.month ≤
      if isLeap t.year then 366 else 365 := by
    rw [← daysBeforeMonth_december]
    rcases month.2.eq_or_lt with december | earlier
    · rw [december]
    · have := daysBeforeMonth_mono t.year month.1 earlier le_rfl
      have := daysInMonth_bounds t.year 12
      omega
  unfold dayOfYear
  omega

theorem Valid.dayOfYear_lt {t : DateTime} (valid : t.Valid) : t.dayOfYear < 366 := by
  have := valid.dayOfYear_bounds
  split_ifs at this <;> omega

theorem dayNumber_lt {a b : DateTime} (va : a.Valid) (vb : b.Valid)
    (before : a.year < b.year ∨ a.year = b.year ∧
      (a.month < b.month ∨ a.month = b.month ∧ a.day < b.day)) : a.dayNumber < b.dayNumber := by
  have ya := va.dayOfYear_bounds
  have yb := vb.dayOfYear_bounds
  unfold dayNumber
  rcases before with year | ⟨year, month | ⟨month, day⟩⟩
  · have := daysBeforeYear_mono year
    omega
  · have := daysBeforeMonth_mono a.year va.month.1 month vb.month.2
    have := va.day
    have := vb.day
    unfold dayOfYear
    rw [← year]
    omega
  · unfold dayOfYear
    rw [year, month]
    omega

theorem toSeconds_lt {a b : DateTime} (va : a.Valid) (vb : b.Valid) (before : a.Before b) :
    a.toSeconds < b.toSeconds := by
  have sa := va.secondOfDay_bounds
  have sb := vb.secondOfDay_bounds
  have later (h : a.dayNumber < b.dayNumber) : a.toSeconds < b.toSeconds := by
    unfold toSeconds; omega
  rcases before with year | ⟨year, month | ⟨month, day | ⟨day, time⟩⟩⟩
  · exact later (dayNumber_lt va vb (.inl year))
  · exact later (dayNumber_lt va vb (.inr ⟨year, .inl month⟩))
  · exact later (dayNumber_lt va vb (.inr ⟨year, .inr ⟨month, day⟩⟩))
  · have sameDay : a.dayNumber = b.dayNumber := by simp [dayNumber, dayOfYear, year, month, day]
    obtain ⟨_, _, _, ma, ssa⟩ := va
    obtain ⟨_, _, _, mb, ssb⟩ := vb
    unfold toSeconds secondOfDay
    omega

theorem toSeconds_lt_iff {a b : DateTime} (va : a.Valid) (vb : b.Valid) :
    a.toSeconds < b.toSeconds ↔ a.Before b := by
  refine ⟨fun less => ?_, toSeconds_lt va vb⟩
  rcases before_trichotomy a b with before | rfl | after
  · exact before
  · omega
  · have := toSeconds_lt vb va after
    omega

theorem toSeconds_injective {a b : DateTime} (va : a.Valid) (vb : b.Valid)
    (same : a.toSeconds = b.toSeconds) : a = b := by
  rcases before_trichotomy a b with before | equal | after
  · have := toSeconds_lt va vb before
    omega
  · exact equal
  · have := toSeconds_lt vb va after
    omega

end DateTime

theorem ofSeconds_valid (seconds : ℤ) : (ofSeconds seconds).Valid := by
  have year := yearOfDay_bounds (seconds / 86400 + 719162)
  have length := daysBeforeYear_succ (yearOfDay (seconds / 86400 + 719162))
  have month := monthOfDay_bounds (yearOfDay (seconds / 86400 + 719162))
    (seconds / 86400 + 719162 - daysBeforeYear (yearOfDay (seconds / 86400 + 719162)))
    (by omega) (by omega)
  constructor <;> simp only [ofSeconds]
  · exact month.1
  all_goals omega

@[simp] theorem toSeconds_ofSeconds (seconds : ℤ) : (ofSeconds seconds).toSeconds = seconds := by
  simp only [ofSeconds, DateTime.toSeconds, DateTime.dayNumber, DateTime.dayOfYear,
    DateTime.secondOfDay]
  omega

end Gregorian
