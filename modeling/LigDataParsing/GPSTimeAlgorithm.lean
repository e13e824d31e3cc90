import Mathlib.Tactic.FieldSimp
import LigDataParsing.Binary64
import LigDataParsing.GPSTime

/-! The calendar arithmetic of `GPSTimeAlgorithm.h` and `GPSTime::set_second`, over
the C library's `mktime` and `localtime` for local time at a fixed offset from UTC.
What moves a fraction takes `double`, the rounding of each operation: `Binary64.toDouble`
in the program, `id` in exact arithmetic. -/
namespace LigDataParsing

structure Tm where
  sec : ℤ
  min : ℤ
  hour : ℤ
  mday : ℤ
  mon : ℤ
  year : ℤ
  deriving DecidableEq

/-- `mktime` accepts months outside 0..11 and days and times out of range. -/
def mktime (utcOffset : ℤ) (tm : Tm) : ℤ :=
  Gregorian.DateTime.toSeconds
    ⟨tm.year + 1900 + tm.mon / 12, tm.mon % 12 + 1, tm.mday, tm.hour, tm.min, tm.sec⟩ - utcOffset

def localtime (utcOffset time : ℤ) : Tm :=
  let date := Gregorian.ofSeconds (time + utcOffset)
  ⟨date.second, date.minute, date.hour, date.day, date.month - 1, date.year - 1900⟩

/-- The C conversion from `double` to an integer type drops the fraction. -/
def truncate (x : ℚ) : ℤ := if 0 ≤ x then ⌊x⌋ else ⌈x⌉

/-- `fmod(x, 1)`, with the sign of `x`. -/
def fmodOne (x : ℚ) : ℚ := x - truncate x

namespace GPSTime

def toTm (t : GPSTime) : Tm :=
  ⟨t.sec, t.min, t.hour, t.day, t.month - 1, t.year + 2000 - 1900⟩

def withTm (t : GPSTime) (p : Tm) : GPSTime :=
  { t with
    year := p.year + 1900 - 2000
    month := p.mon + 1
    day := p.mday
    hour := p.hour
    min := p.min
    sec := p.sec }

end GPSTime

def convertGPSTimeToUnixTime (utcOffset : ℤ) (t : GPSTime) : ℤ := mktime utcOffset t.toTm

def getPosixTime (utcOffset : ℤ) (t : GPSTime) : ℚ := mktime utcOffset t.toTm + t.actPointSec

def gpsTimeCarrtOneSecond (double : ℚ → ℚ) (utcOffset : ℤ) (t : GPSTime) : GPSTime :=
  let ft := mktime utcOffset t.toTm
  if t.actPointSec ≥ 1 then
    let dSeconds := truncate (t.actPointSec / 1)
    { t with actPointSec := fmodOne t.actPointSec }.withTm (localtime utcOffset (ft + dSeconds))
  else if t.actPointSec < 0 then
    let dSeconds := truncate (t.actPointSec / 1) - 1
    let actPointSec := double (fmodOne t.actPointSec + 1)
    -- a whole negative number of seconds would leave the fraction at one
    if actPointSec = 1 then
      { t with actPointSec := 0 }.withTm (localtime utcOffset (ft + (dSeconds + 1)))
    else
      { t with actPointSec := actPointSec }.withTm (localtime utcOffset (ft + dSeconds))
  else t

def addActPointSec (double : ℚ → ℚ) (utcOffset : ℤ) (t : GPSTime) (add : ℚ) : GPSTime :=
  let moved := { t with actPointSec := double (t.actPointSec + add) }
  if moved.actPointSec ≥ 1 ∨ moved.actPointSec < 0 then gpsTimeCarrtOneSecond double utcOffset moved
  else moved

def calculteTime (double : ℚ → ℚ) (utcOffset : ℤ) (t : GPSTime) (dvalue sampleRate : ℚ) : GPSTime :=
  let moved := { t with actPointSec := double (t.actPointSec + double (dvalue / sampleRate)) }
  if moved.actPointSec ≥ 1 ∨ moved.actPointSec < 0 then gpsTimeCarrtOneSecond double utcOffset moved
  else moved

/-- A reference time with the cache and the place in it where that time was taken. -/
structure GPSTimeInformation where
  currentTime : GPSTime
  currentSecondCacheCount : ℕ
  currentSeconfCachePlace : ℕ

/-- The samples between the reference place and the given one, negative before it. -/
def GPSTimeInformation.dvalue (double : ℚ → ℚ) (oneGPSTime : GPSTimeInformation)
    (count place numOfDateOfPerCache : ℕ) : ℚ :=
  double (double (double (double count - double oneGPSTime.currentSecondCacheCount) * double numOfDateOfPerCache) +
    double (double place - double oneGPSTime.currentSeconfCachePlace))

def calculateActuallyTime (double : ℚ → ℚ) (utcOffset : ℤ) (oneGPSTime : GPSTimeInformation)
    (count place numOfDateOfPerCache : ℕ) (sampleRate : ℚ) : GPSTime :=
  calculteTime double utcOffset oneGPSTime.currentTime
    (oneGPSTime.dvalue double count place numOfDateOfPerCache) sampleRate

/-- `GPSTime::set_second`: a negative second goes back one whole second from the
fields the time already has. -/
def GPSTime.setSecond (utcOffset : ℤ) (t : GPSTime) (sec : ℚ) : GPSTime :=
  if sec < 0 then
    let ft := mktime utcOffset t.toTm - 1
    { t with actPointSec := sec + 1 }.withTm (localtime utcOffset ft)
  else
    { t with sec := truncate sec, actPointSec := sec - truncate sec }

structure Duration where
  year : ℤ
  month : ℤ
  day : ℤ
  hour : ℤ
  min : ℤ
  sec : ℤ

/-- Years and months count 365 and 30 days. -/
def Duration.second (d : Duration) : ℤ :=
  d.year * 31536000 + d.month * 2592000 + d.day * 86400 + d.hour * 3600 + d.min * 60 + d.sec

def GPSTime.plus (utcOffset : ℤ) (s2 : Duration) (t : GPSTime) : GPSTime :=
  let tm := localtime utcOffset (mktime utcOffset t.toTm + s2.second)
  ofFields (tm.year - 100) (tm.mon + 1) tm.mday tm.hour tm.min tm.sec t.actPointSec

theorem truncate_of_nonneg {x : ℚ} (h : 0 ≤ x) : truncate x = ⌊x⌋ := if_pos h

theorem truncate_of_neg {x : ℚ} (h : x < 0) : truncate x = ⌈x⌉ := if_neg (not_le.mpr h)

theorem fmodOne_of_nonneg {x : ℚ} (h : 0 ≤ x) : fmodOne x = Int.fract x := by
  rw [fmodOne, truncate_of_nonneg h, Int.fract]

namespace GPSTime

theorem mktime_toTm (utcOffset : ℤ) {t : GPSTime} (calendar : t.civil.Valid) :
    mktime utcOffset t.toTm = t.civil.toSeconds - utcOffset := by
  have month := calendar.month
  simp only [civil] at month
  have year : t.year + 2000 - 1900 + 1900 + (t.month - 1) / 12 = t.year + 2000 := by omega
  have normal : (t.month - 1) % 12 + 1 = t.month := by omega
  simp only [mktime, toTm, civil, year, normal]

theorem civil_withTm (utcOffset time : ℤ) (t : GPSTime) :
    (t.withTm (localtime utcOffset time)).civil = Gregorian.ofSeconds (time + utcOffset) := by
  simp [withTm, localtime, civil]

@[simp] theorem actPointSec_withTm (t : GPSTime) (p : Tm) :
    (t.withTm p).actPointSec = t.actPointSec := rfl

theorem withTm_valid (utcOffset time : ℤ) {t : GPSTime}
    (fraction : 0 ≤ t.actPointSec ∧ t.actPointSec < 1) :
    (t.withTm (localtime utcOffset time)).Valid :=
  ⟨by rw [civil_withTm]; exact Gregorian.ofSeconds_valid _, fraction⟩

theorem instant_withTm (utcOffset time : ℤ) (t : GPSTime) :
    (t.withTm (localtime utcOffset time)).instant = (time + utcOffset : ℤ) + t.actPointSec := by
  rw [instant, civil_withTm, Gregorian.toSeconds_ofSeconds, actPointSec_withTm]

theorem getPosixTime_eq (utcOffset : ℤ) {t : GPSTime} (calendar : t.civil.Valid) :
    getPosixTime utcOffset t = t.instant - utcOffset := by
  rw [getPosixTime, mktime_toTm utcOffset calendar, instant]
  push_cast
  ring

section Carry

variable {double : ℚ → ℚ} {utcOffset : ℤ} {t : GPSTime} {add : ℚ}

/-- Whole seconds carried upwards are taken off exactly. -/
theorem carry_of_one_le (calendar : t.civil.Valid) (carries : 1 ≤ t.actPointSec) :
    (gpsTimeCarrtOneSecond double utcOffset t).Valid ∧
    (gpsTimeCarrtOneSecond double utcOffset t).instant = t.instant := by
  have seconds := mktime_toTm utcOffset calendar
  have positive : 0 ≤ t.actPointSec := by linarith
  unfold gpsTimeCarrtOneSecond
  simp only [div_one, seconds, ge_iff_le, carries, if_true]
  constructor
  · refine withTm_valid _ _ ?_
    simp only [fmodOne_of_nonneg positive]
    exact ⟨Int.fract_nonneg _, Int.fract_lt_one _⟩
  · rw [instant_withTm, instant, fmodOne]
    push_cast
    ring

/-- In exact arithmetic a negative fraction borrows whole seconds. -/
theorem carry_of_neg (calendar : t.civil.Valid) (negative : t.actPointSec < 0) :
    (gpsTimeCarrtOneSecond id utcOffset t).Valid ∧
    (gpsTimeCarrtOneSecond id utcOffset t).instant = t.instant := by
  have seconds := mktime_toTm utcOffset calendar
  have ceil := truncate_of_neg negative
  have above := Int.le_ceil t.actPointSec
  have below := Int.ceil_lt_add_one t.actPointSec
  unfold gpsTimeCarrtOneSecond
  simp only [div_one, seconds, id_eq]
  split_ifs with carries whole
  · linarith
  · constructor
    · exact withTm_valid _ _ (by norm_num)
    · have cut : t.actPointSec = truncate t.actPointSec := by
        rw [fmodOne] at whole
        linarith
      rw [instant_withTm, instant]
      push_cast
      linarith
  · constructor
    · refine withTm_valid _ _ ⟨?_, ?_⟩
      · simp only [fmodOne, ceil]
        linarith
      · refine lt_of_le_of_ne ?_ whole
        simp only [fmodOne, ceil]
        linarith
    · rw [instant_withTm, instant, fmodOne]
      push_cast
      ring

/-- A sum that is not negative is split into whole seconds and a fraction exactly. -/
theorem addActPointSec_of_nonneg (calendar : t.civil.Valid) (nonneg : 0 ≤ double (t.actPointSec + add)) :
    (addActPointSec double utcOffset t add).Valid ∧
    (addActPointSec double utcOffset t add).instant = t.civil.toSeconds + double (t.actPointSec + add) := by
  simp only [addActPointSec]
  split_ifs with outside
  · exact carry_of_one_le (t := { t with actPointSec := double (t.actPointSec + add) }) calendar
      (outside.resolve_right (not_lt.mpr nonneg))
  · exact ⟨⟨calendar, nonneg, not_le.mp (not_or.mp outside).1⟩, rfl⟩

theorem addActPointSec_spec (utcOffset : ℤ) {t : GPSTime} (calendar : t.civil.Valid) (add : ℚ) :
    (addActPointSec id utcOffset t add).Valid ∧
    (addActPointSec id utcOffset t add).instant = t.instant + add := by
  have moved : t.instant + add = t.civil.toSeconds + (t.actPointSec + add) := add_assoc _ _ _
  rw [moved]
  rcases lt_or_ge (t.actPointSec + add) 0 with negative | nonneg
  · rw [addActPointSec, if_pos (.inr negative)]
    exact carry_of_neg calendar negative
  · exact addActPointSec_of_nonneg calendar nonneg

theorem addActPointSec_congr (double : ℚ → ℚ) (utcOffset : ℤ) {a b : GPSTime} (same : a.stamp = b.stamp) (add : ℚ) :
    (addActPointSec double utcOffset a add).stamp = (addActPointSec double utcOffset b add).stamp := by
  obtain ⟨year, month, day, hour, min, sec, actPointSec⟩ := stamp_eq.mp same
  cases a
  cases b
  subst year month day hour min sec actPointSec
  simp only [addActPointSec, gpsTimeCarrtOneSecond, toTm]
  split_ifs <;> rfl

end Carry

section Rounded

open Binary64

variable {a b t : GPSTime} {add : ℚ}

theorem addActPointSec_toDouble (utcOffset : ℤ) (valid : t.Valid) (delay : 0 ≤ add) :
    (addActPointSec toDouble utcOffset t add).Valid ∧
    (addActPointSec toDouble utcOffset t add).instant = t.civil.toSeconds + toDouble (t.actPointSec + add) :=
  addActPointSec_of_nonneg valid.calendar (toDouble_nonneg (add_nonneg valid.fraction.1 delay))

theorem le_addActPointSec (utcOffset : ℤ) (valid : t.Valid) (double : Representable t.actPointSec) (delay : 0 ≤ add) :
    t.stamp ≤ (addActPointSec toDouble utcOffset t add).stamp := by
  obtain ⟨valid', moved⟩ := addActPointSec_toDouble utcOffset valid delay
  have above : t.actPointSec ≤ toDouble (t.actPointSec + add) := by
    calc t.actPointSec
      _ = toDouble t.actPointSec := double.symm
      _ ≤ toDouble (t.actPointSec + add) := toDouble_mono valid.fraction.1 (by linarith)
  rw [← instant_le_iff valid valid', moved, instant]
  linarith

/-- Adding one delay keeps the order of times: the fraction of an earlier second never
rounds past the sum in a later one. -/
theorem addActPointSec_mono (utcOffset : ℤ) (va : a.Valid) (vb : b.Valid) (doubleA : Representable a.actPointSec)
    (doubleAdd : Representable add) (delay : 0 ≤ add) (ordered : a.stamp ≤ b.stamp) :
    (addActPointSec toDouble utcOffset a add).stamp ≤ (addActPointSec toDouble utcOffset b add).stamp := by
  obtain ⟨va', instantA⟩ := addActPointSec_toDouble utcOffset va delay
  obtain ⟨vb', instantB⟩ := addActPointSec_toDouble utcOffset vb delay
  have instants := (instant_le_iff va vb).mpr ordered
  obtain ⟨nonnegA, belowA⟩ := va.fraction
  obtain ⟨nonnegB, belowB⟩ := vb.fraction
  rw [← instant_le_iff va' vb', instantA, instantB]
  rw [instant, instant] at instants
  rcases le_or_gt b.civil.toSeconds a.civil.toSeconds with same | later
  · have level : a.civil.toSeconds = b.civil.toSeconds := by
      by_contra apart
      have ahead : b.civil.toSeconds + 1 ≤ a.civil.toSeconds := by omega
      have : (b.civil.toSeconds : ℚ) + 1 ≤ a.civil.toSeconds := by exact_mod_cast ahead
      linarith
    rw [level] at instants ⊢
    have fractions := toDouble_mono (add_nonneg nonnegA delay) (by linarith : a.actPointSec + add ≤ b.actPointSec + add)
    linarith
  · have next : (a.civil.toSeconds : ℚ) + 1 ≤ b.civil.toSeconds := by exact_mod_cast later
    have below := toDouble_fraction_add_le doubleA doubleAdd nonnegA belowA delay
    have above : add ≤ toDouble (b.actPointSec + add) := by
      calc add
        _ = toDouble add := doubleAdd.symm
        _ ≤ toDouble (b.actPointSec + add) := toDouble_mono delay (by linarith)
    linarith

end Rounded

theorem plus_spec (utcOffset : ℤ) (s2 : Duration) {t : GPSTime} (valid : t.Valid) :
    (t.plus utcOffset s2).Valid ∧ (t.plus utcOffset s2).instant = t.instant + s2.second := by
  have moved : (t.plus utcOffset s2).civil = Gregorian.ofSeconds (t.civil.toSeconds + s2.second) := by
    have seconds := mktime_toTm utcOffset valid.calendar
    have later : mktime utcOffset t.toTm + s2.second + utcOffset = t.civil.toSeconds + s2.second := by omega
    rw [← later]
    have year (y : ℤ) : y - 1900 - 100 + 2000 = y := by ring
    simp [plus, ofFields, civil, localtime, year]
  constructor
  · exact ⟨by rw [moved]; exact Gregorian.ofSeconds_valid _, valid.fraction⟩
  · rw [instant, moved, Gregorian.toSeconds_ofSeconds, instant]
    simp only [plus, ofFields]
    push_cast
    ring

theorem setSecond_of_nonneg (utcOffset : ℤ) {t : GPSTime} (valid : t.Valid) {sec : ℚ}
    (lower : 0 ≤ sec) (upper : sec < 60) :
    (t.setSecond utcOffset sec).Valid ∧
    (t.setSecond utcOffset sec).instant = 60 * t.minutes + sec := by
  have floor := truncate_of_nonneg lower
  have floorNonneg : 0 ≤ ⌊sec⌋ := Int.floor_nonneg.mpr lower
  have floorLt : ⌊sec⌋ < 60 := Int.floor_lt.mpr (by exact_mod_cast upper)
  have split : t.setSecond utcOffset sec = { t with sec := ⌊sec⌋, actPointSec := sec - ⌊sec⌋ } := by
    rw [setSecond, if_neg (not_lt.mpr lower), floor]
  rw [split]
  constructor
  · obtain ⟨month, day, hour, minute, _⟩ := valid.calendar
    refine ⟨⟨month, day, hour, minute, floorNonneg, floorLt⟩, ?_⟩
    exact ⟨Int.fract_nonneg sec, Int.fract_lt_one sec⟩
  · rw [instant_eq]
    simp only [minutes, civil]
    have : Gregorian.DateTime.dayNumber ⟨t.year + 2000, t.month, t.day, t.hour, t.min, ⌊sec⌋⟩ =
        Gregorian.DateTime.dayNumber ⟨t.year + 2000, t.month, t.day, t.hour, t.min, t.sec⟩ := rfl
    rw [this]
    ring

/-- A second just below zero is right when the time's own second is zero: one second
is borrowed and `sec + 1` becomes the fraction. -/
theorem setSecond_of_neg (utcOffset : ℤ) {t : GPSTime} (valid : t.Valid) {sec : ℚ}
    (atZero : t.sec = 0) (lower : -1 ≤ sec) (upper : sec < 0) :
    (t.setSecond utcOffset sec).Valid ∧
    (t.setSecond utcOffset sec).instant = 60 * t.minutes + sec := by
  have split : t.setSecond utcOffset sec = GPSTime.withTm { t with actPointSec := sec + 1 }
      (localtime utcOffset (mktime utcOffset t.toTm - 1)) := by
    rw [setSecond, if_pos upper]
  rw [split]
  constructor
  · exact withTm_valid _ _ ⟨by simp only; linarith, by simp only; linarith⟩
  · have start : (t.civil.toSeconds : ℚ) = 60 * t.minutes := by
      have := instant_eq t
      rw [instant, atZero] at this
      push_cast at this
      linarith
    rw [instant_withTm, mktime_toTm utcOffset valid.calendar]
    push_cast
    rw [start]
    ring

def FitsInt (n : ℤ) : Prop := -2 ^ 31 ≤ n ∧ n < 2 ^ 31

instance : DecidablePred FitsInt := fun n => by unfold FitsInt; infer_instance

/-- `r` is the well-formed time of `t` moved by `d` seconds, and the whole seconds the
carry counts in an `int` are in its range. -/
structure Moved (t : GPSTime) (d : ℚ) (r : GPSTime) : Prop where
  valid : r.Valid
  instant : r.instant = t.instant + d
  seconds : FitsInt (truncate (t.actPointSec + d))
  borrowed : FitsInt (truncate (t.actPointSec + d) - 1)

theorem abs_truncate_lt {x : ℚ} {n : ℤ} (small : |x| < n) : |truncate x| < n := by
  obtain ⟨lower, upper⟩ := abs_lt.mp small
  rw [abs_lt]
  rcases lt_or_ge x 0 with negative | nonneg
  · rw [truncate_of_neg negative]
    have ceil : ⌈x⌉ ≤ 0 := Int.ceil_le.mpr (by exact_mod_cast negative.le)
    have positive : (0 : ℚ) < n := (abs_nonneg x).trans_lt small
    have positive' : 0 < n := by exact_mod_cast positive
    exact ⟨Int.lt_ceil.mpr (by exact_mod_cast lower), by omega⟩
  · rw [truncate_of_nonneg nonneg]
    have floor : 0 ≤ ⌊x⌋ := Int.floor_nonneg.mpr nonneg
    exact ⟨by have := Int.floor_lt.mpr upper; omega, Int.floor_lt.mpr upper⟩

theorem Moved.of_small {t r : GPSTime} {d : ℚ} (valid : r.Valid) (instant : r.instant = t.instant + d)
    (small : |t.actPointSec + d| < 2 ^ 31) : Moved t d r := by
  obtain ⟨lower, upper⟩ := abs_lt.mp (abs_truncate_lt (n := 2 ^ 31) (by exact_mod_cast small))
  exact ⟨valid, instant, ⟨lower.le, upper⟩, ⟨by omega, by omega⟩⟩

theorem addActPointSec_moved (utcOffset : ℤ) {t : GPSTime} (valid : t.Valid) {d : ℚ}
    (small : |t.actPointSec + d| < 2 ^ 31) : Moved t d (addActPointSec id utcOffset t d) := by
  obtain ⟨valid', instant⟩ := addActPointSec_spec utcOffset valid.calendar d
  exact .of_small valid' instant small

/-- The two functions share their body up to the offset they add. -/
theorem calculteTime_eq (double : ℚ → ℚ) (utcOffset : ℤ) (t : GPSTime) (dvalue sampleRate : ℚ) :
    calculteTime double utcOffset t dvalue sampleRate =
      addActPointSec double utcOffset t (double (dvalue / sampleRate)) := rfl

/-- In exact arithmetic, moving a time by an offset, given in seconds, in samples or by two
counters, is exact in both directions. -/
theorem carry_exact (utcOffset : ℤ) {t : GPSTime} (valid : t.Valid) :
    (∀ d, |t.actPointSec + d| < 2 ^ 31 → Moved t d (addActPointSec id utcOffset t d)) ∧
    (∀ d rate, 0 < rate → |t.actPointSec + d| < 2 ^ 31 →
      Moved t d (calculteTime id utcOffset t (d * rate) rate)) ∧
    ∀ (oneGPSTime : GPSTimeInformation) (count place numOfDateOfPerCache : ℕ) (sampleRate : ℚ),
      oneGPSTime.currentTime = t → 0 < sampleRate →
      |t.actPointSec + oneGPSTime.dvalue id count place numOfDateOfPerCache / sampleRate| < 2 ^ 31 →
      Moved t
        ((((count : ℚ) - oneGPSTime.currentSecondCacheCount) * numOfDateOfPerCache +
          ((place : ℚ) - oneGPSTime.currentSeconfCachePlace)) / sampleRate)
        (calculateActuallyTime id utcOffset oneGPSTime count place numOfDateOfPerCache sampleRate) := by
  refine ⟨fun d small => addActPointSec_moved utcOffset valid small, ?_, ?_⟩
  · intro d rate positive small
    rw [calculteTime_eq, mul_div_cancel_right₀ d positive.ne']
    exact addActPointSec_moved utcOffset valid small
  · intro oneGPSTime count place numOfDateOfPerCache sampleRate reference positive small
    rw [calculateActuallyTime, calculteTime_eq, reference]
    exact addActPointSec_moved utcOffset valid small

/-- Forwards into a leap day and backwards out of a year. -/
theorem carry_exact_leap_day :
    Moved (ofFields 24 2 28 23 59 59 0.5) 1.75
      (addActPointSec id 28800 (ofFields 24 2 28 23 59 59 0.5) 1.75) ∧
    Moved (ofFields 24 2 28 23 59 59 0.5) (-5097600)
      (calculteTime id 28800 (ofFields 24 2 28 23 59 59 0.5) (-5097600 * 1000) 1000) ∧
    Moved (ofFields 24 2 28 23 59 59 0.5) ((((3 : ℕ) - (5 : ℕ)) * (1000 : ℕ) + ((7 : ℕ) - (2 : ℕ))) / 500)
      (calculateActuallyTime id 28800 ⟨ofFields 24 2 28 23 59 59 0.5, 5, 2⟩ 3 7 1000 500) := by
  obtain ⟨seconds, samples, counters⟩ := carry_exact 28800
    (show (ofFields 24 2 28 23 59 59 0.5).Valid by decide +kernel)
  exact ⟨seconds 1.75 (by decide +kernel), samples (-5097600) 1000 (by norm_num) (by decide +kernel),
    counters ⟨ofFields 24 2 28 23 59 59 0.5, 5, 2⟩ 3 7 1000 500 rfl (by norm_num) (by decide +kernel)⟩

/-- The digit difference is the elapsed time of `GetPosixTime` exactly for two times of
one minute; across a minute it is off by 40 s or more. -/
theorem sub_eq_elapsed_iff (utcOffset : ℤ) {a b : GPSTime} (va : a.Valid) (vb : b.Valid) :
    a.sub b = getPosixTime utcOffset a - getPosixTime utcOffset b ↔ SameMinute a b := by
  have elapsed : getPosixTime utcOffset a - getPosixTime utcOffset b = a.instant - b.instant := by
    rw [getPosixTime_eq utcOffset va.calendar, getPosixTime_eq utcOffset vb.calendar]
    ring
  rw [elapsed]
  constructor
  · intro exactly
    rcases minute_trichotomy a b with before | same | after
    · have excess := before.sub_ge va vb
      rw [sub_neg] at excess
      linarith
    · exact same
    · have excess := after.sub_ge vb va
      linarith
  · exact SameMinute.sub_eq

theorem sub_eq_elapsed_within : ((ofFields 24 4 20 20 5 59 0.9999).sub (ofFields 24 4 20 20 5 17 0.5) =
      getPosixTime 28800 (ofFields 24 4 20 20 5 59 0.9999) - getPosixTime 28800 (ofFields 24 4 20 20 5 17 0.5) ↔
    SameMinute (ofFields 24 4 20 20 5 59 0.9999) (ofFields 24 4 20 20 5 17 0.5)) ∧
    SameMinute (ofFields 24 4 20 20 5 59 0.9999) (ofFields 24 4 20 20 5 17 0.5) :=
  ⟨sub_eq_elapsed_iff 28800 (by decide +kernel) (by decide +kernel), by decide +kernel⟩

/-- 100 µs across a minute read as 40.0001 s. -/
theorem sub_across_minute :
    (ofFields 24 4 20 20 6 0 0).Valid ∧ (ofFields 24 4 20 20 5 59 0.9999).Valid ∧
    (ofFields 24 4 20 20 6 0 0).sub (ofFields 24 4 20 20 5 59 0.9999) = 40.0001 ∧
    getPosixTime 28800 (ofFields 24 4 20 20 6 0 0) -
      getPosixTime 28800 (ofFields 24 4 20 20 5 59 0.9999) = 0.0001 := by
  decide +kernel

end GPSTime

end LigDataParsing
