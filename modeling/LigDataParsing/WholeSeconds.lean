import LigDataParsing.TimeString

/-! Moving a time by whole seconds. `Duration::second` is evaluated in `int` and widened
at the end, and `GPSTimeAddingSeconds` takes the seconds since 1970 through an `int`. -/
namespace LigDataParsing

/-- A result that must fit an `int`; what happens otherwise is not defined. -/
def asInt (n : ℤ) : Option ℤ := if GPSTime.FitsInt n then some n else none

/-- `Duration::second` with its products and sums in `int`, from left to right. -/
def Duration.secondInt (d : Duration) : Option ℤ := do
  let years ← asInt (d.year * 31536000)
  let months ← asInt (d.month * 2592000)
  let yearsToMonths ← asInt (years + months)
  let days ← asInt (d.day * 86400)
  let yearsToDays ← asInt (yearsToMonths + days)
  let hours ← asInt (d.hour * 3600)
  let yearsToHours ← asInt (yearsToDays + hours)
  let mins ← asInt (d.min * 60)
  let yearsToMins ← asInt (yearsToHours + mins)
  asInt (yearsToMins + d.sec)

namespace GPSTime

def plusInt (utcOffset : ℤ) (s2 : Duration) (t : GPSTime) : Option GPSTime :=
  s2.secondInt.map fun second =>
    let tm := localtime utcOffset (mktime utcOffset t.toTm + second)
    ofFields (tm.year - 100) (tm.mon + 1) tm.mday tm.hour tm.min tm.sec t.actPointSec

/-- `GPSTimeAddingSeconds`; the sum of `GetPosixTime` is rounded to a double, and the cast
to `int` comes before the addition. -/
def addingSeconds (utcOffset : ℤ) (t : GPSTime) (seconds : ℚ) : Option GPSTime :=
  (asInt (truncate (Binary64.toDouble (getPosixTime utcOffset t)))).map fun posix : ℤ =>
    t.withTm (localtime utcOffset (truncate (Binary64.toDouble (posix + seconds))))

end GPSTime

section Second

variable {d : Duration} {n : ℤ}

theorem asInt_eq_some {m : ℤ} : asInt n = some m ↔ GPSTime.FitsInt n ∧ n = m := by
  rw [asInt]
  split_ifs with fits
  · simp [fits]
  · simp [fits]

theorem secondInt_eq (evaluated : d.secondInt = some n) : n = d.second ∧ GPSTime.FitsInt n := by
  simp only [Duration.secondInt, Option.bind_eq_bind, Option.bind_eq_some_iff, asInt_eq_some] at evaluated
  obtain ⟨_, ⟨_, rfl⟩, _, ⟨_, rfl⟩, _, ⟨_, rfl⟩, _, ⟨_, rfl⟩, _, ⟨_, rfl⟩, _, ⟨_, rfl⟩, _, ⟨_, rfl⟩, _, ⟨_, rfl⟩,
    _, ⟨_, rfl⟩, fits, rfl⟩ := evaluated
  exact ⟨rfl, fits⟩

structure Duration.Nonneg (d : Duration) : Prop where
  year : 0 ≤ d.year
  month : 0 ≤ d.month
  day : 0 ≤ d.day
  hour : 0 ≤ d.hour
  min : 0 ≤ d.min
  sec : 0 ≤ d.sec

/-- Without negative fields every product and partial sum is below the total. -/
theorem secondInt_of_nonneg (nonneg : d.Nonneg) (fits : d.second < 2 ^ 31) : d.secondInt = some d.second := by
  obtain ⟨year, month, day, hour, min, sec⟩ := nonneg
  have small (m : ℤ) (lower : 0 ≤ m) (upper : m ≤ d.second) : asInt m = some m :=
    if_pos ⟨by omega, by omega⟩
  simp only [Duration.second] at fits small
  simp only [Duration.secondInt, Option.bind_eq_bind, Option.bind_eq_some_iff]
  refine ⟨_, small _ (by omega) (by omega), _, small _ (by omega) (by omega), _, small _ (by omega) (by omega),
    _, small _ (by omega) (by omega), _, small _ (by omega) (by omega), _, small _ (by omega) (by omega),
    _, small _ (by omega) (by omega), _, small _ (by omega) (by omega), _, small _ (by omega) (by omega), ?_⟩
  exact small _ (by omega) (by omega)

/-- At most 24855 days, 3 hours, 14 minutes and 7 seconds, at 365 days to a year and 30
to a month. -/
def Duration.Short (d : Duration) : Prop :=
  let days := 365 * d.year + 30 * d.month + d.day
  let time := 3600 * d.hour + 60 * d.min + d.sec
  days + time / 86400 < 24855 ∨ days + time / 86400 = 24855 ∧ time % 86400 ≤ 11647

instance (d : Duration) : Decidable d.Short := by unfold Duration.Short; infer_instance

theorem Duration.short_iff (d : Duration) : d.Short ↔ d.second < 2 ^ 31 := by
  simp only [Duration.Short, Duration.second]
  omega

theorem plusInt_spec (utcOffset : ℤ) {t : GPSTime} (valid : t.Valid) (evaluated : d.secondInt = some n) :
    t.plusInt utcOffset d = some (t.plus utcOffset d) ∧ (t.plus utcOffset d).Valid ∧
    (t.plus utcOffset d).instant = t.instant + n := by
  obtain ⟨rfl, _⟩ := secondInt_eq evaluated
  refine ⟨?_, GPSTime.plus_spec utcOffset d valid⟩
  rw [GPSTime.plusInt, evaluated]
  rfl

/-- The two constants of the program. -/
example : Duration.secondInt ⟨0, 0, 0, 0, 20, 0⟩ = some 1200 ∧ Duration.secondInt ⟨0, 0, 0, 0, 1, 0⟩ = some 60 := by
  decide

end Second

def fieldPositions (s : List Char) : List ℕ :=
  if s.length = 15 then [2, 4, 6, 9, 11, 13] else [2, 4, 6, 8, 10, 12]

structure DigitFields (s : List Char) : Prop where
  length : s.length = 14 ∨ s.length = 15
  digits : ∀ pos ∈ fieldPositions s, ∀ c ∈ substr s pos 2, c.isDigit = true

/-- `second()` stays within `int` and returns the exact number, and that number is what
`operator+=` adds. -/
def SecondExact (d : Duration) : Prop :=
  d.secondInt = some (d.year * 31536000 + d.month * 2592000 + d.day * 86400 + d.hour * 3600 + d.min * 60 + d.sec) ∧
  ∀ (utcOffset : ℤ) (t : GPSTime), t.Valid →
    ∃ sum, t.plusInt utcOffset d = some sum ∧ sum.Valid ∧ sum.instant = t.instant + d.second

theorem ofString_digitFields {s : List Char} (fields : DigitFields s) :
    ∃ d, Duration.ofString s = some d ∧ d.Nonneg := by
  obtain ⟨length, digits⟩ := fields
  by_cases refused : Refused s
  · exact ⟨_, fromString_refused _ _ refused, by constructor <;> simp⟩
  · unfold Duration.ofString fromString
    rcases length with short | long
    · have positions : fieldPositions s = [2, 4, 6, 8, 10, 12] := if_neg (by omega)
      rw [if_neg (by omega), if_pos short, sixNumbers_eq Duration.mk (by simp [short]) (positions ▸ digits)]
      exact ⟨_, rfl, by constructor <;> simp⟩
    · have positions : fieldPositions s = [2, 4, 6, 9, 11, 13] := if_pos long
      have front : s.idxOf? 'T' ≠ some 0 := fun found =>
        refused ⟨by omega, fun _ => idxOf?_eq_zero.mp found⟩
      rw [if_pos ⟨front, long⟩, sixNumbers_eq Duration.mk (by simp [long]) (positions ▸ digits)]
      exact ⟨_, rfl, by constructor <;> simp⟩

/-- A duration of the accepted format is evaluated exactly if and only if it is short
enough; six two-digit fields can exceed the range of `int`. -/
theorem second_exact_iff {s : List Char} (fields : DigitFields s) :
    ∃ d, Duration.ofString s = some d ∧ (SecondExact d ↔ d.Short) := by
  obtain ⟨d, read, nonneg⟩ := ofString_digitFields fields
  refine ⟨d, read, ?_⟩
  rw [d.short_iff]
  constructor
  · rintro ⟨evaluated, _⟩
    obtain ⟨total, fits⟩ := secondInt_eq evaluated
    rw [← total]
    exact fits.2
  · intro short
    have evaluated := secondInt_of_nonneg nonneg short
    refine ⟨evaluated, fun utcOffset t valid => ?_⟩
    obtain ⟨sum, valid', instant⟩ := plusInt_spec utcOffset valid evaluated
    exact ⟨_, sum, valid', instant⟩

theorem second_exact_twenty_minutes :
    ∃ d, Duration.ofString "00000000T002000".toList = some d ∧ (SecondExact d ↔ d.Short) ∧ d.Short := by
  have fields : DigitFields "00000000T002000".toList := ⟨by simp, by simp [fieldPositions, substr]⟩
  obtain ⟨d, read, exactly⟩ := second_exact_iff fields
  refine ⟨d, read, exactly, ?_⟩
  cases read
  decide +kernel

/-- Sixty-nine years do not fit. -/
theorem second_overflows :
    DigitFields "00690000T000000".toList ∧
    Duration.ofString "00690000T000000".toList = some ⟨69, 0, 0, 0, 0, 0⟩ ∧
    Duration.secondInt ⟨69, 0, 0, 0, 0, 0⟩ = none :=
  ⟨⟨by simp, by simp [fieldPositions, substr]⟩, by rfl, by decide +kernel⟩

/-- The three sums have the same seven fields: those of the instant of `t` plus `s`, with
the fraction unchanged. -/
def SumsAgree (utcOffset : ℤ) (t : GPSTime) (d : Duration) (s : ℤ) : Prop :=
  ∃ sum, t.plusInt utcOffset d = some sum ∧
    (∃ other, t.addingSeconds utcOffset s = some other ∧ other.stamp = sum.stamp) ∧
    (addActPointSec Binary64.toDouble utcOffset t s).stamp = sum.stamp ∧
    GPSTime.Moved t s (addActPointSec Binary64.toDouble utcOffset t s) ∧
    sum.Valid ∧ sum.instant = t.instant + s ∧ sum.actPointSec = t.actPointSec

/-- The whole seconds of `t` since 1970 survive the sum and the cast to `int`: they are in
its range, and the fraction is not rounded up to the next second or, before 1970, rounded
off. -/
def PosixFits (utcOffset : ℤ) (t : GPSTime) : Prop :=
  GPSTime.FitsInt (convertGPSTimeToUnixTime utcOffset t) ∧
    if 0 ≤ convertGPSTimeToUnixTime utcOffset t then
      t.actPointSec < 1 - Binary64.ulp (getPosixTime utcOffset t) / 2
    else t.actPointSec ≤ Binary64.ulp (getPosixTime utcOffset t) / 2

instance (utcOffset : ℤ) (t : GPSTime) : Decidable (PosixFits utcOffset t) := by unfold PosixFits; infer_instance

section Sums

open Binary64

variable {utcOffset : ℤ} {t : GPSTime} {d : Duration} {s : ℤ}

theorem truncate_intCast (n : ℤ) : truncate (n : ℚ) = n := by
  rw [truncate]
  split_ifs
  · exact Int.floor_intCast n
  · exact Int.ceil_intCast n

theorem truncate_of_nonpos {x : ℚ} (nonpos : x ≤ 0) : truncate x = ⌈x⌉ := by
  rcases nonpos.lt_or_eq with negative | rfl
  · exact truncate_of_neg negative
  · simp [truncate]

theorem stamp_of_instant {a b : GPSTime} (va : a.Valid) (vb : b.Valid) (same : a.instant = b.instant) :
    a.stamp = b.stamp :=
  le_antisymm ((GPSTime.instant_le_iff va vb).mp same.le) ((GPSTime.instant_le_iff vb va).mp same.ge)

/-- The double next to whole seconds and a fraction, cut to the whole seconds. -/
theorem truncate_toDouble_iff {n : ℤ} {f : ℚ} (fits : GPSTime.FitsInt n) (nonneg : 0 ≤ f) (below : f < 1) :
    truncate (toDouble (n + f)) = n ↔ if 0 ≤ n then f < 1 - ulp (n + f) / 2 else f ≤ ulp (n + f) / 2 := by
  obtain ⟨lower, upper⟩ := fits
  have lower' : (-2 ^ 31 : ℚ) ≤ n := by exact_mod_cast lower
  have upper' : (n : ℚ) < 2 ^ 31 := by exact_mod_cast upper
  have small : |(n : ℚ) + f| < 2 ^ (52 : ℤ) := by
    rw [abs_lt]
    norm_num
    constructor <;> linarith
  rcases eq_or_ne ((n : ℚ) + f) 0 with zero | nonzero
  · have whole : n = 0 := by
      have above : (-1 : ℚ) < n := by linarith
      have : -1 < n := by exact_mod_cast above
      have : n ≤ 0 := by exact_mod_cast (by linarith : (n : ℚ) ≤ 0)
      omega
    subst whole
    obtain rfl : f = 0 := by simpa using zero
    exact iff_of_true (by simp [truncate]) (by decide +kernel)
  have above := intCast_le_toDouble nonzero small (n := n) (by linarith)
  split_ifs with epoch
  · have epoch' : (0 : ℚ) ≤ n := by exact_mod_cast epoch
    rw [truncate_of_nonneg (epoch'.trans above), Int.floor_eq_iff, and_iff_right above]
    have next := toDouble_lt_intCast_iff nonzero small (n := n + 1)
    push_cast at next
    rw [next]
    constructor <;> intro <;> linarith
  · have before : (n : ℚ) + 1 ≤ 0 := by exact_mod_cast (show n + 1 ≤ 0 by omega)
    have nonpos : toDouble (n + f) ≤ 0 := by
      exact_mod_cast toDouble_le_intCast nonzero small (n := 0) (by push_cast; linarith)
    rw [truncate_of_nonpos nonpos, Int.ceil_eq_iff, and_iff_right (by linarith),
      toDouble_le_intCast_iff nonzero small]
    constructor <;> intro <;> linarith

/-- The cast keeps the whole seconds exactly when `PosixFits` holds. -/
theorem posixFits_iff (valid : t.Valid) : PosixFits utcOffset t ↔
    asInt (truncate (toDouble (getPosixTime utcOffset t))) = some (convertGPSTimeToUnixTime utcOffset t) := by
  obtain ⟨lower, upper⟩ := valid.fraction
  have split : getPosixTime utcOffset t = convertGPSTimeToUnixTime utcOffset t + t.actPointSec := rfl
  rw [asInt_eq_some, PosixFits, split]
  constructor
  · rintro ⟨fits, kept⟩
    have whole := (truncate_toDouble_iff fits lower upper).mpr kept
    exact ⟨by rw [whole]; exact fits, whole⟩
  · rintro ⟨fits, whole⟩
    rw [whole] at fits
    exact ⟨fits, (truncate_toDouble_iff fits lower upper).mp whole⟩

/-- From the whole seconds `posix` the sum is right up to the error of `posix`. -/
theorem addingSeconds_spec (valid : t.Valid) {posix : ℤ}
    (cast : asInt (truncate (toDouble (getPosixTime utcOffset t))) = some posix) (fits : GPSTime.FitsInt s) :
    ∃ sum, t.addingSeconds utcOffset s = some sum ∧ sum.Valid ∧
      sum.instant = t.instant + s + (posix - convertGPSTimeToUnixTime utcOffset t : ℤ) := by
  have inRange : GPSTime.FitsInt posix := by
    obtain ⟨inRange, rfl⟩ := asInt_eq_some.mp cast
    exact inRange
  have small : |posix + s| < 2 ^ 53 := by
    obtain ⟨lower, upper⟩ := fits
    obtain ⟨lower', upper'⟩ := inRange
    rw [abs_lt]
    constructor <;> omega
  have whole : truncate (toDouble ((posix : ℚ) + (s : ℚ))) = posix + s := by
    rw [← Int.cast_add, representable_intCast small, truncate_intCast]
  refine ⟨_, by rw [GPSTime.addingSeconds, cast, Option.map_some], GPSTime.withTm_valid _ _ valid.fraction, ?_⟩
  rw [GPSTime.instant_withTm, whole, convertGPSTimeToUnixTime, GPSTime.mktime_toTm utcOffset valid.calendar,
    GPSTime.instant]
  push_cast
  ring

end Sums

/-- Adding a duration, adding seconds and moving the fraction agree if and only if the
time survives the cast to `int`, from 2038 on it does not, and the sum of its fraction and
the seconds is a double. -/
theorem sums_agree_iff (utcOffset : ℤ) {t : GPSTime} (valid : t.Valid) {d : Duration} {s : ℤ}
    (evaluated : d.secondInt = some s) (nonneg : 0 ≤ s) :
    SumsAgree utcOffset t d s ↔ PosixFits utcOffset t ∧ Binary64.Representable (t.actPointSec + s) := by
  obtain ⟨plus, validPlus, instantPlus⟩ := plusInt_spec utcOffset valid evaluated
  have fits := (secondInt_eq evaluated).2
  have lower : (0 : ℚ) ≤ s := by exact_mod_cast nonneg
  have sum_nonneg : 0 ≤ t.actPointSec + (s : ℚ) := add_nonneg valid.fraction.1 lower
  obtain ⟨validMoved, instantMoved⟩ := GPSTime.addActPointSec_toDouble utcOffset valid lower
  rw [posixFits_iff valid]
  constructor
  · rintro ⟨sum, plus', ⟨other, added, same⟩, _, moved, validSum, instantSum, _⟩
    constructor
    · cases cast : asInt (truncate (Binary64.toDouble (getPosixTime utcOffset t))) with
      | none => simp [GPSTime.addingSeconds, cast] at added
      | some posix =>
        obtain ⟨other', added', validOther, instantOther⟩ := addingSeconds_spec valid cast fits
        obtain rfl := Option.some.inj (added.symm.trans added')
        have instants : other.instant = sum.instant :=
          le_antisymm ((GPSTime.instant_le_iff validOther validSum).mpr same.le)
            ((GPSTime.instant_le_iff validSum validOther).mpr same.ge)
        have error : ((posix - convertGPSTimeToUnixTime utcOffset t : ℤ) : ℚ) = 0 := by linarith
        have level : posix - convertGPSTimeToUnixTime utcOffset t = 0 := by exact_mod_cast error
        rw [sub_eq_zero.mp level]
    · have instants := moved.instant
      rw [instantMoved, GPSTime.instant] at instants
      rw [Binary64.Representable]
      linarith
  · rintro ⟨cast, double⟩
    obtain ⟨other, added, validOther, instantOther⟩ := addingSeconds_spec valid cast fits
    rw [sub_self, Int.cast_zero, add_zero] at instantOther
    have small : |t.actPointSec + (s : ℚ)| < 2 ^ 31 := by
      have upper : (s : ℚ) + 1 ≤ 2 ^ 31 := by exact_mod_cast fits.2
      rw [abs_of_nonneg sum_nonneg]
      linarith [valid.fraction.2]
    rw [double, ← add_assoc, ← GPSTime.instant] at instantMoved
    exact ⟨_, plus, ⟨other, added, stamp_of_instant validOther validPlus (instantOther.trans instantPlus.symm)⟩,
      stamp_of_instant validMoved validPlus (instantMoved.trans instantPlus.symm),
      .of_small validMoved instantMoved small, validPlus, instantPlus, rfl⟩

theorem sums_agree_leap_day :
    (SumsAgree 28800 (GPSTime.ofFields 24 2 28 23 50 0 0.25) ⟨0, 0, 0, 0, 20, 0⟩ 1200 ↔
      PosixFits 28800 (GPSTime.ofFields 24 2 28 23 50 0 0.25) ∧ Binary64.Representable (0.25 + 1200)) ∧
    PosixFits 28800 (GPSTime.ofFields 24 2 28 23 50 0 0.25) ∧ Binary64.Representable (0.25 + 1200) :=
  ⟨sums_agree_iff 28800 (by decide +kernel) (by decide +kernel) (by decide), by decide +kernel, by decide +kernel⟩

/-- In the middle of 2050 the seconds since 1970 do not fit an `int`. A tenth of a second
and 1200 s are no double, and a fraction just below one is rounded up to the next second. -/
theorem sums_differ :
    Duration.secondInt ⟨0, 0, 0, 0, 20, 0⟩ = some 1200 ∧
    ((GPSTime.ofFields 50 6 1 0 0 0 0.5).Valid ∧
      (GPSTime.ofFields 50 6 1 0 0 0 0.5).plusInt 28800 ⟨0, 0, 0, 0, 20, 0⟩ =
        some (GPSTime.ofFields 50 6 1 0 20 0 0.5) ∧
      (GPSTime.ofFields 50 6 1 0 0 0 0.5).addingSeconds 28800 1200 = none) ∧
    ((GPSTime.ofFields 24 4 20 20 5 17 (Binary64.toDouble 0.1)).Valid ∧
      (GPSTime.ofFields 24 4 20 20 5 17 (Binary64.toDouble 0.1)).plusInt 28800 ⟨0, 0, 0, 0, 20, 0⟩ =
        some (GPSTime.ofFields 24 4 20 20 25 17 (Binary64.toDouble 0.1)) ∧
      (addActPointSec Binary64.toDouble 28800 (GPSTime.ofFields 24 4 20 20 5 17 (Binary64.toDouble 0.1))
        1200).actPointSec < Binary64.toDouble 0.1) ∧
    ((GPSTime.ofFields 24 4 20 20 5 17 (Binary64.toDouble 0.9999999)).Valid ∧
      (GPSTime.ofFields 24 4 20 20 5 17 (Binary64.toDouble 0.9999999)).plusInt 28800 ⟨0, 0, 0, 0, 20, 0⟩ =
        some (GPSTime.ofFields 24 4 20 20 25 17 (Binary64.toDouble 0.9999999)) ∧
      (GPSTime.ofFields 24 4 20 20 5 17 (Binary64.toDouble 0.9999999)).addingSeconds 28800 1200 =
        some (GPSTime.ofFields 24 4 20 20 25 18 (Binary64.toDouble 0.9999999))) := by
  decide +kernel

end LigDataParsing
