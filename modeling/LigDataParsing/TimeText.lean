import Mathlib.Data.Char
import Mathlib.Data.List.Lex
import LigDataParsing.Decimal
import LigDataParsing.GPSTimeAlgorithm

/-! Times as text: the compact form of `GetTimeStr`, which also names the output file,
and the form of `GPSTime::str` that requests carry. -/
namespace LigDataParsing

open Decimal

def getTimeStr (t : GPSTime) : List Char :=
  padded 2 t.year ++ padded 2 t.month ++ padded 2 t.day ++ padded 2 t.hour ++ padded 2 t.min ++ padded 2 t.sec ++
    '.' :: padded 8 (truncate (Binary64.toDouble (t.actPointSec * 100000000)))

def getTimeString (t : GPSTime) : List Char := getTimeStr t

/-- The name alone; the directories on the way to it are created where they are missing. -/
def getLocFileName (filePath : List Char) (t : GPSTime) : List Char :=
  let fileName := filePath ++ '/' :: (getTimeString t).take 6
  let fileName := fileName ++ '/' :: (getTimeString t).take 8
  fileName ++ '/' :: (getTimeString t).take 10 ++ ".loc".toList

/-- `GPSTime::str`; the buffer holds 19 characters. -/
def GPSTime.str (t : GPSTime) : List Char :=
  (padded 4 t.year ++ '-' :: padded 2 t.month ++ '-' :: padded 2 t.day ++ ' ' :: padded 2 t.hour ++
    ':' :: padded 2 t.min ++ ':' :: padded 2 t.sec).take 19

namespace GPSTime

/-- The fraction in steps of 10 ns as it is printed: the product is rounded to a double
before it is cut off. -/
def ticks (t : GPSTime) : ℤ := ⌊Binary64.toDouble (t.actPointSec * 100000000)⌋

def wholeTicks (t : GPSTime) : ℤ := ⌊t.actPointSec * 100000000⌋

def withTicks (t : GPSTime) (n : ℤ) : GPSTime := { t with actPointSec := n / 100000000 }

theorem withTicks_lt {a b : GPSTime} {n m : ℤ} : (a.withTicks n).stamp < (b.withTicks m).stamp ↔
    a.year < b.year ∨ a.year = b.year ∧ (a.month < b.month ∨ a.month = b.month ∧
      (a.day < b.day ∨ a.day = b.day ∧ (a.hour < b.hour ∨ a.hour = b.hour ∧
        (a.min < b.min ∨ a.min = b.min ∧ (a.sec < b.sec ∨ a.sec = b.sec ∧ n < m))))) := by
  have fractions : (a.withTicks n).actPointSec < (b.withTicks m).actPointSec ↔ n < m := by
    rw [← Int.cast_lt (R := ℚ)]
    exact div_lt_div_iff_of_pos_right (by norm_num)
  rw [stamp_lt, fractions]
  rfl

structure InCentury (t : GPSTime) : Prop where
  valid : t.Valid
  century : 0 ≤ t.year ∧ t.year < 100
  double : Binary64.Representable t.actPointSec

instance (t : GPSTime) : Decidable t.InCentury :=
  decidable_of_iff (t.Valid ∧ (0 ≤ t.year ∧ t.year < 100) ∧ Binary64.Representable t.actPointSec)
    ⟨fun h => ⟨h.1, h.2.1, h.2.2⟩, fun h => ⟨h.1, h.2, h.3⟩⟩

structure InColumns (t : GPSTime) : Prop where
  year : 0 ≤ t.year ∧ t.year < 10 ^ 2
  month : 0 ≤ t.month ∧ t.month < 10 ^ 2
  day : 0 ≤ t.day ∧ t.day < 10 ^ 2
  hour : 0 ≤ t.hour ∧ t.hour < 10 ^ 2
  min : 0 ≤ t.min ∧ t.min < 10 ^ 2
  sec : 0 ≤ t.sec ∧ t.sec < 10 ^ 2
  ticks : 0 ≤ t.ticks ∧ t.ticks < 10 ^ 8

section Ticks

variable {a b t : GPSTime}

theorem InCentury.scaled (within : t.InCentury) :
    0 ≤ t.actPointSec * 100000000 ∧ |t.actPointSec * 100000000| < 2 ^ (27 : ℤ) := by
  obtain ⟨lower, upper⟩ := within.valid.fraction
  have nonneg : 0 ≤ t.actPointSec * 100000000 := mul_nonneg lower (by norm_num)
  rw [abs_of_nonneg nonneg]
  norm_num
  exact ⟨lower, by linarith⟩

/-- What is printed is the fraction cut off, or one step more where the product is rounded
up to it. -/
theorem ticks_eq (within : t.InCentury) : t.ticks =
    if t.actPointSec * 100000000 < t.wholeTicks + 1 - Binary64.ulp (t.actPointSec * 100000000) / 2 then t.wholeTicks
    else t.wholeTicks + 1 :=
  Binary64.floor_toDouble (within.scaled.2.trans (by norm_num))

/-- The last double before one is far enough from it for the product to stay below `10 ^ 8`. -/
theorem ticks_bounds (within : t.InCentury) : 0 ≤ t.ticks ∧ t.ticks < 10 ^ 8 := by
  obtain ⟨nonneg, small⟩ := within.scaled
  refine ⟨Int.floor_nonneg.mpr (Binary64.toDouble_nonneg nonneg), Int.floor_lt.mpr ?_⟩
  rcases eq_or_ne (t.actPointSec * 100000000) 0 with zero | nonzero
  · rw [zero, Binary64.toDouble_zero]
    norm_num
  · rw [Binary64.toDouble_lt_intCast_iff nonzero (small.trans (by norm_num))]
    have last := within.double.le_pred_one within.valid.fraction.2
    have place := Binary64.lastPlace_lt (by norm_num) nonzero small
    have half : Binary64.ulp (t.actPointSec * 100000000) ≤ 2 ^ (-26 : ℤ) :=
      zpow_le_zpow_right₀ (by norm_num) (by omega)
    norm_num at last half ⊢
    linarith

theorem ticks_mono (nonneg : 0 ≤ a.actPointSec) (ordered : a.actPointSec ≤ b.actPointSec) : a.ticks ≤ b.ticks :=
  Int.floor_le_floor (Binary64.toDouble_mono (mul_nonneg nonneg (by norm_num))
    (mul_le_mul_of_nonneg_right ordered (by norm_num)))

/-- Times that differ in print differ the same way. -/
theorem lt_of_withTicks_lt (nonneg : 0 ≤ b.actPointSec)
    (printed : (a.withTicks a.ticks).stamp < (b.withTicks b.ticks).stamp) : a.stamp < b.stamp := by
  have fraction : a.ticks < b.ticks → a.actPointSec < b.actPointSec := fun less =>
    not_le.mp fun above => absurd (ticks_mono nonneg above) (not_le.mpr less)
  rw [withTicks_lt] at printed
  rw [stamp_lt]
  tauto

theorem InCentury.inColumns (within : t.InCentury) : t.InColumns := by
  have ticks := ticks_bounds within
  obtain ⟨⟨⟨month, day, hour, minute, second⟩, _⟩, year, _⟩ := within
  have days := Gregorian.daysInMonth_bounds t.civil.year t.civil.month
  simp only [civil] at month day hour minute second days
  exact ⟨by omega, by omega, by omega, by omega, by omega, by omega, ticks⟩

end Ticks

end GPSTime

def minuteColumns (t : GPSTime) (rest : List Char) : List Char :=
  column 2 t.year.toNat ++ (column 2 t.month.toNat ++ (column 2 t.day.toNat ++
    (column 2 t.hour.toNat ++ (column 2 t.min.toNat ++ rest))))

def secondColumns (t : GPSTime) : List Char := column 2 t.sec.toNat ++ '.' :: (column 8 t.ticks.toNat ++ [])

section Columns

variable {a b t : GPSTime} {s s' : List Char}

/-- Every field has its fixed width. -/
theorem getTimeStr_eq (within : t.InCentury) : getTimeStr t = minuteColumns t (secondColumns t) := by
  obtain ⟨year, month, day, hour, min, sec, ticks⟩ := within.inColumns
  have fraction : truncate (Binary64.toDouble (t.actPointSec * 100000000)) = t.ticks :=
    truncate_of_nonneg (Binary64.toDouble_nonneg within.scaled.1)
  have two {n : ℤ} (bounds : 0 ≤ n ∧ n < 10 ^ 2) : padded 2 n = column 2 n.toNat :=
    padded_eq_column (by norm_num) bounds.1 bounds.2
  have eight : padded 8 t.ticks = column 8 t.ticks.toNat := padded_eq_column (by norm_num) ticks.1 ticks.2
  simp only [getTimeStr, fraction, two year, two month, two day, two hour, two min, two sec, eight, minuteColumns,
    secondColumns, List.append_assoc, List.append_nil]

theorem minuteColumns_lt (ca : a.InColumns) (cb : b.InColumns) :
    minuteColumns a s < minuteColumns b s' ↔
      a.year < b.year ∨ a.year = b.year ∧ (a.month < b.month ∨ a.month = b.month ∧
        (a.day < b.day ∨ a.day = b.day ∧ (a.hour < b.hour ∨ a.hour = b.hour ∧
          (a.min < b.min ∨ a.min = b.min ∧ s < s')))) := by
  rw [minuteColumns, minuteColumns, toNat_append_lt ca.year cb.year, toNat_append_lt ca.month cb.month,
    toNat_append_lt ca.day cb.day, toNat_append_lt ca.hour cb.hour, toNat_append_lt ca.min cb.min]

theorem minuteColumns_inj (ca : a.InColumns) (cb : b.InColumns) :
    minuteColumns a s = minuteColumns b s' ↔ GPSTime.SameMinute a b ∧ s = s' := by
  rw [minuteColumns, minuteColumns, toNat_append_inj ca.year cb.year, toNat_append_inj ca.month cb.month,
    toNat_append_inj ca.day cb.day, toNat_append_inj ca.hour cb.hour, toNat_append_inj ca.min cb.min]
  simp only [GPSTime.SameMinute, and_assoc]

theorem secondColumns_lt (ca : a.InColumns) (cb : b.InColumns) :
    secondColumns a < secondColumns b ↔ a.sec < b.sec ∨ a.sec = b.sec ∧ a.ticks < b.ticks := by
  rw [secondColumns, secondColumns, toNat_append_lt ca.sec cb.sec, List.cons_lt_cons_iff,
    toNat_append_lt ca.ticks cb.ticks]
  simp

theorem secondColumns_inj (ca : a.InColumns) (cb : b.InColumns) :
    secondColumns a = secondColumns b ↔ a.sec = b.sec ∧ a.ticks = b.ticks := by
  rw [secondColumns, secondColumns, toNat_append_inj ca.sec cb.sec, List.cons_eq_cons,
    toNat_append_inj ca.ticks cb.ticks]
  simp

/-- The first ten characters are the minute. -/
theorem take_getTimeStr (within : t.InCentury) : (getTimeStr t).take 10 = minuteColumns t [] := by
  have front : minuteColumns t (secondColumns t) = minuteColumns t [] ++ secondColumns t := by
    simp only [minuteColumns, List.append_assoc, List.nil_append]
  rw [getTimeStr_eq within, front]
  exact List.take_left' (by simp [minuteColumns])

/-- The longest of the three prefixes in the name decides the others. -/
theorem getLocFileName_eq_iff (filePath : List Char) (long : (getTimeStr a).length = (getTimeStr b).length) :
    getLocFileName filePath a = getLocFileName filePath b ↔ (getTimeStr a).take 10 = (getTimeStr b).take 10 := by
  simp only [getLocFileName, getTimeString, List.append_assoc, List.cons_append, List.append_cancel_left_eq,
    List.cons_inj_right]
  constructor
  · intro same
    obtain ⟨_, afterSix⟩ := List.append_inj same (by simp [long])
    obtain ⟨_, afterEight⟩ := List.append_inj (List.cons.inj afterSix).2 (by simp [long])
    exact (List.append_inj (List.cons.inj afterEight).2 (by simp [long])).1
  · intro same
    have six : (getTimeStr a).take 6 = (getTimeStr b).take 6 := by
      simpa [List.take_take] using congrArg (List.take 6) same
    have eight : (getTimeStr a).take 8 = (getTimeStr b).take 8 := by
      simpa [List.take_take] using congrArg (List.take 8) same
    rw [six, eight, same]

end Columns

/-- The compact form has 21 characters and orders times as printed, the fraction in the
steps of 10 ns the rounded product has; later times never print less, and the file the
form names is the minute's. -/
theorem time_str_ordered (filePath : List Char) {a b : GPSTime} (wa : a.InCentury) (wb : b.InCentury) :
    (getTimeStr a).length = 21 ∧ (getTimeStr a).length + 1 ≤ 24 ∧
    (getTimeStr a < getTimeStr b ↔ (a.withTicks a.ticks).lt (b.withTicks b.ticks) = true) ∧
    (getTimeStr a = getTimeStr b ↔ a.year = b.year ∧ a.month = b.month ∧ a.day = b.day ∧ a.hour = b.hour ∧
      a.min = b.min ∧ a.sec = b.sec ∧ a.ticks = b.ticks) ∧
    (a.ticks = if a.actPointSec * 100000000 < a.wholeTicks + 1 - Binary64.ulp (a.actPointSec * 100000000) / 2
      then a.wholeTicks else a.wholeTicks + 1) ∧
    (a.le b = true → getTimeStr a ≤ getTimeStr b) ∧
    (getLocFileName filePath a = getLocFileName filePath b ↔ GPSTime.SameMinute a b) := by
  have length {t : GPSTime} (within : t.InCentury) : (getTimeStr t).length = 21 := by
    rw [getTimeStr_eq within]
    simp [minuteColumns, secondColumns]
  have ordered {a b : GPSTime} (wa : a.InCentury) (wb : b.InCentury) :
      getTimeStr a < getTimeStr b ↔ (a.withTicks a.ticks).stamp < (b.withTicks b.ticks).stamp := by
    rw [getTimeStr_eq wa, getTimeStr_eq wb, minuteColumns_lt wa.inColumns wb.inColumns,
      secondColumns_lt wa.inColumns wb.inColumns, GPSTime.withTicks_lt]
  refine ⟨length wa, by rw [length wa]; norm_num, ?_, ?_, GPSTime.ticks_eq wa, ?_, ?_⟩
  · rw [ordered wa wb, GPSTime.lt_iff]
  · rw [getTimeStr_eq wa, getTimeStr_eq wb, minuteColumns_inj wa.inColumns wb.inColumns,
      secondColumns_inj wa.inColumns wb.inColumns]
    simp only [GPSTime.SameMinute, and_assoc]
  · intro below
    refine not_lt.mp fun above => not_lt.mpr (GPSTime.le_iff.mp below) ?_
    exact GPSTime.lt_of_withTicks_lt wa.valid.fraction.1 ((ordered wb wa).mp above)
  · rw [getLocFileName_eq_iff filePath ((length wa).trans (length wb).symm), take_getTimeStr wa,
      take_getTimeStr wb, minuteColumns_inj wa.inColumns wb.inColumns,
      and_iff_left rfl]

theorem time_str_ordered_new_year :
    (getTimeStr (GPSTime.ofFields 24 12 31 23 59 59 (Binary64.toDouble 0.99999999))).length = 21 ∧
    getTimeStr (GPSTime.ofFields 24 12 31 23 59 59 (Binary64.toDouble 0.99999999)) <
      getTimeStr (GPSTime.ofFields 25 1 1 0 0 0 0) := by
  obtain ⟨length, _, ordered, _⟩ := time_str_ordered "lig_txt".toList
    (show (GPSTime.ofFields 24 12 31 23 59 59 (Binary64.toDouble 0.99999999)).InCentury by decide +kernel)
    (show (GPSTime.ofFields 25 1 1 0 0 0 0).InCentury by decide +kernel)
  exact ⟨length, ordered.mpr (by decide +kernel)⟩

/-- The double next to 50 ns is below it, and its product is rounded to 5: it prints as its
successor does, which is above. -/
theorem time_str_rounds_up : ∃ a b : GPSTime, a.InCentury ∧ b.InCentury ∧ GPSTime.SameMinute a b ∧ a.sec = b.sec ∧
    a.wholeTicks = 4 ∧ b.wholeTicks = 5 ∧ (a.withTicks a.wholeTicks).lt (b.withTicks b.wholeTicks) = true ∧
    getTimeStr a = getTimeStr b ∧ ¬ getTimeStr a < getTimeStr b := by
  refine ⟨.ofFields 24 4 20 20 5 17 (Binary64.toDouble 0.00000005),
    .ofFields 24 4 20 20 5 17 (Binary64.toDouble 0.00000005 + Binary64.ulp 0.00000005), ?_⟩
  decide +kernel

end LigDataParsing
