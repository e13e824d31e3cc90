import LigDataParsing.Located

/-! The time of a reported event. The solver sees seconds of a minute only, and the date
is put back from the first trigger of the combination. -/
namespace LigDataParsing

open Lookup

/-- Propagation time over half the circumference of the earth. -/
def propagationLimit : ℚ := Params.pi * Params.earthR / Params.cVeo

def TriggerInfo.seconds (t : TriggerInfo) : ℚ := t.time.sec + t.time.actPointSec

theorem propagationLimit_lt : propagationLimit + 0.0001 < 1 := by
  norm_num [propagationLimit, Params.pi, Params.earthR, Params.cVeo]

theorem seconds_bounds {t : TriggerInfo} (valid : t.time.Valid) : 0 ≤ t.seconds ∧ t.seconds < 60 := by
  obtain ⟨lower, upper⟩ := valid.calendar.second
  obtain ⟨nonneg, below⟩ := valid.fraction
  simp only [GPSTime.civil] at lower upper
  have whole : (t.time.sec : ℚ) + 1 ≤ 60 := by exact_mod_cast upper
  have start : (0 : ℚ) ≤ t.time.sec := by exact_mod_cast lower
  constructor
  · simp only [TriggerInfo.seconds]
    linarith
  · simp only [TriggerInfo.seconds]
    linarith

/-- Within one minute the seconds differ as the absolute times do. -/
theorem instant_sub_seconds {a b : TriggerInfo} (same : GPSTime.SameMinute a.time b.time) :
    a.time.instant - a.seconds = b.time.instant - b.seconds := by
  rw [GPSTime.instant_eq, GPSTime.instant_eq, same.minutes, TriggerInfo.seconds, TriggerInfo.seconds]
  ring

theorem diffBe2s_zero {locTime : List ℚ} {first last : ℚ} (head : locTime.head? = some first)
    (final : locTime.getLast? = some last) : (diffBe2s locTime)[0]? = some ((first - last) * Params.cVeo) := by
  have nonempty : 0 < locTime.length := List.length_pos_of_mem (List.mem_of_mem_head? head)
  have start : locTime.getD 0 0 = first := by
    rw [List.getD_eq_getElem?_getD, ← List.head?_eq_getElem?, head, Option.getD_some]
  have finish : locTime.getD (locTime.length - 1) 0 = last := by
    rw [List.getD_eq_getElem?_getD, ← List.getLast?_eq_getElem?, final, Option.getD_some]
  rw [diffBe2s, List.getElem?_map, List.getElem?_range nonempty, Option.map_some, if_pos rfl, start, finish]

theorem diffBe2s_succ {locTime : List ℚ} {m : ℕ} {earlier later : ℚ} (before : locTime[m]? = some earlier)
    (after : locTime[m + 1]? = some later) :
    (diffBe2s locTime)[m + 1]? = some ((later - earlier) * Params.cVeo) := by
  obtain ⟨inside, _⟩ := List.getElem?_eq_some_iff.mp after
  rw [diffBe2s, List.getElem?_map, List.getElem?_range inside, Option.map_some, if_neg m.succ_ne_zero,
    Nat.add_sub_cancel, List.getD_eq_getElem?_getD, List.getD_eq_getElem?_getD, before, after, Option.getD_some,
    Option.getD_some]

/-- The entries are the light paths between the arrivals at neighbouring stations of the
combination, in absolute time; the first closes the cycle. -/
structure PathDifferences (utcOffset : ℤ) (comb : List TriggerInfo) (diffs : List ℚ) : Prop where
  length : diffs.length = comb.length
  closing : ∀ first last, comb.head? = some first → comb.getLast? = some last →
    diffs[0]? = some (Params.cVeo * (getPosixTime utcOffset first.time - getPosixTime utcOffset last.time))
  neighbours : ∀ m earlier later, comb[m]? = some earlier → comb[m + 1]? = some later →
    diffs[m + 1]? = some (Params.cVeo * (getPosixTime utcOffset later.time - getPosixTime utcOffset earlier.time))

section Combination

variable {triggerPool : TriggerPool} {siteTimeMap : SiteTimeMap} {nCombStas : ℕ} {comb : List TriggerInfo}

theorem combination_valid (valid : ∀ list ∈ poolTriggers triggerPool, ∀ t ∈ list, t.time.Valid)
    (member : comb ∈ (getLocationPoolP triggerPool siteTimeMap nCombStas).combinationPool) :
    ∀ t ∈ comb, t.time.Valid := by
  intro t inComb
  obtain ⟨list, inLists, inList⟩ := (getLocationPoolP_sound member).1 t inComb
  exact valid list inLists t inList

theorem combination_close (bounded : ∀ a b, siteTimeMap.value a b ≤ propagationLimit)
    (member : comb ∈ (getLocationPoolP triggerPool siteTimeMap nCombStas).combinationPool) :
    ∀ a ∈ comb, ∀ b ∈ comb, |a.time.sub b.time| ≤ propagationLimit + 0.0001 := by
  have pairs : comb.Pairwise fun a b => |a.time.sub b.time| ≤ propagationLimit + 0.0001 := by
    refine (getLocationPoolP_sound member).2.imp fun {a b} fits => ?_
    have near := of_decide_eq_true fits
    rw [GPSTime.sub_neg, abs_neg] at near
    linarith [bounded a.stationID b.stationID]
  have : Std.Symm fun a b : TriggerInfo => |a.time.sub b.time| ≤ propagationLimit + 0.0001 :=
    ⟨fun a b close => by rwa [GPSTime.sub_neg, abs_neg]⟩
  apply pairs.forall_of_forall
  intro a _
  rw [GPSTime.sub_self, abs_zero]
  norm_num [propagationLimit, Params.pi, Params.earthR, Params.cVeo]

theorem combination_sameMinute (valid : ∀ t ∈ comb, t.time.Valid)
    (close : ∀ a ∈ comb, ∀ b ∈ comb, |a.time.sub b.time| ≤ propagationLimit + 0.0001) :
    ∀ a ∈ comb, ∀ b ∈ comb, GPSTime.SameMinute a.time b.time := by
  intro a inComb b inComb'
  apply GPSTime.sameMinute_of_abs_sub_lt (valid a inComb) (valid b inComb')
  linarith [close a inComb b inComb', propagationLimit_lt]

/-- The seconds of the minute give the differences of the absolute times. -/
theorem pathDifferences_locTimeOne (utcOffset : ℤ) (valid : ∀ t ∈ comb, t.time.Valid)
    (same : ∀ a ∈ comb, ∀ b ∈ comb, GPSTime.SameMinute a.time b.time) :
    PathDifferences utcOffset comb (diffBe2s (locTimeOne comb)) := by
  have apart : ∀ a ∈ comb, ∀ b ∈ comb, (a.seconds - b.seconds) * Params.cVeo =
      Params.cVeo * (getPosixTime utcOffset a.time - getPosixTime utcOffset b.time) := by
    intro a inComb b inComb'
    have shift := instant_sub_seconds (same a inComb b inComb')
    have elapsed : a.time.instant - b.time.instant = a.seconds - b.seconds := by linarith
    rw [GPSTime.getPosixTime_eq utcOffset (valid a inComb).calendar,
      GPSTime.getPosixTime_eq utcOffset (valid b inComb').calendar, sub_sub_sub_cancel_right, elapsed, mul_comm]
  refine ⟨by simp [diffBe2s, locTimeOne], ?_, ?_⟩
  · intro first last head final
    have atFirst : (locTimeOne comb).head? = some first.seconds := by
      rw [locTimeOne, List.head?_map, head]
      rfl
    have atLast : (locTimeOne comb).getLast? = some last.seconds := by
      rw [locTimeOne, List.getLast?_map, final]
      rfl
    rw [diffBe2s_zero atFirst atLast, apart first (List.mem_of_mem_head? head) last (List.mem_of_mem_getLast? final)]
  · intro m earlier later before after
    have left : (locTimeOne comb)[m]? = some earlier.seconds := by
      rw [locTimeOne, List.getElem?_map, before]
      rfl
    have right : (locTimeOne comb)[m + 1]? = some later.seconds := by
      rw [locTimeOne, List.getElem?_map, after]
      rfl
    rw [diffBe2s_succ left right, apart later (List.mem_of_getElem? after) earlier (List.mem_of_getElem? before)]

/-- The trigger at the position of the least arrival time has the least second. -/
theorem firstLeast_locTimeOne (nonempty : comb ≠ []) :
    ∃ earliest, comb[Extremum.firstLeast (locTimeOne comb)]? = some earliest ∧
      (locTimeOne comb).getD (Extremum.firstLeast (locTimeOne comb)) 0 = earliest.seconds ∧
      ∀ t ∈ comb, earliest.seconds ≤ t.seconds := by
  obtain ⟨found, held, least⟩ := Extremum.firstLeast_spec (l := locTimeOne comb) (by simpa [locTimeOne] using nonempty)
  obtain ⟨earliest, queued, rfl⟩ := Option.map_eq_some_iff.mp (List.getElem?_map ▸ held)
  refine ⟨earliest, queued, ?_, fun t inComb => least t.seconds (List.mem_map_of_mem inComb)⟩
  rw [List.getD_eq_getElem?_getD, held]
  rfl

theorem combination_earliest (valid : ∀ t ∈ comb, t.time.Valid)
    (same : ∀ a ∈ comb, ∀ b ∈ comb, GPSTime.SameMinute a.time b.time) (nonempty : comb ≠ []) :
    ∃ earliest, comb[Extremum.firstLeast (locTimeOne comb)]? = some earliest ∧
      (locTimeOne comb).getD (Extremum.firstLeast (locTimeOne comb)) 0 = earliest.seconds ∧
      ∀ t ∈ comb, earliest.seconds ≤ t.seconds ∧ earliest.time.stamp ≤ t.time.stamp := by
  obtain ⟨earliest, queued, seconds, least⟩ := firstLeast_locTimeOne nonempty
  have member := List.mem_of_getElem? queued
  refine ⟨earliest, queued, seconds, fun t inComb => ?_⟩
  have below := least t inComb
  refine ⟨below, (GPSTime.instant_le_iff (valid earliest member) (valid t inComb)).mp ?_⟩
  have apart := instant_sub_seconds (same earliest member t inComb)
  linarith

/-- Replacing the second of the first trigger by the occurrence time gives the instant
of the event; a negative second borrows from a second that is zero. -/
theorem setSecond_event (utcOffset : ℤ) {first earliest : TriggerInfo} (valid : first.time.Valid)
    (validEarliest : earliest.time.Valid) (same : GPSTime.SameMinute first.time earliest.time)
    (close : |first.time.sub earliest.time| ≤ propagationLimit + 0.0001) {travel : ℚ}
    (travelBounds : 0 ≤ travel ∧ travel ≤ propagationLimit) :
    (first.time.setSecond utcOffset (earliest.seconds - travel)).Valid ∧
    (first.time.setSecond utcOffset (earliest.seconds - travel)).instant = earliest.time.instant - travel := by
  have limit := propagationLimit_lt
  have bounds := seconds_bounds validEarliest
  have start : earliest.time.instant - travel = 60 * first.time.minutes + (earliest.seconds - travel) := by
    rw [GPSTime.instant_eq, same.minutes, TriggerInfo.seconds]
    ring
  rw [start]
  rcases le_or_gt 0 (earliest.seconds - travel) with nonneg | negative
  · exact GPSTime.setSecond_of_nonneg utcOffset valid nonneg (by linarith)
  · have difference : first.time.sub earliest.time = first.seconds - earliest.seconds := by
      have apart := instant_sub_seconds same
      rw [same.sub_eq]
      linarith
    rw [difference, abs_le] at close
    have small : (propagationLimit : ℚ) < 1 / 2 - 0.0001 := by
      norm_num [propagationLimit, Params.pi, Params.earthR, Params.cVeo]
    have whole : first.time.sec = 0 := by
      have lower : 0 ≤ first.time.sec := valid.calendar.second.1
      have fraction := valid.fraction.1
      have upper : (first.time.sec : ℚ) < 1 := by
        have := close.2
        simp only [TriggerInfo.seconds] at this negative bounds
        linarith
      have : first.time.sec < 1 := by exact_mod_cast upper
      omega
    exact GPSTime.setSecond_of_neg utcOffset valid whole (by linarith) negative

end Combination

namespace Sample

def pool (triggers : List TriggerInfo) : TriggerPool :=
  triggers.foldl (fun pool t => pool.insert t.stationID ⟨[t], LocSta.ofPosition 0 0 0, t.stationID⟩) .empty

def location3D (_ : LocPara) (_ : List LocSta) (_ : List ℚ) : LocSta := ⟨0, 0, 5, 60, 0⟩

def stations : List LocSta := List.replicate 5 (LocSta.ofPosition 0 0 0)

end Sample

end LigDataParsing
