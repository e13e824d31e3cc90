import Mathlib.Algebra.BigOperators.Fin
import Mathlib.Algebra.BigOperators.Intervals
import Mathlib.Analysis.SpecialFunctions.Complex.Arg
import LigDataParsing.LocStruct

/-! Differences of neighbours around a cycle of `n` values, each value taken from the one
before it and the first from the last. -/
namespace Cyclic

variable {G : Type*} [AddCommGroup G] (f : ℕ → G) (n : ℕ)

/-- The position before `i` on the cycle `0, 1, …, n - 1`. -/
def before (i : ℕ) : ℕ := if i = 0 then n - 1 else i - 1

def gap (i : ℕ) : G := f (before n i) - f i

theorem before_lt {n i : ℕ} (inside : i < n) : before n i < n := by
  unfold before
  split_ifs <;> omega

/-- Around the whole cycle the differences cancel. -/
theorem sum_gap : ∑ i ∈ Finset.range n, gap f n i = 0 := by
  cases n with
  | zero => rfl
  | succ m =>
    have first : gap f (m + 1) 0 = f m - f 0 := rfl
    have later (i : ℕ) : gap f (m + 1) (i + 1) = f i - f (i + 1) := rfl
    rw [Finset.sum_range_succ', first]
    simp only [later]
    rw [Finset.sum_range_sub', sub_add_sub_cancel, sub_self]

/-- The differences all vanish exactly when the values are all the same. -/
theorem gap_eq_zero_iff : (∀ i < n, gap f n i = 0) ↔ ∀ i < n, f i = f 0 := by
  constructor
  · intro level i
    induction i with
    | zero => exact fun _ => rfl
    | succ i ih =>
      intro inside
      have step : f i - f (i + 1) = 0 := level (i + 1) inside
      rw [← sub_eq_zero.mp step]
      exact ih (by omega)
  · intro constant i inside
    rw [gap, constant i inside, constant _ (before_lt inside), sub_self]

end Cyclic

/-! The two cost functions of the optimisation. Both are templates over a scalar type with
its own mathematical functions; residuals go to a buffer the caller provides. -/
namespace LigDataParsing

section Functors

variable {T : Type*} [Field T] (m : Cmath T)

/-- The distance in `CostFunctor`, with the half angle from `atan2`. -/
def costDist (st : LocSta) (lat lon h : T) : T :=
  let dlon := (st.lon : T) - lon
  let dlat := (st.lat : T) - lat
  let a := m.sin (dlat / 2) * m.sin (dlat / 2) + m.cos lat * m.cos (st.lat : T) * m.sin (dlon / 2) * m.sin (dlon / 2)
  let c := 2 * m.atan2 (m.sqrt a) (m.sqrt (1 - a))
  let hdist := c * (Params.earthR : T)
  m.sqrt (((st.h : T) - h) ^ 2 + hdist ^ 2)

/-- The distance in `CostFunctor_2`, with the half angle from `asin`. -/
def costDist2 (st : LocSta) (lat lon h : T) : T :=
  let dlon := (st.lon : T) - lon
  let dlat := (st.lat : T) - lat
  let c1 := m.cos lat
  let c2 := m.cos (st.lat : T)
  let d1 := m.sin (dlat / 2.0)
  let d2 := m.sin (dlon / 2.0)
  let hdist := 2.0 * (Params.earthR : T) * m.asin (m.sqrt (d1 * d1 + c1 * c2 * d2 * d2))
  m.sqrt (((st.h : T) - h) ^ 2 + hdist ^ 2)

def stationAt (stations : List LocSta) (i : ℕ) : LocSta := stations.getD i (LocSta.ofPosition 0 0 0)

def costFunctor (t : List ℚ) (stations : List LocSta) (lat lon h t0 : T) (residual : List T) : List T :=
  (List.range stations.length).foldl
    (fun residual i =>
      let dist := costDist m (stationAt stations i) lat lon h
      let tt := dist / (Params.cVeo : T)
      residual.set i ((t.getD i 0 : ℚ) - tt - t0))
    residual

/-- The variables the loop of `CostFunctor_2` carries along. -/
structure Rolling (T : Type*) where
  dis1 : T
  residual : List T

def costStep (t : List ℚ) (stations : List LocSta) (lat lon h : T) (s : Rolling T) (i : ℕ) : Rolling T :=
  let dis2 := s.dis1
  let dis1 := costDist2 m (stationAt stations i) lat lon h
  ⟨dis1, s.residual.set i (dis1 - dis2 - ((t.getD i 0 : ℚ) - (t.getD (i - 1) 0 : ℚ)) * (Params.cVeo : T))⟩

def costFunctor2 (t : List ℚ) (stations : List LocSta) (lat lon h : T) (residual : List T) : List T :=
  let disSta9 := costDist2 m (stationAt stations 0) lat lon h
  let s := (List.range' 1 (stations.length - 1)).foldl (costStep m t stations lat lon h) ⟨disSta9, residual⟩
  s.residual.set 0
    (disSta9 - s.dis1 - ((t.getD 0 0 : ℚ) - (t.getD (stations.length - 1) 0 : ℚ)) * (Params.cVeo : T))

end Functors

section Residuals

variable {T : Type*} [Field T] {m : Cmath T} {t : List ℚ} {stations : List LocSta} {lat lon h : T}

theorem getD_set {l : List T} {i j : ℕ} {v : T} (inside : i < l.length) :
    (l.set i v).getD j 0 = if i = j then v else l.getD j 0 := by
  rw [List.getD_eq_getElem?_getD, List.getElem?_set]
  split_ifs with same
  · rfl
  · rw [List.getD_eq_getElem?_getD]

theorem written_below (f : ℕ → T) (buffer : List T) {k : ℕ} (room : k ≤ buffer.length) :
    ((List.range k).foldl (fun l i => l.set i (f i)) buffer).length = buffer.length ∧
    ∀ j < k, ((List.range k).foldl (fun l i => l.set i (f i)) buffer).getD j 0 = f j := by
  induction k with
  | zero => exact ⟨rfl, fun j below => absurd below (Nat.not_lt_zero j)⟩
  | succ k ih =>
    obtain ⟨length, written⟩ := ih (by omega)
    rw [List.range_succ, List.foldl_append, List.foldl_cons, List.foldl_nil]
    refine ⟨by rw [List.length_set, length], fun j below => ?_⟩
    rw [getD_set (by omega)]
    split_ifs with last
    · rw [last]
    · exact written j (by omega)

theorem costFunctor_spec (t0 : T) {residual : List T} (room : residual.length = stations.length) {i : ℕ}
    (inside : i < stations.length) :
    (costFunctor m t stations lat lon h t0 residual).getD i 0 =
      (t.getD i 0 : ℚ) - costDist m (stationAt stations i) lat lon h / (Params.cVeo : T) - t0 :=
  (written_below _ residual room.ge).2 i inside

/-- After the places up to `k` the loop of `CostFunctor_2` holds the last distance and
has written these places but the first. -/
structure RolledTo (m : Cmath T) (t : List ℚ) (stations : List LocSta) (lat lon h : T) (k : ℕ) (s : Rolling T) :
    Prop where
  dis1 : s.dis1 = costDist2 m (stationAt stations k) lat lon h
  room : s.residual.length = stations.length
  written : ∀ j, 1 ≤ j → j ≤ k → s.residual.getD j 0 =
    costDist2 m (stationAt stations j) lat lon h - costDist2 m (stationAt stations (j - 1)) lat lon h -
      ((t.getD j 0 : ℚ) - (t.getD (j - 1) 0 : ℚ)) * (Params.cVeo : T)

theorem RolledTo.step {k : ℕ} {s : Rolling T} (rolled : RolledTo m t stations lat lon h k s)
    (inside : k + 1 < stations.length) :
    RolledTo m t stations lat lon h (k + 1) (costStep m t stations lat lon h s (k + 1)) := by
  obtain ⟨dis1, room, written⟩ := rolled
  refine ⟨rfl, by rw [costStep, List.length_set, room], fun j positive below => ?_⟩
  rw [costStep, getD_set (by omega)]
  split_ifs with last
  · rw [← last, dis1]
    rfl
  · exact written j positive (by omega)

theorem rolledTo (t : List ℚ) (lat lon h : T) {residual : List T} (room : residual.length = stations.length) (k : ℕ)
    (inside : k < stations.length) :
    RolledTo m t stations lat lon h k ((List.range' 1 k).foldl (costStep m t stations lat lon h)
      ⟨costDist2 m (stationAt stations 0) lat lon h, residual⟩) := by
  induction k with
  | zero => exact ⟨rfl, room, fun j positive below => by omega⟩
  | succ k ih =>
    rw [List.range'_1_concat, List.foldl_append, List.foldl_cons, List.foldl_nil, Nat.add_comm 1 k]
    exact (ih (by omega)).step inside

/-- Every residual of `CostFunctor_2` compares a station with the one before it on the cycle. -/
theorem costFunctor2_spec {residual : List T} (room : residual.length = stations.length) {i : ℕ}
    (inside : i < stations.length) :
    (costFunctor2 m t stations lat lon h residual).getD i 0 =
      costDist2 m (stationAt stations i) lat lon h -
        costDist2 m (stationAt stations (Cyclic.before stations.length i)) lat lon h -
        ((t.getD i 0 : ℚ) - (t.getD (Cyclic.before stations.length i) 0 : ℚ)) * (Params.cVeo : T) := by
  obtain ⟨dis1, length, written⟩ := rolledTo (m := m) t lat lon h room (stations.length - 1) (by omega)
  rw [costFunctor2, getD_set (by omega), Cyclic.before]
  by_cases first : i = 0
  · subst first
    rw [if_pos rfl, if_pos rfl, dis1]
  · rw [if_neg (Ne.symm first), if_neg first]
    exact written i (by omega) (by omega)

end Residuals

/-- The two half angles of the haversine are one function. -/
def Cmath.OneHaversine {T : Type*} [Field T] (m : Cmath T) : Prop :=
  ∀ a, m.atan2 (m.sqrt a) (m.sqrt (1 - a)) = m.asin (m.sqrt a)

theorem costDist_eq {T : Type*} [Field T] [CharZero T] {m : Cmath T} (one : m.OneHaversine) (st : LocSta)
    (lat lon h : T) :
    costDist m st lat lon h = costDist2 m st lat lon h := by
  have two : (2.0 : T) = 2 := by norm_num
  simp only [costDist, costDist2, two, one _]
  ring_nf

/-- The residuals of the second cost function are the cyclic differences of those of the
first, in kilometres: they cancel around the cycle, and they vanish where some time of
occurrence makes the others vanish. -/
theorem cost_functors_agree {T : Type*} [Field T] [CharZero T] {m : Cmath T} (one : m.OneHaversine)
    {t : List ℚ} {stations : List LocSta} (nonempty : stations ≠ []) (lat lon h : T)
    {buffer buffer2 : List T} (room : buffer.length = stations.length) (room2 : buffer2.length = stations.length) :
    let n := stations.length
    let q := costFunctor2 m t stations lat lon h buffer2
    let r := fun t0 => costFunctor m t stations lat lon h t0 buffer
    (∀ t0, (∀ i, 1 ≤ i → i < n → q.getD i 0 = (Params.cVeo : T) * ((r t0).getD (i - 1) 0 - (r t0).getD i 0)) ∧
      q.getD 0 0 = (Params.cVeo : T) * ((r t0).getD (n - 1) 0 - (r t0).getD 0 0)) ∧
    ∑ i ∈ Finset.range n, q.getD i 0 = 0 ∧
    ((∀ i < n, q.getD i 0 = 0) ↔ ∃ t0, ∀ i < n, (r t0).getD i 0 = 0) := by
  intro n q r
  have speed : (Params.cVeo : T) ≠ 0 := by
    rw [Ne, Rat.cast_eq_zero]
    norm_num [Params.cVeo]
  have gaps (t0 : T) (i : ℕ) (inside : i < n) :
      q.getD i 0 = (Params.cVeo : T) * Cyclic.gap (fun j => (r t0).getD j 0) n i := by
    have before := Cyclic.before_lt inside
    rw [costFunctor2_spec room2 inside, Cyclic.gap, costFunctor_spec t0 room inside, costFunctor_spec t0 room before,
      costDist_eq one, costDist_eq one]
    field_simp
    ring
  have positive : 0 < n := List.length_pos_iff.mpr nonempty
  refine ⟨fun t0 => ⟨fun i later inside => ?_, ?_⟩, ?_, ?_, ?_⟩
  · rw [gaps t0 i inside, Cyclic.gap, Cyclic.before, if_neg (by omega)]
  · rw [gaps t0 0 positive, Cyclic.gap, Cyclic.before, if_pos rfl]
  · rw [Finset.sum_congr rfl fun i member => gaps 0 i (Finset.mem_range.mp member), ← Finset.mul_sum,
      Cyclic.sum_gap, mul_zero]
  · intro level
    have closed : ∀ i < n, Cyclic.gap (fun j => (r 0).getD j 0) n i = 0 := by
      intro i inside
      have vanishes := level i inside
      rw [gaps 0 i inside] at vanishes
      exact (mul_eq_zero.mp vanishes).resolve_left speed
    have constant := (Cyclic.gap_eq_zero_iff _ n).mp closed
    refine ⟨(r 0).getD 0 0, fun i inside => ?_⟩
    have same : (r 0).getD i 0 = (r 0).getD 0 0 := constant i inside
    have shift : (r ((r 0).getD 0 0)).getD i 0 = (r 0).getD i 0 - (r 0).getD 0 0 := by
      rw [costFunctor_spec _ room inside, costFunctor_spec 0 room inside, sub_zero]
    rw [shift, same, sub_self]
  · rintro ⟨t0, zero⟩ i inside
    rw [gaps t0 i inside, Cyclic.gap, zero i inside, zero _ (Cyclic.before_lt inside), sub_self, mul_zero]

noncomputable def realMath : Cmath ℝ := ⟨Real.sin, Real.cos, Real.arcsin, Real.sqrt, fun y x => Complex.arg ⟨x, y⟩⟩

theorem realMath_oneHaversine : realMath.OneHaversine := by
  intro a
  change Complex.arg ⟨√(1 - a), √a⟩ = Real.arcsin √a
  rw [Complex.arg_of_re_nonneg (Real.sqrt_nonneg (1 - a)), Complex.norm_def, Complex.normSq_mk]
  rcases lt_or_ge a 0 with negative | nonneg
  · simp [Real.sqrt_eq_zero_of_nonpos negative.le]
  · rcases le_or_gt a 1 with inside | outside
    · rw [Real.mul_self_sqrt (sub_nonneg.mpr inside), Real.mul_self_sqrt nonneg, sub_add_cancel, Real.sqrt_one, div_one]
    · have right : √(1 - a) = 0 := Real.sqrt_eq_zero_of_nonpos (by linarith)
      have above : 1 ≤ √a := Real.one_le_sqrt.mpr outside.le
      rw [right, mul_zero, zero_add, Real.sqrt_mul_self (Real.sqrt_nonneg a), div_self (by linarith), Real.arcsin_one,
        Real.arcsin_of_one_le above]

namespace Sample

def threePositions : List LocSta :=
  [LocSta.ofPosition 0.5 2 0, LocSta.ofPosition 0.51 2 0, LocSta.ofPosition 0.5 2.01 1]

end Sample

theorem cost_functors_agree_real :
    let q := costFunctor2 realMath [17, 17.001, 17.002] Sample.threePositions 0.5 2 1 [0, 0, 0]
    let r := fun t0 => costFunctor realMath [17, 17.001, 17.002] Sample.threePositions 0.5 2 1 t0 [0, 0, 0]
    (∀ t0, q.getD 0 0 = (Params.cVeo : ℝ) * ((r t0).getD 2 0 - (r t0).getD 0 0) ∧
      q.getD 1 0 = (Params.cVeo : ℝ) * ((r t0).getD 0 0 - (r t0).getD 1 0) ∧
      q.getD 2 0 = (Params.cVeo : ℝ) * ((r t0).getD 1 0 - (r t0).getD 2 0)) ∧
    ∑ i ∈ Finset.range 3, q.getD i 0 = 0 ∧
    ((∀ i < 3, q.getD i 0 = 0) ↔ ∃ t0, ∀ i < 3, (r t0).getD i 0 = 0) := by
  have nonempty : Sample.threePositions ≠ [] := List.cons_ne_nil _ _
  have room : ([0, 0, 0] : List ℝ).length = Sample.threePositions.length := rfl
  obtain ⟨entries, total, level⟩ :=
    cost_functors_agree realMath_oneHaversine (t := [17, 17.001, 17.002]) nonempty 0.5 2 1 room room
  refine ⟨fun t0 => ?_, total, level⟩
  obtain ⟨later, closing⟩ := entries t0
  exact ⟨closing, later 1 le_rfl (by decide), later 2 (by decide) (by decide)⟩

end LigDataParsing
