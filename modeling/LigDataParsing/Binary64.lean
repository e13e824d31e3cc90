import Mathlib.Data.Int.Log
import Mathlib.Data.Rat.Floor
import Mathlib.Tactic.FieldSimp
import Mathlib.Tactic.Linarith
import Mathlib.Tactic.NormNum
import Mathlib.Tactic.Positivity
import Mathlib.Tactic.Ring

/-! Rounding to the nearest double, of two the even one, over exact rationals. The
exponents have a least value and no greatest: nothing here overflows. -/
namespace Binary64

/-- The nearest integer, of two the even one. -/
def nearest (q : ℚ) : ℤ :=
  if q - ⌊q⌋ < 1 / 2 then ⌊q⌋
  else if 1 / 2 < q - ⌊q⌋ then ⌊q⌋ + 1
  else if ⌊q⌋ % 2 = 0 then ⌊q⌋
  else ⌊q⌋ + 1

/-- The exponent of the last of the 53 binary places a double of the size of `x` has. -/
def lastPlace (x : ℚ) : ℤ := max (Int.log 2 |x| - 52) (-1074)

/-- The distance of neighbouring doubles around `x`. -/
def ulp (x : ℚ) : ℚ := 2 ^ lastPlace x

def toDouble (x : ℚ) : ℚ := nearest (x / ulp x) * ulp x

def Representable (x : ℚ) : Prop := toDouble x = x

instance (x : ℚ) : Decidable (Representable x) := by unfold Representable; infer_instance

section Nearest

variable {p q : ℚ} {k : ℤ}

theorem nearest_le (below : q < k + 1 / 2) : nearest q ≤ k := by
  have lower := Int.floor_le q
  have floor : ⌊q⌋ < k + 1 := Int.floor_lt.mpr (by push_cast; linarith)
  have carries (half : ¬ q - ⌊q⌋ < 1 / 2) : ⌊q⌋ + 1 ≤ k := by
    by_contra last
    have : (⌊q⌋ : ℚ) = k := by exact_mod_cast (show ⌊q⌋ = k by omega)
    linarith
  unfold nearest
  split_ifs with less more even
  · omega
  · exact carries less
  · omega
  · exact carries less

theorem le_nearest (above : k - 1 / 2 < q) : k ≤ nearest q := by
  have upper := Int.lt_floor_add_one q
  have floor : k ≤ ⌊q⌋ + 1 := by
    have : (k : ℚ) < (⌊q⌋ + 2 : ℤ) := by push_cast; linarith
    have : k < ⌊q⌋ + 2 := by exact_mod_cast this
    omega
  have stays (half : ¬ 1 / 2 < q - ⌊q⌋) : k ≤ ⌊q⌋ := by
    by_contra next
    have : (k : ℚ) = ⌊q⌋ + 1 := by exact_mod_cast (show k = ⌊q⌋ + 1 by omega)
    linarith
  unfold nearest
  split_ifs with less more even
  · exact stays (by linarith)
  · exact floor
  · exact stays more
  · exact floor

/-- A tie goes to an even integer from below and from above. -/
theorem nearest_le_iff_of_even (even : k % 2 = 0) : nearest q ≤ k ↔ q ≤ k + 1 / 2 := by
  constructor
  · intro bound
    by_contra far
    have : k + 1 ≤ nearest q := le_nearest (by push_cast; linarith)
    omega
  · intro bound
    rcases bound.lt_or_eq with below | tie
    · exact nearest_le below
    · have floor : ⌊q⌋ = k := Int.floor_eq_iff.mpr ⟨by linarith, by linarith⟩
      unfold nearest
      rw [floor, if_neg (by linarith), if_neg (by linarith), if_pos even]

theorem nearest_lt_iff_of_even (even : k % 2 = 0) : nearest q < k ↔ q < k - 1 / 2 := by
  constructor
  · intro bound
    by_contra near
    rcases (not_lt.mp near).lt_or_eq with above | tie
    · have := le_nearest above
      omega
    · have floor : ⌊q⌋ = k - 1 := by
        rw [Int.floor_eq_iff]
        push_cast
        exact ⟨by linarith, by linarith⟩
      unfold nearest at bound
      rw [floor] at bound
      push_cast at bound
      rw [if_neg (by linarith), if_neg (by linarith), if_neg (by omega)] at bound
      omega
  · intro bound
    have : nearest q ≤ k - 1 := nearest_le (by push_cast; linarith)
    omega

@[simp] theorem nearest_intCast (k : ℤ) : nearest k = k :=
  le_antisymm (nearest_le (by linarith)) (le_nearest (by linarith))

theorem abs_nearest_sub_le (q : ℚ) : |nearest q - q| ≤ 1 / 2 := by
  have upper : (nearest q : ℚ) ≤ q + 1 / 2 := by
    by_contra far
    have : nearest q ≤ nearest q - 1 := nearest_le (by push_cast; linarith)
    omega
  have lower : q - 1 / 2 ≤ nearest q := by
    by_contra far
    have : nearest q + 1 ≤ nearest q := le_nearest (by push_cast; linarith)
    omega
  rw [abs_le]
  constructor <;> linarith

theorem nearest_mono (ordered : p ≤ q) : nearest p ≤ nearest q := by
  by_cases below : p < nearest q + 1 / 2
  · exact nearest_le below
  · by_cases above : q < nearest q + 1 / 2
    · exact absurd (ordered.trans_lt above) below
    · -- then `q` is the tie above `nearest q`, and `p` is `q`
      have tie : q ≤ nearest q + 1 / 2 := by
        by_contra far
        have : nearest q + 1 ≤ nearest q := le_nearest (by push_cast; linarith)
        omega
      rw [show p = q by linarith]

end Nearest

section Places

variable {x y : ℚ}

theorem ulp_pos (x : ℚ) : 0 < ulp x := zpow_pos (by norm_num) _

theorem lastPlace_mono (positive : 0 < x) (ordered : x ≤ y) : lastPlace x ≤ lastPlace y := by
  unfold lastPlace
  rw [abs_of_pos positive, abs_of_pos (positive.trans_le ordered)]
  have := Int.log_mono_right (b := 2) positive ordered
  omega

/-- A power of two above the last place is a whole number of last places. -/
theorem zpow_eq_mul {e e' : ℤ} (ordered : e ≤ e') :
    (2 : ℚ) ^ e' = ((2 ^ (e' - e).toNat : ℤ) : ℚ) * 2 ^ e := by
  push_cast
  rw [← zpow_natCast, ← zpow_add₀ (by norm_num)]
  congr 1
  omega

@[simp] theorem toDouble_zero : toDouble 0 = 0 := by
  have : nearest 0 = 0 := nearest_intCast 0
  simp [toDouble, this]

theorem toDouble_le {k : ℤ} (below : x ≤ k * ulp x) : toDouble x ≤ k * ulp x := by
  have positive := ulp_pos x
  refine mul_le_mul_of_nonneg_right ?_ positive.le
  have bound : x / ulp x ≤ k := (div_le_iff₀ positive).mpr below
  exact_mod_cast (nearest_mono bound).trans (nearest_intCast k).le

theorem le_toDouble {k : ℤ} (above : k * ulp x ≤ x) : k * ulp x ≤ toDouble x := by
  have positive := ulp_pos x
  refine mul_le_mul_of_nonneg_right ?_ positive.le
  have bound : k ≤ x / ulp x := (le_div_iff₀ positive).mpr above
  exact_mod_cast (nearest_intCast k).ge.trans (nearest_mono bound)

/-- The result is a double of the same binade or its upper end. -/
theorem toDouble_mono (nonneg : 0 ≤ x) (ordered : x ≤ y) : toDouble x ≤ toDouble y := by
  rcases nonneg.eq_or_lt with rfl | positive
  · rw [toDouble_zero]
    have := le_toDouble (x := y) (k := 0) (by simpa using ordered)
    simpa using this
  · rcases (lastPlace_mono positive ordered).eq_or_lt with same | finer
    · unfold toDouble ulp
      rw [same]
      refine mul_le_mul_of_nonneg_right ?_ (zpow_nonneg (by norm_num) _)
      exact_mod_cast nearest_mono (div_le_div_of_nonneg_right ordered (zpow_nonneg (by norm_num) _))
    · -- the power of two at the start of the binade of `y` lies between
      have positiveY := positive.trans_le ordered
      have placeX : lastPlace x = max (Int.log 2 x - 52) (-1074) := by rw [lastPlace, abs_of_pos positive]
      have placeY : lastPlace y = max (Int.log 2 y - 52) (-1074) := by rw [lastPlace, abs_of_pos positiveY]
      have start : (2 : ℚ) ^ Int.log 2 y ≤ y := by
        exact_mod_cast Int.zpow_log_le_self (b := 2) (by norm_num) positiveY
      have stop : x ≤ (2 : ℚ) ^ Int.log 2 y := by
        have next : x < (2 : ℚ) ^ (Int.log 2 x + 1) := by
          exact_mod_cast Int.lt_zpow_succ_log_self (b := 2) (by norm_num) x
        exact next.le.trans (zpow_le_zpow_right₀ (by norm_num) (by omega))
      have splitX := zpow_eq_mul (show lastPlace x ≤ Int.log 2 y by omega)
      have splitY := zpow_eq_mul (show lastPlace y ≤ Int.log 2 y by omega)
      calc toDouble x
        _ ≤ (2 : ℚ) ^ Int.log 2 y := by
          rw [splitX] at stop ⊢
          exact toDouble_le stop
        _ ≤ toDouble y := by
          rw [splitY] at start ⊢
          exact le_toDouble start

theorem toDouble_nonneg (nonneg : 0 ≤ x) : 0 ≤ toDouble x := toDouble_zero ▸ toDouble_mono le_rfl nonneg

theorem representable_iff : Representable x ↔ ∃ k : ℤ, x = k * ulp x := by
  constructor
  · intro double
    exact ⟨nearest (x / ulp x), double.symm⟩
  · rintro ⟨k, whole⟩
    have bounds := And.intro (toDouble_le whole.le) (le_toDouble whole.ge)
    rw [← whole] at bounds
    exact le_antisymm bounds.1 bounds.2

/-- A double is a whole number of any finer places. -/
theorem Representable.exists_mul (double : Representable x) {e : ℤ} (finer : e ≤ lastPlace x) :
    ∃ k : ℤ, x = k * 2 ^ e := by
  obtain ⟨k, whole⟩ := representable_iff.mp double
  refine ⟨k * 2 ^ (lastPlace x - e).toNat, ?_⟩
  have split := zpow_eq_mul finer
  push_cast at split ⊢
  rw [mul_assoc, ← split]
  exact whole

/-- A number from `2 ^ n` on has its last place at `n - 52` or above. -/
theorem le_lastPlace {n : ℤ} (large : (2 : ℚ) ^ n ≤ x) : n - 52 ≤ lastPlace x := by
  have positive : 0 < x := (zpow_pos (by norm_num) n).trans_le large
  have place : n ≤ Int.log 2 x :=
    (Int.zpow_le_iff_le_log (b := 2) (by norm_num) positive).mp (by exact_mod_cast large)
  rw [lastPlace, abs_of_pos positive]
  omega

/-- A number below `2 ^ n` has its last place below `n - 52`. -/
theorem lastPlace_lt {n : ℤ} (normal : -1022 < n) (nonzero : x ≠ 0) (small : |x| < (2 : ℚ) ^ n) :
    lastPlace x < n - 52 := by
  have place : Int.log 2 |x| < n :=
    (Int.lt_zpow_iff_log_lt (b := 2) (by norm_num) (abs_pos.mpr nonzero)).mp (by exact_mod_cast small)
  rw [lastPlace]
  omega

theorem toDouble_le_add_half (x : ℚ) : toDouble x ≤ x + ulp x / 2 := by
  have positive := ulp_pos x
  have bound : (nearest (x / ulp x) : ℚ) ≤ x / ulp x + 1 / 2 := by
    linarith [(abs_le.mp (abs_nearest_sub_le (x / ulp x))).2]
  calc toDouble x
    _ ≤ (x / ulp x + 1 / 2) * ulp x := mul_le_mul_of_nonneg_right bound positive.le
    _ = x + ulp x / 2 := by field_simp

/-- Below half a place more than a whole number of places, the rest is rounded off. -/
theorem toDouble_le_of_lt_half {k : ℤ} (below : x < (k + 1 / 2) * ulp x) : toDouble x ≤ k * ulp x := by
  have positive := ulp_pos x
  refine mul_le_mul_of_nonneg_right ?_ positive.le
  exact_mod_cast nearest_le ((div_lt_iff₀ positive).mpr below)

/-- A number of half places bounds the rounded value of what is strictly below it. -/
theorem toDouble_le_of_lt_halves {k : ℤ} (below : x < k * (ulp x / 2)) : toDouble x ≤ k * (ulp x / 2) := by
  have positive := ulp_pos x
  have lower : (2 * (k / 2 : ℤ) : ℚ) ≤ k := by exact_mod_cast (show 2 * (k / 2) ≤ k by omega)
  have upper : (k : ℚ) ≤ 2 * (k / 2 : ℤ) + 1 := by exact_mod_cast (show k ≤ 2 * (k / 2) + 1 by omega)
  have under : x < ((k / 2 : ℤ) + 1 / 2) * ulp x := by nlinarith
  have := toDouble_le_of_lt_half under
  nlinarith

end Places

section Seconds

variable {x f w : ℚ}

/-- A whole number of places below a power of two is at least one place below it. -/
theorem mul_zpow_add_le {k e n : ℤ} (finer : e ≤ n) (below : k * (2 : ℚ) ^ e < 2 ^ n) :
    k * (2 : ℚ) ^ e + 2 ^ e ≤ 2 ^ n := by
  have positive : (0 : ℚ) < 2 ^ e := zpow_pos (by norm_num) e
  rw [zpow_eq_mul finer] at below ⊢
  have next : k + 1 ≤ 2 ^ (n - e).toNat := by exact_mod_cast lt_of_mul_lt_mul_right below positive.le
  have next' : (k : ℚ) + 1 ≤ ((2 ^ (n - e).toNat : ℤ) : ℚ) := by exact_mod_cast next
  calc k * (2 : ℚ) ^ e + 2 ^ e
    _ = (k + 1) * 2 ^ e := by ring
    _ ≤ ((2 ^ (n - e).toNat : ℤ) : ℚ) * 2 ^ e := mul_le_mul_of_nonneg_right next' positive.le

/-- The last double before one. -/
theorem Representable.le_pred_one (double : Representable f) (small : f < 1) : f ≤ 1 - 2 ^ (-53 : ℤ) := by
  by_cases half : f < 1 / 2
  · norm_num
    linarith
  · have place : (-1 : ℤ) - 52 ≤ lastPlace f := le_lastPlace (by norm_num; linarith)
    obtain ⟨k, whole⟩ := double.exists_mul place
    have gap := mul_zpow_add_le (k := k) (e := -1 - 52) (n := 0) (by norm_num) (by rw [← whole]; simpa using small)
    rw [← whole] at gap
    norm_num at gap ⊢
    linarith

theorem zpow_eq_two_mul (e : ℤ) : (2 : ℚ) ^ e = 2 * 2 ^ (e - 1) := by
  rw [← zpow_one_add₀ (by norm_num), add_sub_cancel]

theorem half_ulp_eq {n : ℤ} (place : lastPlace x = n - 52) : ulp x / 2 = 2 ^ (n - 53) := by
  rw [ulp, place, zpow_eq_two_mul, mul_div_cancel_left₀ _ (by norm_num)]
  congr 1
  omega

theorem toDouble_add_le_of_fine (doubleF : Representable f) (small : f < 1) (fine : lastPlace (f + w) ≤ -52) :
    toDouble (f + w) ≤ 1 + w := by
  have half : ulp (f + w) ≤ 2 ^ (-52 : ℤ) := zpow_le_zpow_right₀ (by norm_num) fine
  have below := doubleF.le_pred_one small
  have rounded := toDouble_le_add_half (f + w)
  norm_num at half below
  linarith

/-- Up to `2 ^ 53` the second more is a number of half places of the sum. -/
theorem toDouble_add_le_of_mid {n : ℤ} (doubleW : Representable w) (small : f < 1) (mid : n ≤ 53)
    (place : lastPlace (f + w) = n - 52) (large : (2 : ℚ) ^ (n - 1) ≤ w) : toDouble (f + w) ≤ 1 + w := by
  have finer : n - 53 ≤ lastPlace w := by
    have := le_lastPlace large
    omega
  obtain ⟨k, halves⟩ := doubleW.exists_mul finer
  have one := zpow_eq_mul (show n - 53 ≤ 0 by omega)
  rw [zpow_zero] at one
  have whole : 1 + w = ((2 ^ (0 - (n - 53)).toNat + k : ℤ) : ℚ) * (ulp (f + w) / 2) := by
    rw [half_ulp_eq place, Int.cast_add, add_mul, ← one, ← halves]
  rw [whole]
  exact toDouble_le_of_lt_halves (whole ▸ by linarith)

/-- From `2 ^ 54` on the fraction is less than half a place of the sum, and is lost. -/
theorem toDouble_add_le_of_wide {n : ℤ} (doubleW : Representable w) (small : f < 1) (wide : 53 < n)
    (place : lastPlace (f + w) = n - 52) (start : (2 : ℚ) ^ n ≤ f + w) (large : (2 : ℚ) ^ (n - 1) ≤ w) :
    toDouble (f + w) ≤ w := by
  have finer : n - 53 ≤ lastPlace w := by
    have := le_lastPlace large
    omega
  obtain ⟨k, halves⟩ := doubleW.exists_mul finer
  have two : (2 : ℚ) ≤ 2 ^ (n - 53) := by
    calc (2 : ℚ)
      _ = 2 ^ (1 : ℤ) := by norm_num
      _ ≤ 2 ^ (n - 53) := zpow_le_zpow_right₀ (by norm_num) (by omega)
  have above : (2 : ℚ) ^ n ≤ w := by
    by_contra below
    have gap := mul_zpow_add_le (show n - 53 ≤ n by omega) (halves ▸ not_le.mp below)
    rw [← halves] at gap
    linarith
  obtain ⟨m, whole⟩ := doubleW.exists_mul (le_lastPlace above)
  have half := half_ulp_eq place
  have same : ulp (f + w) = 2 ^ (n - 52) := by rw [ulp, place]
  have rounded : toDouble (f + w) ≤ m * ulp (f + w) := toDouble_le_of_lt_half (by
    rw [add_mul, same, ← whole, ← same]
    linarith)
  rwa [same, ← whole] at rounded

/-- Adding a fraction of a second never rounds to more than adding the whole second. -/
theorem toDouble_fraction_add_le (doubleF : Representable f) (doubleW : Representable w) (nonneg : 0 ≤ f)
    (small : f < 1) (delay : 0 ≤ w) : toDouble (f + w) ≤ 1 + w := by
  rcases (add_nonneg nonneg delay).eq_or_lt with zero | positive
  · rw [← zero, toDouble_zero]
    linarith
  rcases le_or_gt (lastPlace (f + w)) (-52) with fine | coarse
  · exact toDouble_add_le_of_fine doubleF small fine
  -- from two on `w` has the places of the sum, or half of them below a power of two
  obtain ⟨n, binade⟩ : ∃ n, n = Int.log 2 (f + w) := ⟨_, rfl⟩
  have place : lastPlace (f + w) = n - 52 := by
    rw [lastPlace, abs_of_pos positive, ← binade] at coarse ⊢
    omega
  have start : (2 : ℚ) ^ n ≤ f + w := by
    rw [binade]
    exact_mod_cast Int.zpow_log_le_self (b := 2) (by norm_num) positive
  have large : (2 : ℚ) ^ (n - 1) ≤ w := by
    have : (1 : ℚ) ≤ 2 ^ (n - 1) := one_le_zpow₀ (by norm_num) (by omega)
    linarith [zpow_eq_two_mul n]
  rcases le_or_gt n 53 with mid | wide
  · exact toDouble_add_le_of_mid doubleW small mid place large
  · have lost := toDouble_add_le_of_wide doubleW small wide place start large
    linarith

end Seconds

section WholePart

variable {x : ℚ}

theorem representable_intCast {n : ℤ} (small : |n| < 2 ^ 53) : Representable n := by
  rcases eq_or_ne n 0 with rfl | nonzero
  · exact_mod_cast toDouble_zero
  · have bound : |(n : ℚ)| < 2 ^ (53 : ℤ) := by exact_mod_cast small
    have place := lastPlace_lt (by norm_num) (Int.cast_ne_zero.mpr nonzero) bound
    have one := zpow_eq_mul (show lastPlace (n : ℚ) ≤ 0 by omega)
    rw [zpow_zero] at one
    refine representable_iff.mpr ⟨n * 2 ^ (0 - lastPlace (n : ℚ)).toNat, ?_⟩
    rw [Int.cast_mul, mul_assoc, ulp, ← one, mul_one]

/-- Below `2 ^ 52` a whole number is an even number of places. -/
theorem intCast_eq_even_mul (nonzero : x ≠ 0) (small : |x| < 2 ^ (52 : ℤ)) (n : ℤ) :
    ∃ k : ℤ, k % 2 = 0 ∧ (n : ℚ) = k * ulp x := by
  have place := lastPlace_lt (by norm_num) nonzero small
  have one := zpow_eq_mul (show lastPlace x ≤ 0 by omega)
  rw [zpow_zero] at one
  obtain ⟨m, positive⟩ : ∃ m, (0 - lastPlace x).toNat = m + 1 := ⟨(0 - lastPlace x).toNat - 1, by omega⟩
  refine ⟨n * 2 ^ (0 - lastPlace x).toNat, ?_, ?_⟩
  · rw [positive, pow_succ, ← mul_assoc]
    exact Int.mul_emod_left _ 2
  · rw [Int.cast_mul, mul_assoc, ulp, ← one, mul_one]

/-- A tie next to a whole number is rounded to it. -/
theorem toDouble_lt_intCast_iff (nonzero : x ≠ 0) (small : |x| < 2 ^ (52 : ℤ)) {n : ℤ} :
    toDouble x < n ↔ x < n - ulp x / 2 := by
  have positive := ulp_pos x
  obtain ⟨k, even, whole⟩ := intCast_eq_even_mul nonzero small n
  rw [whole, toDouble, mul_lt_mul_iff_of_pos_right positive, Int.cast_lt, nearest_lt_iff_of_even even,
    div_lt_iff₀ positive, sub_mul, one_div_mul_eq_div]

theorem toDouble_le_intCast_iff (nonzero : x ≠ 0) (small : |x| < 2 ^ (52 : ℤ)) {n : ℤ} :
    toDouble x ≤ n ↔ x ≤ n + ulp x / 2 := by
  have positive := ulp_pos x
  obtain ⟨k, even, whole⟩ := intCast_eq_even_mul nonzero small n
  rw [whole, toDouble, mul_le_mul_iff_of_pos_right positive, Int.cast_le, nearest_le_iff_of_even even,
    div_le_iff₀ positive, add_mul, one_div_mul_eq_div]

theorem intCast_le_toDouble (nonzero : x ≠ 0) (small : |x| < 2 ^ (52 : ℤ)) {n : ℤ} (below : n ≤ x) :
    n ≤ toDouble x := by
  obtain ⟨k, _, whole⟩ := intCast_eq_even_mul nonzero small n
  rw [whole] at below ⊢
  exact le_toDouble below

theorem toDouble_le_intCast (nonzero : x ≠ 0) (small : |x| < 2 ^ (52 : ℤ)) {n : ℤ} (above : x ≤ n) :
    toDouble x ≤ n := by
  obtain ⟨k, _, whole⟩ := intCast_eq_even_mul nonzero small n
  rw [whole] at above ⊢
  exact toDouble_le above

/-- The whole part survives the rounding unless the fraction is within half a place of the
next integer. -/
theorem floor_toDouble (small : |x| < 2 ^ (52 : ℤ)) :
    ⌊toDouble x⌋ = if x < ⌊x⌋ + 1 - ulp x / 2 then ⌊x⌋ else ⌊x⌋ + 1 := by
  rcases eq_or_ne x 0 with rfl | nonzero
  · rw [toDouble_zero, if_pos]
    norm_num [ulp, lastPlace]
  · have lower : (⌊x⌋ : ℚ) ≤ toDouble x := intCast_le_toDouble nonzero small (Int.floor_le x)
    have upper : toDouble x ≤ (⌊x⌋ + 1 : ℤ) :=
      toDouble_le_intCast nonzero small (by exact_mod_cast (Int.lt_floor_add_one x).le)
    have next : toDouble x < (⌊x⌋ + 1 : ℤ) ↔ x < (⌊x⌋ + 1 : ℤ) - ulp x / 2 := toDouble_lt_intCast_iff nonzero small
    rw [Int.cast_add, Int.cast_one] at upper next
    split_ifs with inside
    · exact Int.floor_eq_iff.mpr ⟨lower, next.mpr inside⟩
    · have carried : toDouble x = (⌊x⌋ + 1 : ℤ) := by
        rw [Int.cast_add, Int.cast_one]
        exact le_antisymm upper (not_lt.mp (mt next.mp inside))
      rw [carried, Int.floor_intCast]

end WholePart

end Binary64
