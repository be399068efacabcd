import CallChart.Number.Binary64
import Mathlib.Data.Int.Log
import Mathlib.Data.Rat.Floor
import Mathlib.Tactic.Linarith
import Mathlib.Tactic.NormNum
import Mathlib.Tactic.Ring

/-! The double nearest to a rational number, a tie going to the even mantissa. Rounding keeps the order of numbers, so
a quotient or a product is bounded by what its bounds are rounded to, and a power of two within reach is a double. -/
namespace CallChart.Number

/-! ### The nearest integer -/

/-- The nearest integer, a tie going to the even one. -/
def toEven (q : Rat) : Int :=
  if Int.fract q < 1 / 2 then ⌊q⌋ else if 1 / 2 < Int.fract q then ⌊q⌋ + 1 else ⌊q⌋ + ⌊q⌋ % 2

theorem floor_le_toEven (q : Rat) : ⌊q⌋ ≤ toEven q := by
  unfold toEven
  split_ifs <;> omega

theorem toEven_le_floor_add_one (q : Rat) : toEven q ≤ ⌊q⌋ + 1 := by
  unfold toEven
  split_ifs <;> omega

theorem toEven_intCast (k : Int) : toEven k = k := by
  rw [toEven, Int.fract_intCast, Int.floor_intCast, if_pos (by norm_num)]

theorem toEven_le_toEven {p q : Rat} (hpq : p ≤ q) : toEven p ≤ toEven q := by
  rcases (Int.floor_mono hpq).eq_or_lt with hfloor | hfloor
  · have hfract : Int.fract p ≤ Int.fract q := by
      rw [Int.fract, Int.fract, hfloor]
      exact sub_le_sub_right hpq _
    unfold toEven
    rw [hfloor]
    split_ifs <;> first | omega | linarith
  · have hbelow := toEven_le_floor_add_one p
    have habove := floor_le_toEven q
    omega

/-! ### The doubles around a number -/

/-- The exponent of the doubles around a positive number, of which the mantissa has 53 bits unless the exponent is the
least one. -/
def exponentAt (v : Rat) : Int := max (Int.log 2 v - 52) Binary64.minExponent

theorem minExponent_le_exponentAt (v : Rat) : Binary64.minExponent ≤ exponentAt v := le_max_right _ _

theorem exponentAt_mono {u v : Rat} (hu : 0 < u) (huv : u ≤ v) : exponentAt u ≤ exponentAt v :=
  max_le_max_right _ (Int.sub_le_sub_right (Int.log_mono_right hu huv) _)

theorem two_zpow_pos (k : Int) : (0 : Rat) < 2 ^ k := zpow_pos two_pos k

theorem two_zpow_le {k n : Int} : (2 : Rat) ^ k ≤ 2 ^ n ↔ k ≤ n := zpow_le_zpow_iff_right₀ one_lt_two

theorem div_exponentAt_lt (v : Rat) : v / 2 ^ exponentAt v < 2 ^ (53 : Int) := by
  have hlog : v < 2 ^ (Int.log 2 v + 1) := mod_cast Int.lt_zpow_succ_log_self one_lt_two v
  have hexponent : Int.log 2 v + 1 ≤ 53 + exponentAt v := by
    have := le_max_left (Int.log 2 v - 52) Binary64.minExponent
    unfold exponentAt
    omega
  rw [div_lt_iff₀ (two_zpow_pos _), ← zpow_add₀ two_ne_zero]
  exact hlog.trans_le (two_zpow_le.mpr hexponent)

theorem le_div_exponentAt {v : Rat} (hv : 0 < v) (h : exponentAt v ≠ Binary64.minExponent) :
    2 ^ (52 : Int) ≤ v / 2 ^ exponentAt v := by
  have hlog : (2 : Rat) ^ Int.log 2 v ≤ v := mod_cast Int.zpow_log_le_self one_lt_two hv
  have hexponent : 52 + exponentAt v = Int.log 2 v := by
    unfold exponentAt at h ⊢
    omega
  rw [le_div_iff₀ (two_zpow_pos _), ← zpow_add₀ two_ne_zero, hexponent]
  exact hlog

/-- The mantissa of the double nearest to a positive number, before a carry. -/
def mantissaAt (v : Rat) : Int := toEven (v / 2 ^ exponentAt v)

theorem mantissaAt_le (v : Rat) : mantissaAt v ≤ 2 ^ 53 := by
  have h : v / 2 ^ exponentAt v ≤ ((2 ^ 53 : Int) : Rat) := by
    have := div_exponentAt_lt v
    push_cast
    exact_mod_cast this.le
  exact (toEven_le_toEven h).trans_eq (toEven_intCast _)

theorem le_mantissaAt {v : Rat} (hv : 0 < v) (h : exponentAt v ≠ Binary64.minExponent) : 2 ^ 52 ≤ mantissaAt v := by
  have h : ((2 ^ 52 : Int) : Rat) ≤ v / 2 ^ exponentAt v := by
    have := le_div_exponentAt hv h
    push_cast
    exact_mod_cast this
  exact (toEven_intCast _).symm.trans_le (toEven_le_toEven h)

theorem mantissaAt_nonneg {v : Rat} (hv : 0 ≤ v) : 0 ≤ mantissaAt v := by
  have h : ((0 : Int) : Rat) ≤ v / 2 ^ exponentAt v := by
    rw [Int.cast_zero]
    exact div_nonneg hv (two_zpow_pos _).le
  exact (toEven_intCast 0).symm.trans_le (toEven_le_toEven h)

/-- The nearest number with a mantissa of a double, whatever its exponent is. -/
def rounded (v : Rat) : Rat := mantissaAt v * 2 ^ exponentAt v

theorem rounded_nonneg {v : Rat} (hv : 0 ≤ v) : 0 ≤ rounded v :=
  mul_nonneg (Int.cast_nonneg (mantissaAt_nonneg hv)) (two_zpow_pos _).le

theorem rounded_zero : rounded 0 = 0 := by
  rw [rounded, mantissaAt, zero_div, ← Int.cast_zero, toEven_intCast, Int.cast_zero, zero_mul]

/-- Where the exponent grows, the greatest mantissa below comes before the least one above. -/
theorem rounded_le_rounded {u v : Rat} (hu : 0 ≤ u) (huv : u ≤ v) : rounded u ≤ rounded v := by
  rcases hu.eq_or_lt with rfl | hu
  · rw [rounded_zero]
    exact rounded_nonneg huv
  rcases (exponentAt_mono hu huv).eq_or_lt with hsame | hless
  · rw [rounded, rounded, mantissaAt, mantissaAt, hsame]
    exact mul_le_mul_of_nonneg_right
      (Int.cast_le.mpr (toEven_le_toEven (div_le_div_of_nonneg_right huv (two_zpow_pos _).le))) (two_zpow_pos _).le
  · have hmin : exponentAt v ≠ Binary64.minExponent := ((minExponent_le_exponentAt u).trans_lt hless).ne'
    calc rounded u ≤ ((2 ^ 53 : Int) : Rat) * 2 ^ exponentAt u :=
          mul_le_mul_of_nonneg_right (Int.cast_le.mpr (mantissaAt_le u)) (two_zpow_pos _).le
      _ = 2 ^ (53 + exponentAt u) := by
          rw [zpow_add₀ two_ne_zero]
          norm_num
      _ ≤ 2 ^ (52 + exponentAt v) := two_zpow_le.mpr (by omega)
      _ = ((2 ^ 52 : Int) : Rat) * 2 ^ exponentAt v := by
          rw [zpow_add₀ two_ne_zero]
          norm_num
      _ ≤ rounded v :=
          mul_le_mul_of_nonneg_right (Int.cast_le.mpr (le_mantissaAt (hu.trans_le huv) hmin)) (two_zpow_pos _).le

theorem rounded_two_zpow {k : Int} (hk : Binary64.minExponent ≤ k) : rounded (2 ^ k) = 2 ^ k := by
  have hexponent : exponentAt (2 ^ k) ≤ k := by
    have hlog : Int.log 2 ((2 : Rat) ^ k) = k := mod_cast Int.log_zpow one_lt_two k
    rw [exponentAt, hlog]
    omega
  have hint : (2 : Rat) ^ k / 2 ^ exponentAt (2 ^ k) = ((2 ^ (k - exponentAt (2 ^ k)).toNat : Int) : Rat) := by
    rw [← zpow_sub₀ two_ne_zero]
    push_cast
    rw [← zpow_natCast, Int.toNat_of_nonneg (by omega)]
  rw [rounded, mantissaAt, hint, toEven_intCast, ← hint, div_mul_cancel₀ _ (two_zpow_pos _).ne']

/-! ### The nearest double -/

/-- The place of infinity among the numbers: that of the double which would come next. -/
def beyond : Rat := 2 ^ (1024 : Int)

theorem beyond_pos : 0 < beyond := two_zpow_pos _

def nearestMagnitude (v : Rat) : Rat := min beyond (rounded v)

/-- The number that the double nearest to a rational number stands for. -/
def nearest (v : Rat) : Rat := if v < 0 then -nearestMagnitude (-v) else nearestMagnitude v

theorem nearest_of_nonneg {v : Rat} (hv : 0 ≤ v) : nearest v = nearestMagnitude v := if_neg hv.not_gt

theorem nearest_zero : nearest 0 = 0 := by
  rw [nearest_of_nonneg le_rfl, nearestMagnitude, rounded_zero]
  exact min_eq_right beyond_pos.le

theorem nearest_neg (v : Rat) : nearest (-v) = -nearest v := by
  rcases lt_trichotomy v 0 with hv | rfl | hv
  · rw [nearest_of_nonneg (neg_nonneg.mpr hv.le), nearest, if_pos hv, neg_neg]
  · rw [neg_zero, nearest_zero, neg_zero]
  · rw [nearest, if_pos (neg_neg_iff_pos.mpr hv), neg_neg, nearest_of_nonneg hv.le]

theorem nearest_mono : Monotone nearest := by
  have hpos {u v : Rat} (hu : 0 ≤ u) (huv : u ≤ v) : nearest u ≤ nearest v := by
    rw [nearest_of_nonneg hu, nearest_of_nonneg (hu.trans huv)]
    exact min_le_min_left _ (rounded_le_rounded hu huv)
  intro u v huv
  rcases le_total 0 u with hu | hu
  · exact hpos hu huv
  rcases le_total 0 v with hv | hv
  · have hbelow := hpos le_rfl (neg_nonneg.mpr hu)
    have habove := hpos le_rfl hv
    rw [nearest_neg, nearest_zero] at hbelow
    rw [nearest_zero] at habove
    linarith
  · have hneg := hpos (neg_nonneg.mpr hv) (neg_le_neg huv)
    rw [nearest_neg, nearest_neg] at hneg
    exact neg_le_neg_iff.mp hneg

theorem nearest_nonneg {v : Rat} (h : 0 ≤ v) : 0 ≤ nearest v := nearest_zero.symm.trans_le (nearest_mono h)

theorem nearest_two_zpow {k : Int} (hmin : Binary64.minExponent ≤ k) (hmax : k ≤ 1024) : nearest (2 ^ k) = 2 ^ k := by
  rw [nearest_of_nonneg (two_zpow_pos k).le, nearestMagnitude, rounded_two_zpow hmin]
  exact min_eq_right (two_zpow_le.mpr hmax)

/-- A number that is at least a power of two within reach is rounded to one that is. -/
theorem two_zpow_le_nearest {k : Int} {v : Rat} (hmin : Binary64.minExponent ≤ k) (hmax : k ≤ 1024) (h : 2 ^ k ≤ v) :
    2 ^ k ≤ nearest v :=
  (nearest_two_zpow hmin hmax).symm.trans_le (nearest_mono h)

theorem nearest_le_two_zpow {k : Int} {v : Rat} (hmin : Binary64.minExponent ≤ k) (hmax : k ≤ 1024) (h : v ≤ 2 ^ k) :
    nearest v ≤ 2 ^ k :=
  (nearest_mono h).trans_eq (nearest_two_zpow hmin hmax)

theorem abs_nearest_le {k : Int} {v : Rat} (hmin : Binary64.minExponent ≤ k) (hmax : k ≤ 1024) (h : |v| ≤ 2 ^ k) :
    |nearest v| ≤ 2 ^ k := by
  rw [abs_le, ← neg_le_neg_iff, neg_neg] at h ⊢
  rw [← nearest_neg]
  exact ⟨nearest_le_two_zpow hmin hmax h.1, nearest_le_two_zpow hmin hmax h.2⟩

theorem one_le_nearest {v : Rat} (h : 1 ≤ v) : 1 ≤ nearest v := by
  simpa using two_zpow_le_nearest (k := 0) (by decide) (by norm_num) (by simpa using h)

end CallChart.Number
