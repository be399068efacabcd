import CallChart.Proofs.Doubles
import Mathlib.Tactic.FieldSimp

/-! Arithmetic of doubles. A product or a quotient of doubles is the double nearest to the exact one, and an integer is
turned into the double nearest to it. -/
namespace CallChart.Number

namespace Binary64

open Float.Model (UnpackedFloat Format totalExponent)
open Float.Model.UnpackedFloat hiding unpack pack

/-! ### Dropping bits -/

/-- What is kept of a number whose lowest bits are dropped: its integer part, and on which side of a half the rest
lies. -/
def Represents (em : ExtendedMantissa) (q : Rat) : Prop :=
  match em.roundBit, em.stickyBit with
  | false, false => q = em.mantissa
  | false, true => em.mantissa < q ∧ q < em.mantissa + 1 / 2
  | true, false => q = em.mantissa + 1 / 2
  | true, true => em.mantissa + 1 / 2 < q ∧ q < em.mantissa + 1

variable {em : ExtendedMantissa} {q : Rat} {m n : Nat} {e f : Int}

theorem Represents.bounds (h : Represents em q) : (em.mantissa : Rat) ≤ q ∧ q < em.mantissa + 1 := by
  obtain ⟨mantissa, roundBit, stickyBit⟩ := em
  cases roundBit <;> cases stickyBit <;> simp only [Represents] at h <;> constructor <;> linarith

theorem mantissa_ofMantissaAndAccuracy (m : Nat) (accuracy : Accuracy) :
    (ExtendedMantissa.ofMantissaAndAccuracy m accuracy).mantissa = m := by
  rcases accuracy with _ | _ | _ | _ <;> rfl

theorem Represents.floor_eq (h : Represents em q) : ⌊q⌋ = em.mantissa := Int.floor_eq_iff.mpr (mod_cast h.bounds)

/-- What is kept is enough to round the number. -/
theorem Represents.roundedMantissa (h : Represents em q) : (em.roundedMantissa : Int) = toEven q := by
  have hfloor := h.floor_eq
  have hfract : Int.fract q = q - em.mantissa := by rw [Int.fract, hfloor, Int.cast_natCast]
  obtain ⟨mantissa, roundBit, stickyBit⟩ := em
  unfold toEven
  rw [hfract, hfloor]
  cases roundBit <;> cases stickyBit <;>
    simp only [Represents, ExtendedMantissa.roundedMantissa, ExtendedMantissa.accuracy,
      Accuracy.roundToNearestEven] at h ⊢ <;>
    split_ifs <;> first | omega | linarith

theorem Represents.shiftRightOne (h : Represents em q) : Represents em.shiftRightOne (q / 2) := by
  obtain ⟨mantissa, roundBit, stickyBit⟩ := em
  have hhalf : (mantissa : Rat) = 2 * (mantissa / 2 : Nat) + (mantissa % 2 : Nat) :=
    mod_cast (Nat.div_add_mod mantissa 2).symm
  rcases Nat.mod_two_eq_zero_or_one mantissa with hmod | hmod <;> rw [hmod] at hhalf <;>
    cases roundBit <;> cases stickyBit <;> simp [Represents, ExtendedMantissa.shiftRightOne, hmod] at h ⊢ <;>
    push_cast at hhalf <;> first | (constructor <;> linarith) | linarith

theorem Represents.shiftRight (h : Represents em q) (n : Nat) : Represents (em >>> n) (q / 2 ^ n) := by
  change Represents (n.repeat ExtendedMantissa.shiftRightOne em) _
  induction n with
  | zero => rwa [pow_zero, div_one]
  | succ n ih =>
    rw [pow_succ, ← div_div]
    exact ih.shiftRightOne

theorem represents_exact (m : Nat) : Represents (.ofMantissaAndAccuracy m .exact) m := rfl

theorem represents_quotient (n : Nat) {d : Nat} (hd : 0 < d) :
    Represents (.ofMantissaAndAccuracy (n / d) (accuracyOfFraction (n % d) d)) (n / d) := by
  have hd' : (0 : Rat) < d := mod_cast hd
  have hlt : ((n % d : Nat) : Rat) / d < 1 := (div_lt_one hd').mpr (mod_cast Nat.mod_lt n hd)
  have hsplit : (n : Rat) / d = (n / d : Nat) + (n % d : Nat) / d := by
    have hdivmod : (n : Rat) = d * (n / d : Nat) + (n % d : Nat) := mod_cast (Nat.div_add_mod n d).symm
    rw [div_eq_iff hd'.ne', add_mul, div_mul_cancel₀ _ hd'.ne']
    linarith
  rw [hsplit]
  unfold accuracyOfFraction
  split
  · next hexact => simp [Represents, ExtendedMantissa.ofMantissaAndAccuracy, hexact]
  · next hinexact =>
    have hpos : (0 : Rat) < (n % d : Nat) / d := div_pos (mod_cast Nat.pos_of_ne_zero hinexact) hd'
    rcases hside : compare (2 * (n % d)) d with _ | _ | _ <;>
      simp only [Represents, ExtendedMantissa.ofMantissaAndAccuracy]
    · have hbelow : ((n % d : Nat) : Rat) / d < 1 / 2 := by
        rw [div_lt_div_iff₀ hd' two_pos, mul_comm, one_mul]
        exact_mod_cast Nat.compare_eq_lt.mp hside
      constructor <;> linarith
    · have hhalf : ((n % d : Nat) : Rat) / d = 1 / 2 := by
        rw [div_eq_div_iff hd'.ne' two_ne_zero, mul_comm, one_mul]
        exact_mod_cast Nat.compare_eq_eq.mp hside
      linarith
    · have habove : 1 / 2 < ((n % d : Nat) : Rat) / d := by
        rw [div_lt_div_iff₀ two_pos hd', mul_comm _ (2 : Rat), one_mul]
        exact_mod_cast Nat.compare_eq_gt.mp hside
      constructor <;> linarith

/-! ### Rounding -/

theorem targetExponent_eq (k : Int) : Format.binary64.targetExponent k = max (k - 53) minExponent := by
  have hbits : (Format.binary64.mantissaBits : Int) = 53 := rfl
  have hmin : Format.binary64.minExponent = minExponent := rfl
  rw [Format.targetExponent, hbits, hmin]

/-- The integer part of a positive number has its highest bit, if it has a bit at all. -/
theorem exponentAt_mul (hq : 0 < q) (hfloor : (m : Rat) ≤ q ∧ q < m + 1) (hbits : 2 ^ 52 ≤ m ∨ e ≤ minExponent) :
    exponentAt (q * 2 ^ e) = Format.binary64.targetExponent (totalExponent m e) := by
  have hmin := minExponent_eq
  have hv : 0 < q * 2 ^ e := mul_pos hq (two_zpow_pos e)
  rw [targetExponent_eq, totalExponent, exponentAt]
  rcases Nat.eq_zero_or_pos m with rfl | hm
  · have he : e ≤ minExponent := hbits.resolve_left (by norm_num)
    have hlt : q * 2 ^ e < 2 ^ e := by
      have hone : q < 1 := by simpa using hfloor.2
      exact mul_lt_of_lt_one_left (two_zpow_pos e) hone
    have hlog : Int.log 2 (q * 2 ^ e) < e := (Int.lt_zpow_iff_log_lt one_lt_two hv).mp (mod_cast hlt)
    have hzero : Nat.log2 0 = 0 := rfl
    rw [hzero]
    omega
  · have hlow : (2 : Rat) ^ ((m.log2 : Int) + e) ≤ q * 2 ^ e := by
      rw [zpow_add₀ two_ne_zero, zpow_natCast]
      refine mul_le_mul_of_nonneg_right (le_trans ?_ hfloor.1) (two_zpow_pos e).le
      exact_mod_cast Nat.log2_self_le hm.ne'
    have hhigh : q * 2 ^ e < (2 : Rat) ^ ((m.log2 : Int) + 1 + e) := by
      rw [zpow_add₀ two_ne_zero]
      refine mul_lt_mul_of_pos_right (hfloor.2.trans_le ?_) (two_zpow_pos e)
      exact_mod_cast Nat.lt_log2_self
    have hle : (m.log2 : Int) + e ≤ Int.log 2 (q * 2 ^ e) := (Int.zpow_le_iff_le_log one_lt_two hv).mp (mod_cast hlow)
    have hlt : Int.log 2 (q * 2 ^ e) < (m.log2 : Int) + 1 + e :=
      (Int.lt_zpow_iff_log_lt one_lt_two hv).mp (mod_cast hhigh)
    omega

/-- The second shift takes in a carry, and nothing else. -/
theorem shiftToTargetExponent_rounded (hm : m ≤ 2 ^ 53) (he : minExponent ≤ e) :
    (m < 2 ^ 53 ∧ (shiftToTargetExponent Format.binary64 m e .exact).1.mantissa = m ∧
        (shiftToTargetExponent Format.binary64 m e .exact).2 = e) ∨
      m = 2 ^ 53 ∧ (shiftToTargetExponent Format.binary64 m e .exact).1.mantissa = 2 ^ 52 ∧
        (shiftToTargetExponent Format.binary64 m e .exact).2 = e + 1 := by
  unfold shiftToTargetExponent shiftToExponent
  simp only [targetExponent_eq, totalExponent]
  rcases hm.lt_or_eq with hlt | rfl
  · have hlog : m.log2 ≤ 52 := by
      rcases Nat.eq_zero_or_pos m with rfl | hpos
      · exact Nat.zero_le _
      · exact Nat.le_of_lt_succ ((Nat.log2_lt hpos.ne').mpr hlt)
    have hshift : (max ((m.log2 : Int) + 1 + e - 53) minExponent - e).toNat = 0 := by omega
    rw [hshift]
    exact .inl ⟨hlt, rfl, add_zero e⟩
  · have hshift : (max (((2 ^ 53 : Nat).log2 : Int) + 1 + e - 53) minExponent - e).toNat = 1 := by
      rw [Nat.log2_two_pow]
      omega
    rw [hshift]
    exact .inr ⟨rfl, rfl, rfl⟩

theorem shiftToTargetExponent_fst {accuracy : Accuracy} (hq : 0 < q)
    (hrepresents : Represents (.ofMantissaAndAccuracy m accuracy) q) (hbits : 2 ^ 52 ≤ m ∨ e ≤ minExponent) :
    ((shiftToTargetExponent Format.binary64 m e accuracy).1.roundedMantissa : Int) = mantissaAt (q * 2 ^ e) ∧
      (shiftToTargetExponent Format.binary64 m e accuracy).2 = exponentAt (q * 2 ^ e) := by
  have hfloor := hrepresents.bounds
  rw [mantissa_ofMantissaAndAccuracy] at hfloor
  have hexponent := exponentAt_mul hq hfloor hbits
  have hle : e ≤ exponentAt (q * 2 ^ e) := by
    rw [hexponent, targetExponent_eq, totalExponent]
    rcases hbits with hfull | hsmall
    · have hm : m ≠ 0 := (Nat.pos_of_ne_zero (by omega)).ne'
      have hlog := (Nat.le_log2 hm).mpr hfull
      omega
    · exact hsmall.trans (le_max_right _ _)
  unfold shiftToTargetExponent shiftToExponent
  rw [← hexponent]
  have hshift : ((exponentAt (q * 2 ^ e) - e).toNat : Int) = exponentAt (q * 2 ^ e) - e :=
    Int.toNat_of_nonneg (sub_nonneg.mpr hle)
  refine ⟨?_, ?_⟩
  · rw [(hrepresents.shiftRight _).roundedMantissa, mantissaAt, ← zpow_natCast, hshift, zpow_sub₀ two_ne_zero,
      div_div_eq_mul_div]
  · change e + ((exponentAt (q * 2 ^ e) - e).toNat : Int) = _
    omega

def finiteOrZero (s : Sign) (m : Nat) (e : Int) : UnpackedFloat :=
  if h : m = 0 then .zero s else .finite s m e (Nat.pos_of_ne_zero h)

theorem toNat_pack_finiteOrZero (s : Sign) (hm : m < 2 ^ 53) (he : minExponent ≤ e)
    (hfull : 2 ^ 52 ≤ m ∨ e = minExponent) :
    (UnpackedFloat.pack Format.binary64 (finiteOrZero s m e)).toNat =
      signBit (negative s) + min infinityBits (place m e) := by
  by_cases hzero : m = 0
  · obtain rfl : e = minExponent := hfull.resolve_left (by omega)
    rw [finiteOrZero, dif_pos hzero, hzero]
    exact toNat_pack_zero s
  · rw [finiteOrZero, dif_neg hzero]
    exact toNat_pack_finite s _ hm he hfull

/-- Rounding gives the bits of the nearest double. -/
theorem toNat_pack_roundWithAccuracy (s : Sign) {accuracy : Accuracy} (hq : 0 < q)
    (hrepresents : Represents (.ofMantissaAndAccuracy m accuracy) q) (hbits : 2 ^ 52 ≤ m ∨ e ≤ minExponent) :
    (UnpackedFloat.pack Format.binary64 (roundWithAccuracy Format.binary64 s m e accuracy)).toNat =
      signBit (negative s) + min infinityBits (place (mantissaAt (q * 2 ^ e)).toNat (exponentAt (q * 2 ^ e))) := by
  obtain ⟨hmantissa, hexponent⟩ := shiftToTargetExponent_fst hq hrepresents hbits
  have hv : 0 < q * 2 ^ e := mul_pos hq (two_zpow_pos e)
  have hle := mantissaAt_le (q * 2 ^ e)
  have hmin := minExponent_le_exponentAt (q * 2 ^ e)
  have hfull : 2 ^ 52 ≤ mantissaAt (q * 2 ^ e) ∨ exponentAt (q * 2 ^ e) = minExponent :=
    or_iff_not_imp_right.mpr (le_mantissaAt hv)
  rw [← hmantissa] at hle hfull ⊢
  rw [← hexponent] at hmin hfull ⊢
  change (UnpackedFloat.pack Format.binary64 (finiteOrZero s
    (shiftToTargetExponent Format.binary64 (shiftToTargetExponent Format.binary64 m e accuracy).1.roundedMantissa
      (shiftToTargetExponent Format.binary64 m e accuracy).2 .exact).1.mantissa
    (shiftToTargetExponent Format.binary64 (shiftToTargetExponent Format.binary64 m e accuracy).1.roundedMantissa
      (shiftToTargetExponent Format.binary64 m e accuracy).2 .exact).2)).toNat = _
  generalize shiftToTargetExponent Format.binary64 m e accuracy = first at *
  obtain ⟨em, t⟩ := first
  dsimp only at hle hmin hfull ⊢
  have hle : em.roundedMantissa ≤ 2 ^ 53 := by omega
  have hfull : 2 ^ 52 ≤ em.roundedMantissa ∨ t = minExponent := by omega
  rw [Int.toNat_natCast]
  rcases shiftToTargetExponent_rounded hle hmin with ⟨hlt, hm, ht⟩ | ⟨hcarry, hm, ht⟩
  · rw [hm, ht]
    exact toNat_pack_finiteOrZero s hlt hmin hfull
  · have hplace : place em.roundedMantissa t = place (2 ^ 52) (t + 1) := hcarry ▸ place_carry hmin
    rw [hm, ht, hplace]
    exact toNat_pack_finiteOrZero s (by norm_num) (hmin.trans (by omega)) (.inl le_rfl)

theorem nearest_withSign (negative : Bool) {v : Rat} (hv : 0 ≤ v) :
    nearest (withSign negative v) = withSign negative (nearestMagnitude v) := by
  cases negative
  · exact nearest_of_nonneg hv
  · exact (nearest_neg v).trans (congrArg _ (nearest_of_nonneg hv))

/-- The bits of the double nearest to a number. -/
def Nearest (bits : Nat) (v : Rat) : Prop := ofBits bits ≠ nan ∧ (ofBits bits).value = nearest v

theorem nearest_place (negative : Bool) {v : Rat} (hv : 0 < v) :
    Nearest (signBit negative + min infinityBits (place (mantissaAt v).toNat (exponentAt v)))
      (withSign negative v) := by
  have hmantissa : ((mantissaAt v).toNat : Int) = mantissaAt v := Int.toNat_of_nonneg (mantissaAt_nonneg hv.le)
  have hle := mantissaAt_le v
  have hfull : 2 ^ 52 ≤ mantissaAt v ∨ exponentAt v = minExponent := or_iff_not_imp_right.mpr (le_mantissaAt hv)
  obtain ⟨hnan, hvalue⟩ := value_ofBits_place negative (m := (mantissaAt v).toNat) (by omega)
    (minExponent_le_exponentAt v) (by omega)
  refine ⟨hnan, ?_⟩
  rw [hvalue, nearest_withSign negative hv.le, nearestMagnitude, rounded, ← hmantissa]
  rfl

theorem nearest_zeroBits (negative : Bool) : Nearest (signBit negative + min infinityBits (place 0 minExponent)) 0 := by
  obtain ⟨hnan, hvalue⟩ := value_ofBits_place negative (m := 0) (by norm_num) le_rfl (.inr rfl)
  refine ⟨hnan, ?_⟩
  rw [hvalue, nearest_zero, Nat.cast_zero, zero_mul, min_eq_right beyond_pos.le]
  cases negative
  · rfl
  · exact neg_zero

/-! ### Products and quotients -/

theorem withSign_mul (s s' : Sign) (a b : Rat) :
    withSign (negative (s * s')) (a * b) = withSign (negative s) a * withSign (negative s') b := by
  cases s <;> cases s'
  · exact (neg_mul_neg a b).symm
  · exact (neg_mul a b).symm
  · exact (mul_neg a b).symm
  · rfl

theorem withSign_div (s s' : Sign) (a b : Rat) :
    withSign (negative (s / s')) (a / b) = withSign (negative s) a / withSign (negative s') b := by
  cases s <;> cases s'
  · exact (neg_div_neg_eq a b).symm
  · exact (neg_div b a).symm
  · exact (div_neg a).symm
  · rfl

theorem nearest_mul (s s' : Sign) (hm : 0 < m) (hn : 0 < n) (h : Canonical m e) (h' : Canonical n f) :
    Nearest (UnpackedFloat.pack Format.binary64 (UnpackedFloat.mul Format.binary64 (.finite s m e hm)
      (.finite s' n f hn))).toNat (withSign (negative s) (m * 2 ^ e) * withSign (negative s') (n * 2 ^ f)) := by
  have hmn : 0 < m * n := Nat.mul_pos hm hn
  have hbits : 2 ^ 52 ≤ m * n ∨ e + f ≤ minExponent := by
    have hmin := minExponent_eq
    rcases h.full with hfull | rfl
    · exact .inl (hfull.trans (Nat.le_mul_of_pos_right m hn))
    rcases h'.full with hfull | rfl
    · exact .inl (hfull.trans (Nat.le_mul_of_pos_left n hm))
    · exact .inr (by omega)
  have hproduct : (m : Rat) * 2 ^ e * (n * 2 ^ f) = (m * n : Nat) * 2 ^ (e + f) := by
    rw [zpow_add₀ two_ne_zero]
    push_cast
    ring
  change Nearest (UnpackedFloat.pack Format.binary64 (roundWithAccuracy Format.binary64 (s * s') (m * n) (e + f)
    .exact)).toNat _
  rw [toNat_pack_roundWithAccuracy _ (mod_cast hmn) (represents_exact _) hbits, ← withSign_mul, hproduct]
  exact nearest_place _ (mul_pos (mod_cast hmn) (two_zpow_pos _))

/-- The dividend is shifted until the quotient has all bits of a mantissa or only those below the least exponent are
missing. -/
theorem divCore_eq (hm : 0 < m) (hn : 0 < n) : ∃ (k : Nat) (t : Int), (k : Int) + t = e - f ∧
    divCore Format.binary64 m e n f = (m * 2 ^ k / n, t, accuracyOfFraction (m * 2 ^ k % n) n) ∧
      (2 ^ 52 ≤ m * 2 ^ k / n ∨ t ≤ minExponent) := by
  let t := min (e - f) (Format.binary64.targetExponent (totalExponent m e - totalExponent n f))
  have ht : t = min (e - f) (max (m.log2 + 1 + e - (n.log2 + 1 + f) - 53) minExponent) := by
    rw [← totalExponent, ← totalExponent, ← targetExponent_eq]
  refine ⟨(e - f - t).toNat, t, by omega, ?_, ?_⟩
  · rw [← Nat.shiftLeft_eq]
    rfl
  · refine or_iff_not_imp_right.mpr fun hlarge => ?_
    have hbits : 52 + (n.log2 + 1) ≤ m.log2 + (e - f - t).toNat := by omega
    rw [Nat.le_div_iff_mul_le hn]
    calc 2 ^ 52 * n ≤ 2 ^ 52 * 2 ^ (n.log2 + 1) := Nat.mul_le_mul_left _ Nat.lt_log2_self.le
      _ = 2 ^ (52 + (n.log2 + 1)) := (pow_add ..).symm
      _ ≤ 2 ^ (m.log2 + (e - f - t).toNat) := Nat.pow_le_pow_right two_pos hbits
      _ = 2 ^ m.log2 * 2 ^ (e - f - t).toNat := pow_add ..
      _ ≤ m * 2 ^ (e - f - t).toNat := Nat.mul_le_mul_right _ (Nat.log2_self_le hm.ne')

theorem nearest_div (s s' : Sign) (hm : 0 < m) (hn : 0 < n) :
    Nearest (UnpackedFloat.pack Format.binary64 (UnpackedFloat.div Format.binary64 (.finite s m e hm)
      (.finite s' n f hn))).toNat (withSign (negative s) (m * 2 ^ e) / withSign (negative s') (n * 2 ^ f)) := by
  obtain ⟨k, t, hkt, hcore, hbits⟩ := divCore_eq (e := e) (f := f) hm hn
  have hquotient : (m : Rat) * 2 ^ e / (n * 2 ^ f) = (m * 2 ^ k : Nat) / n * 2 ^ t := by
    have hexponent : e = k + t + f := by omega
    have hn' : (n : Rat) ≠ 0 := mod_cast hn.ne'
    rw [hexponent, zpow_add₀ two_ne_zero, zpow_add₀ two_ne_zero, zpow_natCast]
    push_cast
    field_simp
  have hpos : (0 : Rat) < (m * 2 ^ k : Nat) / n :=
    div_pos (mod_cast Nat.mul_pos hm (Nat.two_pow_pos k)) (mod_cast hn)
  change Nearest (UnpackedFloat.pack Format.binary64 (roundWithAccuracy Format.binary64 (s / s')
    (divCore Format.binary64 m e n f).1 (divCore Format.binary64 m e n f).2.1
    (divCore Format.binary64 m e n f).2.2)).toNat _
  rw [hcore, toNat_pack_roundWithAccuracy _ hpos (represents_quotient _ hn) hbits, ← withSign_div, hquotient]
  exact nearest_place _ (mul_pos hpos (two_zpow_pos _))

end Binary64

open Float.Model (UnpackedFloat Format)

/-- A double is the one nearest to a number. -/
def IsNearest (x : Float) (v : Rat) : Prop := Binary64.ofFloat x ≠ .nan ∧ value x = nearest v

variable {x y : Float}

theorem isFinite_iff : x.isFinite = true ↔ ∃ s m e, Binary64.ofFloat x = .finite s m e := by
  change x.toModel.unpack.isFinite = true ↔ _
  rw [Binary64.ofFloat_eq]
  cases x.toModel.unpack with
  | notANumber => exact iff_of_false Bool.false_ne_true (by rintro ⟨_, _, _, h⟩; cases h)
  | infinity s => exact iff_of_false Bool.false_ne_true (by rintro ⟨_, _, _, h⟩; cases h)
  | zero s => exact iff_of_true rfl ⟨_, _, _, rfl⟩
  | finite s m e hm => exact iff_of_true rfl ⟨_, _, _, rfl⟩

theorem abs_value_lt (h : x.isFinite = true) : |value x| < beyond := by
  obtain ⟨s, m, e, hx⟩ := isFinite_iff.mp h
  have hcanonical : Binary64.Canonical m e := .of_ofFloat hx
  have hpos : (0 : Rat) ≤ m * 2 ^ e := mul_nonneg (Nat.cast_nonneg m) (two_zpow_pos e).le
  have habs : |value x| = m * 2 ^ e := by
    rw [value, hx]
    cases s
    · exact abs_of_nonneg hpos
    · exact (abs_neg _).trans (abs_of_nonneg hpos)
  rw [habs]
  exact hcanonical.lt_beyond

theorem isFinite_of_abs_lt (hnan : Binary64.ofFloat x ≠ .nan) (h : |value x| < beyond) : x.isFinite = true := by
  rw [isFinite_iff]
  cases hx : Binary64.ofFloat x with
  | finite s m e => exact ⟨s, m, e, rfl⟩
  | nan => exact absurd hx hnan
  | infinite s =>
    have habs : |value x| = beyond := by
      rw [value, hx]
      cases s
      · exact abs_of_pos beyond_pos
      · exact (abs_neg _).trans (abs_of_pos beyond_pos)
    exact absurd habs h.ne

theorem ne_nan_of_isFinite (h : x.isFinite = true) : Binary64.ofFloat x ≠ .nan := by
  obtain ⟨s, m, e, hx⟩ := isFinite_iff.mp h
  rw [hx]
  exact nofun

theorem lt_of_value_lt (hx : x.isFinite = true) (hy : y.isFinite = true) (h : value x < value y) : x < y :=
  lt_iff.mpr ⟨ne_nan_of_isFinite hx, ne_nan_of_isFinite hy, h⟩

theorem IsNearest.isFinite {v : Rat} (hx : IsNearest x v) (h : |v| ≤ 2 ^ (64 : Int)) : x.isFinite = true := by
  refine isFinite_of_abs_lt hx.1 ?_
  calc |value x| = |nearest v| := by rw [hx.2]
    _ ≤ 2 ^ (64 : Int) := abs_nearest_le (by decide) (by norm_num) h
    _ < beyond := zpow_lt_zpow_right₀ one_lt_two (by norm_num)

/-- A finite double is unpacked to a zero or to a mantissa and an exponent. -/
theorem unpack_of_isFinite (h : x.isFinite = true) :
    (∃ s, x.toModel.unpack = .zero s ∧ value x = 0) ∨
      ∃ s m e hm, x.toModel.unpack = .finite s m e hm ∧ Binary64.Canonical m e ∧
        value x = Binary64.withSign (Binary64.negative s) (m * 2 ^ e) := by
  have hform := Binary64.ofFloat_eq x
  rw [value]
  change x.toModel.unpack.isFinite = true at h
  cases hu : x.toModel.unpack with
  | notANumber => rw [hu] at h; cases h
  | infinity s => rw [hu] at h; cases h
  | zero s =>
    rw [hform, hu]
    exact .inl ⟨s, rfl, Binary64.value_ofUnpacked.2.2.1 s⟩
  | finite s m e hm =>
    rw [hu] at hform
    rw [hform]
    exact .inr ⟨s, m, e, hm, rfl, .of_ofFloat hform, rfl⟩

theorem mul_isNearest (hx : x.isFinite = true) (hy : y.isFinite = true) : IsNearest (x * y) (value x * value y) := by
  change Binary64.Nearest
    (UnpackedFloat.pack Format.binary64 (UnpackedFloat.mul Format.binary64 x.toModel.unpack y.toModel.unpack)).toNat _
  rcases unpack_of_isFinite hx with ⟨s, hu, hvx⟩ | ⟨s, m, e, hm, hu, hcanonical, hvx⟩ <;>
    rcases unpack_of_isFinite hy with ⟨s', hv, hvy⟩ | ⟨s', n, f, hn, hv, hcanonical', hvy⟩ <;>
    rw [hu, hv, hvx, hvy]
  · rw [zero_mul]
    exact Binary64.toNat_pack_zero (s * s') ▸ Binary64.nearest_zeroBits _
  · rw [zero_mul]
    exact Binary64.toNat_pack_zero (s * s') ▸ Binary64.nearest_zeroBits _
  · rw [mul_zero]
    exact Binary64.toNat_pack_zero (s * s') ▸ Binary64.nearest_zeroBits _
  · exact Binary64.nearest_mul s s' hm hn hcanonical hcanonical'

theorem div_isNearest (hx : x.isFinite = true) (hy : y.isFinite = true) (hzero : value y ≠ 0) :
    IsNearest (x / y) (value x / value y) := by
  change Binary64.Nearest
    (UnpackedFloat.pack Format.binary64 (UnpackedFloat.div Format.binary64 x.toModel.unpack y.toModel.unpack)).toNat _
  rcases unpack_of_isFinite hy with ⟨s', hv, hvy⟩ | ⟨s', n, f, hn, hv, -, hvy⟩
  · exact absurd hvy hzero
  rcases unpack_of_isFinite hx with ⟨s, hu, hvx⟩ | ⟨s, m, e, hm, hu, -, hvx⟩ <;> rw [hu, hv, hvx, hvy]
  · rw [zero_div]
    exact Binary64.toNat_pack_zero (s / s') ▸ Binary64.nearest_zeroBits _
  · exact Binary64.nearest_div s s' hm hn

/-! ### One factor -/

theorem mul_nan {factor : Float} (hf : factor.toModel.unpack = .notANumber) (x : Float) :
    Binary64.ofFloat (x * factor) = .nan := by
  have hproduct : UnpackedFloat.mul Format.binary64 x.toModel.unpack factor.toModel.unpack = .notANumber := by
    rw [hf]
    cases x.toModel.unpack <;> rfl
  change Binary64.ofBits (UnpackedFloat.pack Format.binary64
    (UnpackedFloat.mul Format.binary64 x.toModel.unpack factor.toModel.unpack)).toNat = _
  rw [hproduct]
  exact Binary64.ofBits_pack_notANumber

/-- What is left of a number times infinity is its sign. -/
def extreme (v : Rat) : Rat := if v < 0 then -beyond else if 0 < v then beyond else 0

theorem extreme_mono : Monotone extreme := by
  intro u v huv
  have hbeyond := beyond_pos
  unfold extreme
  split_ifs <;> linarith

/-- There is no product of zero and infinity. -/
theorem mul_infinity {factor : Float} {s : UnpackedFloat.Sign} (hf : factor.toModel.unpack = .infinity s)
    (hx : x.isFinite = true) (hnan : Binary64.ofFloat (x * factor) ≠ .nan) :
    value (x * factor) = extreme (value x * value factor) := by
  have hproduct : Binary64.ofFloat (x * factor) = Binary64.ofBits (UnpackedFloat.pack Format.binary64
      (UnpackedFloat.mul Format.binary64 x.toModel.unpack factor.toModel.unpack)).toNat := rfl
  rw [hproduct, hf] at hnan
  rw [value, hproduct, value, value, Binary64.ofFloat_eq factor, hf]
  rcases unpack_of_isFinite hx with ⟨s', hu, -⟩ | ⟨s', m, e, hm, hu, -, hvx⟩ <;> rw [hu] at hnan ⊢
  · exact absurd Binary64.ofBits_pack_notANumber hnan
  · have hpos : (0 : Rat) < m * 2 ^ e * beyond := mul_pos (mul_pos (mod_cast hm) (two_zpow_pos e)) beyond_pos
    have hexact : (Binary64.ofFloat x).value * (Binary64.ofUnpacked (.infinity s)).value =
        Binary64.withSign (Binary64.negative (s' * s)) (m * 2 ^ e * beyond) :=
      (congrArg (· * _) hvx).trans (Binary64.withSign_mul s' s _ _).symm
    change (Binary64.ofBits (UnpackedFloat.pack Format.binary64 (.infinity (s' * s))).toNat).value = _
    rw [hexact, Binary64.ofBits_pack_infinity]
    generalize s' * s = sign
    cases sign
    · exact (if_pos (neg_neg_iff_pos.mpr hpos)).symm
    · exact ((if_neg hpos.not_gt).trans (if_pos hpos)).symm

/-- The products of finite doubles with one factor are ordered as the exact ones. -/
theorem exists_monotone_mul (factor : Float) : ∃ g : Rat → Rat, Monotone g ∧
    ∀ x : Float, x.isFinite = true → Binary64.ofFloat (x * factor) ≠ .nan →
      value (x * factor) = g (value x * value factor) := by
  have hfinite (h : factor.toModel.unpack.isFinite = true) : ∃ g : Rat → Rat, Monotone g ∧
      ∀ x : Float, x.isFinite = true → Binary64.ofFloat (x * factor) ≠ .nan →
        value (x * factor) = g (value x * value factor) :=
    ⟨nearest, nearest_mono, fun x hx _ => (mul_isNearest hx h).2⟩
  cases hf : factor.toModel.unpack with
  | notANumber => exact ⟨id, monotone_id, fun x _ hnan => absurd (mul_nan hf x) hnan⟩
  | infinity s => exact ⟨extreme, extreme_mono, fun x hx hnan => mul_infinity hf hx hnan⟩
  | zero s => exact hfinite (congrArg _ hf)
  | finite s m e hm => exact hfinite (congrArg _ hf)

theorem not_mul_lt_mul {factor : Float} (hx : x.isFinite = true) (hy : y.isFinite = true) (hfactor : 0 ≤ value factor)
    (hxy : x < y) : ¬ y * factor < x * factor := by
  obtain ⟨g, hg, hmul⟩ := exists_monotone_mul factor
  intro hlt
  obtain ⟨hnanY, hnanX, hlt⟩ := lt_iff.mp hlt
  rw [hmul y hy hnanY, hmul x hx hnanX] at hlt
  exact hlt.not_ge (hg (mul_le_mul_of_nonneg_right (lt_iff.mp hxy).2.2.le hfactor))

end CallChart.Number
