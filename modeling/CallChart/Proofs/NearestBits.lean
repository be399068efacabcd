import CallChart.Proofs.DoubleArithmetic

/-! The double nearest to a quotient of natural numbers, as its bits are computed: the exponent is guessed from the
highest bits, and the scaled quotient is rounded to an integer. An integer becomes the double nearest to it. -/
namespace CallChart.Number

namespace Binary64

open Float.Model (UnpackedFloat Format)

theorem divideToEven_eq (n : Nat) {d : Nat} (hd : 0 < d) : (divideToEven n d : Int) = toEven (n / d) := by
  have hd' : (0 : Rat) < d := mod_cast hd
  have hsplit : (n : Rat) = d * (n / d : Nat) + (n % d : Nat) := mod_cast (Nat.div_add_mod n d).symm
  have hfloor : ⌊(n : Rat) / d⌋ = (n / d : Nat) := by rw [Rat.floor_natCast_div_natCast]; rfl
  have hfract : Int.fract ((n : Rat) / d) = (n % d : Nat) / d := by
    rw [Int.fract, hfloor, Int.cast_natCast, sub_eq_iff_eq_add, div_add' _ _ _ hd'.ne']
    congr 1
    linarith
  have hless : Int.fract ((n : Rat) / d) < 1 / 2 ↔ 2 * (n % d) < d := by
    rw [hfract, div_lt_div_iff₀ hd' two_pos, one_mul, mul_comm]
    norm_cast
  have hmore : 1 / 2 < Int.fract ((n : Rat) / d) ↔ d < 2 * (n % d) := by
    rw [hfract, div_lt_div_iff₀ two_pos hd', one_mul, mul_comm]
    norm_cast
  unfold divideToEven toEven
  simp only [hless, hmore, hfloor, Bool.or_eq_true, decide_eq_true_eq, Bool.and_eq_true, beq_iff_eq]
  split_ifs <;> omega

theorem scaled_spec (n : Nat) {d : Nat} (hd : 0 < d) (e : Int) :
    0 < (scaled n d e).2 ∧ ((scaled n d e).1 : Rat) / (scaled n d e).2 = n / d / 2 ^ e := by
  have hd' : (d : Rat) ≠ 0 := mod_cast hd.ne'
  unfold scaled
  split
  · next he =>
    refine ⟨Nat.mul_pos hd (Nat.two_pow_pos _), ?_⟩
    obtain ⟨k, rfl⟩ := Int.eq_ofNat_of_zero_le he
    rw [zpow_natCast, Nat.pow_eq, Int.toNat_natCast, div_div]
    push_cast
    rfl
  · next he =>
    refine ⟨hd, ?_⟩
    obtain ⟨k, hk⟩ := Int.eq_ofNat_of_zero_le (a := -e) (by omega)
    obtain rfl : e = -k := by omega
    rw [zpow_neg, zpow_natCast, neg_neg, Nat.pow_eq, Int.toNat_natCast, div_inv_eq_mul, div_mul_eq_mul_div]
    push_cast
    rfl

/-- The quotient of the highest bits is the highest bit of the quotient or one more. -/
theorem log_quotient {n d : Nat} (hn : 0 < n) (hd : 0 < d) :
    (n.log2 : Int) - d.log2 - 1 ≤ Int.log 2 ((n : Rat) / d) ∧ Int.log 2 ((n : Rat) / d) ≤ n.log2 - d.log2 := by
  have hn' : (0 : Rat) < n := mod_cast hn
  have hd' : (0 : Rat) < d := mod_cast hd
  have hbounds (k : Nat) (hk : 0 < k) : (2 : Rat) ^ (k.log2 : Int) ≤ k ∧ (k : Rat) < 2 ^ ((k.log2 : Int) + 1) :=
    ⟨mod_cast Nat.log2_self_le hk.ne', mod_cast Nat.lt_log2_self⟩
  constructor
  · refine (Int.zpow_le_iff_le_log one_lt_two (div_pos hn' hd')).mp ?_
    rw [Nat.cast_ofNat, le_div_iff₀ hd']
    calc (2 : Rat) ^ ((n.log2 : Int) - d.log2 - 1) * d ≤ 2 ^ ((n.log2 : Int) - d.log2 - 1) * 2 ^ ((d.log2 : Int) + 1) :=
          mul_le_mul_of_nonneg_left (hbounds d hd).2.le (two_zpow_pos _).le
      _ = 2 ^ (n.log2 : Int) := by
          rw [← zpow_add₀ two_ne_zero]
          congr 1
          omega
      _ ≤ n := (hbounds n hn).1
  · refine Int.lt_add_one_iff.mp ((Int.lt_zpow_iff_log_lt one_lt_two (div_pos hn' hd')).mp ?_)
    rw [Nat.cast_ofNat, div_lt_iff₀ hd']
    calc (n : Rat) < 2 ^ ((n.log2 : Int) + 1) := (hbounds n hn).2
      _ = 2 ^ ((n.log2 : Int) - d.log2 + 1) * 2 ^ (d.log2 : Int) := by
          rw [← zpow_add₀ two_ne_zero]
          congr 1
          omega
      _ ≤ 2 ^ ((n.log2 : Int) - d.log2 + 1) * d := mul_le_mul_of_nonneg_left (hbounds d hd).1 (two_zpow_pos _).le

theorem exponentOf_eq {n d : Nat} (hn : 0 < n) (hd : 0 < d) : exponentOf n d = exponentAt (n / d) := by
  have hq : (0 : Rat) < n / d := div_pos (mod_cast hn) (mod_cast hd)
  obtain ⟨hlow, hhigh⟩ := log_quotient hn hd
  obtain ⟨hpos, hscaled⟩ := scaled_spec n hd (n.log2 - d.log2 - 52)
  have hcase : (scaled n d (n.log2 - d.log2 - 52)).1 < hidden * (scaled n d (n.log2 - d.log2 - 52)).2 ↔
      Int.log 2 ((n : Rat) / d) < n.log2 - d.log2 := by
    have hhidden : (hidden : Rat) = 2 ^ (52 : Int) := by
      have hpow : hidden = 2 ^ 52 := rfl
      rw [hpow]
      norm_cast
    have hpos' : (0 : Rat) < (scaled n d (n.log2 - d.log2 - 52)).2 := mod_cast hpos
    rw [← Int.lt_zpow_iff_log_lt one_lt_two hq, ← Nat.cast_lt (α := Rat), Nat.cast_mul, ← div_lt_iff₀ hpos', hscaled,
      hhidden, div_lt_iff₀ (two_zpow_pos _), ← zpow_add₀ two_ne_zero, Nat.cast_ofNat]
    have hexponent : 52 + ((n.log2 : Int) - d.log2 - 52) = n.log2 - d.log2 := by omega
    rw [hexponent]
  unfold exponentOf exponentAt
  simp only [hcase]
  split <;> omega

/-- The bits of the nearest double. -/
theorem nearestBits_eq {n d : Nat} (hn : 0 < n) (hd : 0 < d) :
    nearestBits n d = min infinityBits (place (mantissaAt (n / d)).toNat (exponentAt (n / d))) := by
  have hv : (0 : Rat) < n / d := div_pos (mod_cast hn) (mod_cast hd)
  obtain ⟨hpos, hscaled⟩ := scaled_spec n hd (exponentAt (n / d))
  have hmantissa : (divideToEven (scaled n d (exponentAt (n / d))).1 (scaled n d (exponentAt (n / d))).2 : Int) =
      mantissaAt (n / d) := by
    rw [divideToEven_eq _ hpos, hscaled]
    rfl
  have hmin := minExponent_le_exponentAt ((n : Rat) / d)
  have hfull : 2 ^ 52 ≤ mantissaAt (n / d) ∨ exponentAt (n / d) = minExponent :=
    or_iff_not_imp_right.mpr (le_mantissaAt hv)
  have hhidden : hidden = 2 ^ 52 := rfl
  unfold nearestBits
  simp only [if_neg hn.ne', exponentOf_eq hn hd]
  rw [← hmantissa] at hfull ⊢
  rw [Int.toNat_natCast, hhidden, infinityBits_eq, place]
  split <;> omega

end Binary64

open Float.Model (UnpackedFloat Format)

/-- Bits that stand for no number may change, but not what they stand for. -/
theorem ofFloat_ofBits {bits : Nat} (h : bits < 2 ^ 64) :
    Binary64.ofFloat (Float.ofBits (UInt64.ofNat bits)) = Binary64.ofBits bits := by
  have hbits : (UInt64.ofNat bits).toBitVec.toNat = bits := UInt64.toNat_ofNat_of_lt' h
  conv_rhs => rw [← hbits, ← Binary64.ofUnpacked_unpack]
  exact Binary64.ofBits_pack fun hfinite => .of_ofBits ((Binary64.ofUnpacked_unpack _).symm.trans hfinite)

theorem signed_eq (negative : Bool) (bits : Nat) :
    Binary64.signed negative bits = Float.ofBits (UInt64.ofNat (Binary64.signBit negative + bits)) := by
  cases negative
  · rw [Binary64.signBit, if_neg Bool.false_ne_true, zero_add]
    rfl
  · rfl

theorem withSign_natAbs (n : Int) : Binary64.withSign (n < 0) n.natAbs = n := by
  rw [Nat.cast_natAbs, Int.cast_abs]
  rcases lt_or_ge n 0 with hneg | hnonneg
  · rw [decide_eq_true hneg, abs_of_neg (Int.cast_lt_zero.mpr hneg)]
    exact neg_neg _
  · rw [decide_eq_false hnonneg.not_gt, abs_of_nonneg (Int.cast_nonneg hnonneg)]
    rfl

theorem ofInt_isNearest (n : Int) : IsNearest (Binary64.ofInt n) n := by
  have hbits : Binary64.Nearest (Binary64.signBit (n < 0) + Binary64.nearestBits n.natAbs 1) n ∧
      Binary64.nearestBits n.natAbs 1 ≤ Binary64.infinityBits := by
    rcases Nat.eq_zero_or_pos n.natAbs with hzero | hpos
    · obtain rfl := Int.natAbs_eq_zero.mp hzero
      have hnone : Binary64.nearestBits (Int.natAbs 0) 1 =
          min Binary64.infinityBits (Binary64.place 0 Binary64.minExponent) := rfl
      rw [hnone, decide_eq_false (lt_irrefl _), Int.cast_zero]
      exact ⟨Binary64.nearest_zeroBits false, min_le_left _ _⟩
    · have hv : (n : Rat) = Binary64.withSign (n < 0) (n.natAbs / (1 : Nat)) := by
        rw [Nat.cast_one, div_one, withSign_natAbs]
      rw [Binary64.nearestBits_eq hpos one_pos, hv]
      exact ⟨Binary64.nearest_place _ (div_pos (mod_cast hpos) (by norm_num)), min_le_left _ _⟩
  have hlt : Binary64.signBit (n < 0) + Binary64.nearestBits n.natAbs 1 < 2 ^ 64 := by
    have hle := hbits.2
    rw [Binary64.infinityBits_eq] at hle
    unfold Binary64.signBit
    split <;> omega
  unfold IsNearest value Binary64.ofInt
  rw [signed_eq, ofFloat_ofBits hlt]
  exact hbits.1

end CallChart.Number
