import CallChart.Proofs.NearestDouble
import Mathlib.Tactic.Positivity

/-! What doubles stand for. The bits of a double are read as an exact rational number, infinity as the double that would
come next, and the comparisons of doubles are those of these numbers. -/
namespace CallChart.Number

namespace Binary64

open Float.Model (UnpackedFloat Format)
open Float.Model.UnpackedFloat hiding unpack pack

/-! ### Values -/

def withSign (negative : Bool) (v : Rat) : Rat := if negative then -v else v

/-- The number that a double stands for. One that is no number counts as zero. -/
def value : Binary64 → Rat
  | .finite negative mantissa exponent => withSign negative (mantissa * 2 ^ exponent)
  | .infinite negative => withSign negative beyond
  | .nan => 0

/-- The mantissa and the exponent of a finite double: all 53 bits are in use unless the exponent is the least one. -/
structure Canonical (mantissa : Nat) (exponent : Int) : Prop where
  lt : mantissa < 2 ^ 53
  minExponent_le : minExponent ≤ exponent
  le : exponent ≤ 971
  full : 2 ^ 52 ≤ mantissa ∨ exponent = minExponent

variable {m n : Nat} {e f : Int}

theorem Canonical.lt_beyond (h : Canonical m e) : (m : Rat) * 2 ^ e < beyond := by
  have hm : (m : Rat) < 2 ^ (53 : Int) := mod_cast h.lt
  calc (m : Rat) * 2 ^ e < 2 ^ (53 : Int) * 2 ^ e := mul_lt_mul_of_pos_right hm (two_zpow_pos e)
    _ = 2 ^ (53 + e) := (zpow_add₀ two_ne_zero _ _).symm
    _ ≤ beyond := two_zpow_le.mpr (by have := h.le; omega)

/-- A greater exponent wins over every mantissa. -/
theorem Canonical.lt_of_exponent_lt (h : Canonical m e) (h' : Canonical n f) (hef : e < f) :
    (m : Rat) * 2 ^ e < n * 2 ^ f := by
  have hm : (m : Rat) < 2 ^ (53 : Int) := mod_cast h.lt
  have hn : (2 : Rat) ^ (52 : Int) ≤ n := mod_cast h'.full.resolve_right (h.minExponent_le.trans_lt hef).ne'
  calc (m : Rat) * 2 ^ e < 2 ^ (53 : Int) * 2 ^ e := mul_lt_mul_of_pos_right hm (two_zpow_pos e)
    _ = 2 ^ (53 + e) := (zpow_add₀ two_ne_zero _ _).symm
    _ ≤ 2 ^ (52 + f) := two_zpow_le.mpr (by omega)
    _ = 2 ^ (52 : Int) * 2 ^ f := zpow_add₀ two_ne_zero _ _
    _ ≤ n * 2 ^ f := mul_le_mul_of_nonneg_right hn (two_zpow_pos f).le

theorem Canonical.compare_eq (h : Canonical m e) (h' : Canonical n f) :
    (compare e f).then (compare m n) = compare ((m : Rat) * 2 ^ e) (n * 2 ^ f) := by
  rcases lt_trichotomy e f with hef | rfl | hef
  · rw [compare_lt_iff_lt.mpr hef, compare_lt_iff_lt.mpr (h.lt_of_exponent_lt h' hef)]
    rfl
  · have hpos := two_zpow_pos e
    rw [compare_eq_iff_eq.mpr rfl]
    change compare m n = _
    rcases lt_trichotomy m n with hmn | rfl | hmn
    · have hlt : (m : Rat) * 2 ^ e < n * 2 ^ e := mul_lt_mul_of_pos_right (mod_cast hmn) hpos
      rw [compare_lt_iff_lt.mpr hmn, compare_lt_iff_lt.mpr hlt]
    · rw [compare_eq_iff_eq.mpr rfl, compare_eq_iff_eq.mpr rfl]
    · have hlt : (n : Rat) * 2 ^ e < m * 2 ^ e := mul_lt_mul_of_pos_right (mod_cast hmn) hpos
      rw [compare_gt_iff_gt.mpr hmn, compare_gt_iff_gt.mpr hlt]
  · rw [compare_gt_iff_gt.mpr hef, compare_gt_iff_gt.mpr (h'.lt_of_exponent_lt h hef)]
    rfl

/-! ### Bits -/

def signBit (negative : Bool) : Nat := if negative then 2 ^ 63 else 0

theorem ofBits_fields (negative : Bool) {field fraction : Nat} (hfield : field < 2048) (hfraction : fraction < 2 ^ 52) :
    ofBits (signBit negative + field * 2 ^ 52 + fraction) =
      if field = 2047 then if fraction = 0 then infinite negative else nan
      else if field = 0 then finite negative fraction minExponent
      else finite negative (2 ^ 52 + fraction) (field + (minExponent - 1)) := by
  have hsign : decide (Nat.pow 2 63 ≤ signBit negative + field * 2 ^ 52 + fraction) = negative := by
    cases negative <;> simp [signBit] <;> omega
  have hexponent : (signBit negative + field * 2 ^ 52 + fraction) / hidden % 2048 = field := by
    cases negative <;> simp [signBit, hidden] <;> omega
  have hmantissa : (signBit negative + field * 2 ^ 52 + fraction) % hidden = fraction := by
    cases negative <;> simp [signBit, hidden] <;> omega
  unfold ofBits
  simp only [hsign, hexponent, hmantissa]
  rfl

/-- How many doubles there are from zero up to a finite one. This is also the pattern of its bits. -/
def place (mantissa : Nat) (exponent : Int) : Nat := (exponent - minExponent).toNat * 2 ^ 52 + mantissa

theorem infinityBits_eq : infinityBits = 9218868437227405312 := rfl

theorem minExponent_eq : minExponent = -1074 := rfl

theorem place_carry (he : minExponent ≤ e) : place (2 ^ 53) e = place (2 ^ 52) (e + 1) := by
  unfold place
  omega

/-- The bits at a place are those of the double, and those of infinity at all places behind the last double. -/
theorem ofBits_place (negative : Bool) (hm : m < 2 ^ 53) (he : minExponent ≤ e) (hfull : 2 ^ 52 ≤ m ∨ e = minExponent) :
    ofBits (signBit negative + min infinityBits (place m e)) =
      if e ≤ 971 then finite negative m e else infinite negative := by
  have hmin := minExponent_eq
  rw [infinityBits_eq]
  rcases lt_or_ge m (2 ^ 52) with hsmall | hlarge
  · obtain rfl : e = minExponent := hfull.resolve_left hsmall.not_ge
    have hbits : min 9218868437227405312 (place m minExponent) = 0 * 2 ^ 52 + m := by
      unfold place
      omega
    rw [hbits, ← add_assoc, ofBits_fields _ (by omega) hsmall, if_neg (by omega), if_pos rfl, if_pos (by omega)]
  · have hhidden : 2 ^ 52 + (m - 2 ^ 52) = m := by omega
    split
    · next hle =>
      have hbits : min 9218868437227405312 (place m e) = (e + 1075).toNat * 2 ^ 52 + (m - 2 ^ 52) := by
        unfold place
        omega
      have hexponent : ((e + 1075).toNat : Int) + (minExponent - 1) = e := by omega
      rw [hbits, ← add_assoc, ofBits_fields _ (by omega) (by omega), if_neg (by omega), if_neg (by omega), hhidden,
        hexponent]
    · next hlarge =>
      have hbits : min 9218868437227405312 (place m e) = 2047 * 2 ^ 52 + 0 := by
        unfold place
        omega
      rw [hbits, ← add_assoc, ofBits_fields _ (by omega) (by omega), if_pos rfl, if_pos rfl]

/-- The bits at the place of a rounded number are those of the nearest double. -/
theorem value_ofBits_place (negative : Bool) (hm : m ≤ 2 ^ 53) (he : minExponent ≤ e)
    (hfull : 2 ^ 52 ≤ m ∨ e = minExponent) :
    ofBits (signBit negative + min infinityBits (place m e)) ≠ nan ∧
      (ofBits (signBit negative + min infinityBits (place m e))).value =
        withSign negative (min beyond (m * 2 ^ e)) := by
  have hcanonical {m : Nat} {e : Int} (hm : m < 2 ^ 53) (he : minExponent ≤ e)
      (hfull : 2 ^ 52 ≤ m ∨ e = minExponent) :
      ofBits (signBit negative + min infinityBits (place m e)) ≠ nan ∧
        (ofBits (signBit negative + min infinityBits (place m e))).value =
          withSign negative (min beyond (m * 2 ^ e)) := by
    rw [ofBits_place negative hm he hfull]
    split
    · next hle =>
      refine ⟨nofun, ?_⟩
      rw [min_eq_right (Canonical.lt_beyond ⟨hm, he, hle, hfull⟩).le]
      rfl
    · next hlarge =>
      have hmin : minExponent = -1074 := rfl
      have hmantissa : (2 : Rat) ^ (52 : Int) ≤ m := mod_cast hfull.resolve_right (by omega)
      have hbeyond : beyond ≤ (m : Rat) * 2 ^ e :=
        calc beyond ≤ 2 ^ (52 + e) := two_zpow_le.mpr (by omega)
          _ = 2 ^ (52 : Int) * 2 ^ e := zpow_add₀ two_ne_zero _ _
          _ ≤ (m : Rat) * 2 ^ e := mul_le_mul_of_nonneg_right hmantissa (two_zpow_pos e).le
      refine ⟨nofun, ?_⟩
      rw [min_eq_left hbeyond]
      rfl
  rcases hm.lt_or_eq with hlt | rfl
  · exact hcanonical hlt he hfull
  · have hvalue : ((2 ^ 53 : Nat) : Rat) * 2 ^ e = ((2 ^ 52 : Nat) : Rat) * 2 ^ (e + 1) := by
      rw [zpow_add_one₀ two_ne_zero]
      push_cast
      ring
    rw [place_carry he, hvalue]
    exact hcanonical (by norm_num) (he.trans (by omega)) (.inl le_rfl)

/-! ### The logical form of a double -/

def negative : Sign → Bool
  | .negative => true
  | .positive => false

def ofUnpacked : UnpackedFloat → Binary64
  | .infinity s => .infinite (negative s)
  | .notANumber => .nan
  | .zero s => .finite (negative s) 0 minExponent
  | .finite s mantissa exponent _ => .finite (negative s) mantissa exponent

theorem toNat_fields (b : BitVec 64) :
    b.toNat = signBit (negative (Sign.ofBitVec (@unpackSign Format.binary64 b))) +
      (@unpackExponent Format.binary64 b).toNat * 2 ^ 52 +
      (@unpackMantissa Format.binary64 b).toNat := by
  have hlt : b.toNat < 2 ^ 64 := b.isLt
  have hone : (@unpackSign Format.binary64 b).toNat = b.toNat / 2 ^ 63 := by
    change (b.extractLsb' 63 1).toNat = _
    rw [BitVec.extractLsb'_toNat, Nat.shiftRight_eq_div_pow]
    omega
  have hexponent : (@unpackExponent Format.binary64 b).toNat = b.toNat / 2 ^ 52 % 2048 := by
    simp [unpackExponent, Nat.shiftRight_eq_div_pow]
  have hmantissa : (@unpackMantissa Format.binary64 b).toNat = b.toNat % 2 ^ 52 := by
    simp [unpackMantissa]
  have hsign : signBit (negative (Sign.ofBitVec (@unpackSign Format.binary64 b))) =
      (@unpackSign Format.binary64 b).toNat * 2 ^ 63 := by
    rcases BitVec.eq_zero_or_eq_one (@unpackSign Format.binary64 b) with h | h <;> rw [h] <;> rfl
  rw [hsign, hone, hexponent, hmantissa]
  omega

theorem ofUnpacked_unpack (b : BitVec 64) : ofUnpacked (.unpack Format.binary64 b) = ofBits b.toNat := by
  have hall : @unpackExponent Format.binary64 b = -1#_ ↔
      (@unpackExponent Format.binary64 b).toNat = 2047 := (BitVec.toNat_inj (y := -1#11)).symm
  have hnone : @unpackExponent Format.binary64 b = 0#_ ↔
      (@unpackExponent Format.binary64 b).toNat = 0 := (BitVec.toNat_inj (y := 0#11)).symm
  have hwhole : @unpackMantissa Format.binary64 b = 0#_ ↔
      (@unpackMantissa Format.binary64 b).toNat = 0 := (BitVec.toNat_inj (y := 0#52)).symm
  have hhidden : (1#1 ++ @unpackMantissa Format.binary64 b).toNat =
      2 ^ 52 + (@unpackMantissa Format.binary64 b).toNat := by
    rw [BitVec.toNat_append, ← Nat.shiftLeft_add_eq_or_of_lt (BitVec.isLt _)]
    rfl
  rw [toNat_fields b, ofBits_fields _ (BitVec.isLt _) (BitVec.isLt _)]
  unfold UnpackedFloat.unpack
  by_cases hspecial : @unpackExponent Format.binary64 b = -1#_
  · rw [if_pos hspecial, if_pos (hall.mp hspecial)]
    by_cases hinfinite : @unpackMantissa Format.binary64 b = 0#_
    · rw [if_pos hinfinite, if_pos (hwhole.mp hinfinite)]
      rfl
    · rw [if_neg hinfinite, if_neg (mt hwhole.mpr hinfinite)]
      rfl
  rw [if_neg hspecial, if_neg (mt hall.mpr hspecial)]
  by_cases hzero : @unpackExponent Format.binary64 b = 0#_
  · rw [if_pos hzero, if_pos (hnone.mp hzero)]
    by_cases hmantissa : @unpackMantissa Format.binary64 b = 0#_
    · rw [dif_pos hmantissa, hwhole.mp hmantissa]
      rfl
    · have hleast : ((@unpackExponent Format.binary64 b).toNat : Int) - (1023 + 52) + 1 = minExponent := by
        rw [hnone.mp hzero]
        rfl
      rw [dif_neg hmantissa]
      exact congrArg _ hleast
  · rw [if_neg hzero, if_neg (mt hnone.mpr hzero)]
    change finite _ (1#1 ++ @unpackMantissa Format.binary64 b).toNat _ = _
    rw [hhidden]
    rfl

theorem ofFloat_eq (x : Float) : ofFloat x = ofUnpacked x.toModel.unpack := (ofUnpacked_unpack _).symm

theorem Canonical.of_ofBits {b : BitVec 64} {negative : Bool} (h : ofBits b.toNat = finite negative m e) :
    Canonical m e := by
  have hmin := minExponent_eq
  have hfield : (@unpackExponent Format.binary64 b).toNat < 2048 := BitVec.isLt _
  have hfraction : (@unpackMantissa Format.binary64 b).toNat < 2 ^ 52 := BitVec.isLt _
  rw [toNat_fields b, ofBits_fields _ hfield hfraction] at h
  split_ifs at h with hspecial hinfinite hzero <;> cases h
  · exact ⟨by omega, le_rfl, by omega, .inr rfl⟩
  · exact ⟨by omega, by omega, by omega, .inl (by omega)⟩

theorem Canonical.of_ofFloat {x : Float} {negative : Bool} (h : ofFloat x = finite negative m e) : Canonical m e :=
  .of_ofBits (b := x.toBits.toBitVec) h

theorem toNat_packComponents (s : Sign) (exponent : BitVec 11) (mantissa : BitVec 52) :
    (packComponents Format.binary64 s exponent mantissa).toNat =
      signBit (negative s) + exponent.toNat * 2 ^ 52 + mantissa.toNat := by
  unfold packComponents
  simp only [BitVec.toNat_append]
  rw [← Nat.shiftLeft_add_eq_or_of_lt mantissa.isLt, ← Nat.shiftLeft_add_eq_or_of_lt exponent.isLt]
  cases s <;> simp [Sign.toBitVec, signBit, negative, Nat.shiftLeft_eq]
  omega

theorem pack_finite (s : Sign) (hpos : 0 < m) :
    UnpackedFloat.pack Format.binary64 (.finite s m e hpos) =
      if 2047 ≤ (e + 1075).toNat then packComponents Format.binary64 s (-1#11) 0#52
      else if m.log2 = 52 then
        packComponents Format.binary64 s (BitVec.ofNat 11 (e + 1075).toNat) (BitVec.ofNat 52 m)
      else packComponents Format.binary64 s 0#11 (BitVec.ofNat 52 m) := by
  have hbias : e + Format.binary64.exponentBias + Format.binary64.mantissaBitsWithoutImplicit = e + 1075 := by
    change e + 1023 + 52 = e + 1075
    omega
  have hinfinite : 2 ^ Format.binary64.exponentBits ≤ (e + 1075).toNat + 1 ↔ 2047 ≤ (e + 1075).toNat := by
    change 2048 ≤ _ ↔ _
    omega
  have hfull : m.log2 + 1 = Format.binary64.mantissaBits ↔ m.log2 = 52 := by
    change _ = 53 ↔ _
    omega
  unfold UnpackedFloat.pack
  simp only [hbias, hinfinite, hfull]
  rfl

/-- Packing writes the place of a double. -/
theorem toNat_pack_finite (s : Sign) (hpos : 0 < m) (hm : m < 2 ^ 53) (he : minExponent ≤ e)
    (hfull : 2 ^ 52 ≤ m ∨ e = minExponent) :
    (UnpackedFloat.pack Format.binary64 (.finite s m e hpos)).toNat =
      signBit (negative s) + min infinityBits (place m e) := by
  have hmin := minExponent_eq
  have hlog := (Nat.log2_lt hpos.ne').mpr hm
  rw [infinityBits_eq, pack_finite, place]
  split_ifs with hlarge hhidden
  · have hall : (-1#11).toNat = 2047 := rfl
    have hnone : (0#52).toNat = 0 := rfl
    rw [toNat_packComponents, hall, hnone]
    omega
  · have hhidden : 2 ^ 52 ≤ m := (Nat.le_log2 hpos.ne').mp (by omega)
    rw [toNat_packComponents, BitVec.toNat_ofNat, BitVec.toNat_ofNat]
    omega
  · have hsmall : m < 2 ^ 52 := (Nat.log2_lt hpos.ne').mp (by omega)
    have hnone : (0#11).toNat = 0 := rfl
    rw [toNat_packComponents, hnone, BitVec.toNat_ofNat]
    omega

theorem toNat_pack_zero (s : Sign) :
    (UnpackedFloat.pack Format.binary64 (.zero s)).toNat =
      signBit (negative s) + min infinityBits (place 0 minExponent) := by
  cases s <;> rfl

theorem ofBits_pack_notANumber : ofBits (UnpackedFloat.pack Format.binary64 .notANumber).toNat = nan := rfl

theorem ofBits_pack_infinity (s : Sign) :
    ofBits (UnpackedFloat.pack Format.binary64 (.infinity s)).toNat = infinite (negative s) := by
  cases s <;> rfl

/-- Unpacked bits are packed to bits that stand for the same double. -/
theorem ofBits_pack {u : UnpackedFloat} (h : ∀ {s m e}, ofUnpacked u = finite s m e → Canonical m e) :
    ofBits (UnpackedFloat.pack Format.binary64 u).toNat = ofUnpacked u := by
  cases u with
  | notANumber => exact ofBits_pack_notANumber
  | infinity s => exact ofBits_pack_infinity s
  | zero s =>
    rw [toNat_pack_zero, ofBits_place _ (by norm_num) le_rfl (.inr rfl), if_pos (by decide)]
    rfl
  | finite s m e hm =>
    have h := h rfl
    rw [toNat_pack_finite s hm h.lt h.minExponent_le h.full, ofBits_place _ h.lt h.minExponent_le h.full, if_pos h.le]
    rfl

/-! ### Order -/

theorem compare_neg_neg (a b : Rat) : compare (-a) (-b) = (compare a b).swap := by
  rcases lt_trichotomy a b with h | rfl | h
  · rw [compare_lt_iff_lt.mpr h, compare_gt_iff_gt.mpr (neg_lt_neg h)]
    rfl
  · rw [compare_eq_iff_eq.mpr rfl, compare_eq_iff_eq.mpr rfl]
    rfl
  · rw [compare_gt_iff_gt.mpr h, compare_lt_iff_lt.mpr (neg_lt_neg h)]
    rfl

/-- The number of an unpacked double, by its sign. -/
theorem value_ofUnpacked :
    (ofUnpacked (.infinity .negative)).value = -beyond ∧ (ofUnpacked (.infinity .positive)).value = beyond ∧
      (∀ s, (ofUnpacked (.zero s)).value = 0) ∧
      (∀ m e hm, (ofUnpacked (.finite .negative m e hm)).value = -(m * 2 ^ e)) ∧
      ∀ m e hm, (ofUnpacked (.finite .positive m e hm)).value = m * 2 ^ e := by
  have hzero : ((0 : Nat) : Rat) * 2 ^ minExponent = 0 := by rw [Nat.cast_zero, zero_mul]
  refine ⟨rfl, rfl, fun s => ?_, fun _ _ _ => rfl, fun _ _ _ => rfl⟩
  cases s
  · exact (congrArg Neg.neg hzero).trans neg_zero
  · exact hzero

/-- Unpacked doubles are compared as the numbers that they stand for. -/
theorem compare_unpacked {u v : UnpackedFloat} (hu : ofUnpacked u ≠ nan) (hv : ofUnpacked v ≠ nan)
    (hfu : ∀ {s m e}, ofUnpacked u = finite s m e → Canonical m e)
    (hfv : ∀ {s m e}, ofUnpacked v = finite s m e → Canonical m e) :
    u.compare v = some (compare (ofUnpacked u).value (ofUnpacked v).value) := by
  obtain ⟨hbelow, habove, hzero, hnegative, hpositive⟩ := value_ofUnpacked
  have hbeyond := beyond_pos
  have hpos {m : Nat} {e : Int} (hm : 0 < m) : (0 : Rat) < m * 2 ^ e := mul_pos (mod_cast hm) (two_zpow_pos e)
  have hlt {a b : Rat} (h : a < b) : some Ordering.lt = some (compare a b) := by rw [compare_lt_iff_lt.mpr h]
  have hgt {a b : Rat} (h : b < a) : some Ordering.gt = some (compare a b) := by rw [compare_gt_iff_gt.mpr h]
  have heq {a b : Rat} (h : a = b) : some Ordering.eq = some (compare a b) := by rw [compare_eq_iff_eq.mpr h]
  -- The bounds of the numbers tell doubles of different kinds or signs apart.
  cases u with
  | notANumber => exact absurd rfl hu
  | infinity s =>
    cases v with
    | notANumber => exact absurd rfl hv
    | infinity s' =>
      cases s <;> cases s'
      · exact heq rfl
      · exact hlt (by linarith)
      · exact hgt (by linarith)
      · exact heq rfl
    | zero s' =>
      cases s
      · exact hlt (by linarith [hzero s'])
      · exact hgt (by linarith [hzero s'])
    | finite s' n f hn =>
      have hnegative := hnegative n f hn
      have hpositive := hpositive n f hn
      have hn := hpos (e := f) hn
      have hnb := (hfv rfl).lt_beyond
      cases s <;> cases s' <;> first | exact hlt (by linarith) | exact hgt (by linarith)
  | zero s =>
    have hzero := hzero s
    cases v with
    | notANumber => exact absurd rfl hv
    | infinity s' =>
      cases s'
      · exact hgt (by linarith)
      · exact hlt (by linarith)
    | zero s' => exact heq (hzero.trans (value_ofUnpacked.2.2.1 s').symm)
    | finite s' n f hn =>
      have hnegative := hnegative n f hn
      have hpositive := hpositive n f hn
      have hn := hpos (e := f) hn
      cases s'
      · exact hgt (by linarith)
      · exact hlt (by linarith)
  | finite s m e hm =>
    have hmb := (hfu rfl).lt_beyond
    have hm' := hpos (e := e) hm
    cases v with
    | notANumber => exact absurd rfl hv
    | infinity s' =>
      have hnegative := hnegative m e hm
      have hpositive := hpositive m e hm
      cases s <;> cases s' <;> first | exact hlt (by linarith) | exact hgt (by linarith)
    | zero s' =>
      have hzero := hzero s'
      cases s
      · exact hlt (by linarith [hnegative m e hm])
      · exact hgt (by linarith [hpositive m e hm])
    | finite s' n f hn =>
      have hn' := hpos (e := f) hn
      have hsame := (hfu rfl).compare_eq (hfv rfl)
      cases s <;> cases s'
      · rw [hnegative, hnegative, compare_neg_neg, ← hsame]
        rfl
      · exact hlt (by linarith [hnegative m e hm, hpositive n f hn])
      · exact hgt (by linarith [hpositive m e hm, hnegative n f hn])
      · rw [hpositive, hpositive, ← hsame]
        rfl

theorem nan_of_compare_eq_none {u v : UnpackedFloat} (h : ofUnpacked u = nan ∨ ofUnpacked v = nan) :
    u.compare v = none := by
  rcases h with h | h
  · cases u <;> first | rfl | cases h
  · cases v <;> first | (cases u <;> rfl) | cases h

end Binary64

/-- The number that a double stands for. -/
def value (x : Float) : Rat := (Binary64.ofFloat x).value

variable {x y : Float}

/-- A comparison of doubles fails if one of them is no number, and is that of the numbers otherwise. -/
theorem compare_doubles (x y : Float) :
    x.toModel.unpack.compare y.toModel.unpack =
      if Binary64.ofFloat x = .nan ∨ Binary64.ofFloat y = .nan then none else some (compare (value x) (value y)) := by
  have hcanonical (z : Float) {s m e} (h : Binary64.ofUnpacked z.toModel.unpack = .finite s m e) :
      Binary64.Canonical m e := .of_ofFloat ((Binary64.ofFloat_eq z).trans h)
  rw [value, value, Binary64.ofFloat_eq, Binary64.ofFloat_eq]
  split
  · next h => exact Binary64.nan_of_compare_eq_none h
  · next h =>
    rw [not_or] at h
    exact Binary64.compare_unpacked h.1 h.2 (hcanonical x) (hcanonical y)

theorem lt_iff : x < y ↔ Binary64.ofFloat x ≠ .nan ∧ Binary64.ofFloat y ≠ .nan ∧ value x < value y := by
  change decide (x.toModel < y.toModel) = true ↔ _
  rw [decide_eq_true_iff]
  change (x.toModel.unpack.compare y.toModel.unpack == some .lt) = true ↔ _
  rw [compare_doubles, beq_iff_eq]
  split
  · next h => simp only [reduceCtorEq, false_iff]; tauto
  · next h => rw [Option.some_inj, compare_lt_iff_lt]; tauto

theorem le_iff : x ≤ y ↔ Binary64.ofFloat x ≠ .nan ∧ Binary64.ofFloat y ≠ .nan ∧ value x ≤ value y := by
  change decide (x.toModel ≤ y.toModel) = true ↔ _
  rw [decide_eq_true_iff]
  change (x.toModel.unpack.compare y.toModel.unpack).any (·.isLE) = true ↔ _
  rw [compare_doubles]
  split
  · next h => simp only [Option.any_none, Bool.false_eq_true, false_iff]; tauto
  · next h => rw [Option.any_some, Ordering.isLE_iff_ne_gt, ← ne_eq, compare_le_iff_le]; tauto

theorem beq_iff : (x == y) = true ↔ Binary64.ofFloat x ≠ .nan ∧ Binary64.ofFloat y ≠ .nan ∧ value x = value y := by
  change (x.toModel.unpack.compare y.toModel.unpack == some .eq) = true ↔ _
  rw [compare_doubles, beq_iff_eq]
  split
  · next h => simp only [reduceCtorEq, false_iff]; tauto
  · next h => rw [Option.some_inj, compare_eq_iff_eq]; tauto

end CallChart.Number
