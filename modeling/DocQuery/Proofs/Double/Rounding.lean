/-
  DocQuery.Proofs.Double.Rounding — what a double is worth, and how far rounding takes it.

  Only zero and positive doubles with a mantissa of all 53 bits occur (`Worth`); they are told by their bits
  (`Worth.unpack_pack`, `Worth.fields`). Rounding drops bits of a mantissa that is long enough and adds one
  or not, so it goes no further than one unit in the last place (`Ordinary.nears`). Which way it goes at a
  half is not followed: a bound of a whole unit is all that is used.
-/

import Mathlib
import DocQuery.Decimal.Shortest

namespace DocQuery.Double

open Float.Model Float.Model.UnpackedFloat

/-! ## What a double is worth -/

/-- An unpacked double that is the number `v`: zero, or positive with a mantissa of all 53 bits. -/
inductive Worth : UnpackedFloat → ℚ → Prop
  | zero : Worth (.zero .positive) 0
  | normal {m : Nat} {e : Int} (hm : 0 < m) (least : 2 ^ 52 ≤ m) (most : m < 2 ^ 53) (low : -1074 ≤ e)
      (high : e ≤ 971) : Worth (.finite .positive m e hm) (m * 2 ^ e)

theorem unpackMantissa_toNat (b : BitVec Format.binary64.numBits) : (unpackMantissa b).toNat = b.toNat % 2 ^ 52 := by
  simp [unpackMantissa]

theorem unpackExponent_toNat (b : BitVec Format.binary64.numBits) :
    (unpackExponent b).toNat = b.toNat / 2 ^ 52 % 2 ^ 11 := by
  simp [unpackExponent, Nat.shiftRight_eq_div_pow]

theorem implicit_toNat (b : BitVec 52) : (1#1 ++ b).toNat = 2 ^ 52 + b.toNat := by
  rw [BitVec.toNat_append, ← Nat.shiftLeft_add_eq_or_of_lt b.isLt]
  rfl

/-- The mantissas and exponents of doubles: all 53 bits, or fewer and the least exponent. -/
structure Fits (m : Nat) (e : Int) : Prop where
  most : m < 2 ^ 53
  least : -1074 ≤ e
  full : 2 ^ 52 ≤ m ∨ e = -1074

section packing
variable {s : Sign} {m : Nat} {e : Int} (hm : 0 < m)

theorem biased_exponent (e : Int) : e + (1023 : Nat) + (52 : Nat) = e + 1075 := by omega

theorem pack_normal (hlog : m.log2 = 52) (high : e ≤ 971) :
    UnpackedFloat.pack .binary64 (.finite s m e hm) =
      packComponents .binary64 s (.ofNat 11 (e + 1075).toNat) (.ofNat 52 m) := by
  have hfits : ¬ 2048 ≤ (e + 1075).toNat + 1 := by omega
  unfold UnpackedFloat.pack
  simp only [Format.exponentBias, Format.mantissaBits, hlog, Nat.reduceSub, Nat.reducePow, biased_exponent, hfits,
    if_false, Nat.reduceAdd, if_true]

theorem pack_subnormal (hlog : m.log2 < 52) :
    UnpackedFloat.pack .binary64 (.finite s m (-1074) hm) = packComponents .binary64 s 0#11 (.ofNat 52 m) := by
  have hfew : ¬ m.log2 + 1 = 53 := by omega
  unfold UnpackedFloat.pack
  simp only [Format.exponentBias, Format.mantissaBits, Nat.reduceSub, Nat.reducePow, biased_exponent, Nat.reduceAdd,
    hfew, if_false]
  rfl

theorem pack_overflow (high : 971 < e) :
    UnpackedFloat.pack .binary64 (.finite s m e hm) = packedInfinity .binary64 s := by
  have hover : 2048 ≤ (e + 1075).toNat + 1 := by omega
  unfold UnpackedFloat.pack
  simp only [Format.exponentBias, Nat.reduceSub, Nat.reducePow, biased_exponent, hover, if_true]

theorem unpack_pack_normal (hlog : m.log2 = 52) (low : -1074 ≤ e) (high : e ≤ 971) :
    (pack (.finite s m e hm)).unpack = .finite s m e hm := by
  obtain ⟨least, most⟩ := (Nat.log2_eq_iff (by omega)).mp hlog
  have hexponent : (BitVec.ofNat 11 (e + 1075).toNat).toNat = (e + 1075).toNat := by
    rw [BitVec.toNat_ofNat, Nat.mod_eq_of_lt (by omega)]
  have hmantissa : (1#1 ++ BitVec.ofNat 52 m).toNat = m := by
    rw [implicit_toNat, BitVec.toNat_ofNat]
    omega
  have hne : ∀ b : BitVec 11, (e + 1075).toNat ≠ b.toNat → BitVec.ofNat 11 (e + 1075).toNat ≠ b := by
    intro b hb heq
    apply hb
    rw [← heq, hexponent]
  have hnotAll := hne (-1#11) (show _ ≠ 2047 by omega)
  have hnotZero := hne 0#11 (show _ ≠ 0 by omega)
  show UnpackedFloat.unpack .binary64 (UnpackedFloat.pack .binary64 _) = _
  rw [pack_normal hm hlog high]
  unfold UnpackedFloat.unpack
  simp only [unpackMantissa_packComponents, unpackExponent_packComponents, unpackSign_packComponents, hnotAll,
    hnotZero, if_false, hmantissa, hexponent, Sign.ofBitVec_toBitVec]
  congr 1
  show ((e + 1075).toNat : Int) - (1023 + 52) = e
  omega

theorem unpack_pack_subnormal (most : m < 2 ^ 52) :
    (pack (.finite s m (-1074) hm)).unpack = .finite s m (-1074) hm := by
  have hlog : m.log2 < 52 := (Nat.log2_lt (by omega)).mpr most
  have hmantissa : (BitVec.ofNat 52 m).toNat = m := by
    rw [BitVec.toNat_ofNat, Nat.mod_eq_of_lt most]
  have hnotZero : BitVec.ofNat 52 m ≠ 0#52 := by
    intro heq
    rw [heq] at hmantissa
    exact hm.ne hmantissa
  have hnotAll : (0#11 : BitVec 11) ≠ -1#11 := by decide
  show UnpackedFloat.unpack .binary64 (UnpackedFloat.pack .binary64 _) = _
  rw [pack_subnormal hm hlog]
  unfold UnpackedFloat.unpack
  simp only [unpackMantissa_packComponents, unpackExponent_packComponents, unpackSign_packComponents, hnotAll,
    hnotZero, if_false, if_true, dif_neg, not_false_eq_true, hmantissa, Sign.ofBitVec_toBitVec]
  rfl

/-- A double is unpacked as what was packed, zeros in front of the mantissa or not. -/
theorem unpack_pack_finite (h : Fits m e) (high : e ≤ 971) :
    (pack (.finite s m e hm)).unpack = .finite s m e hm := by
  by_cases hfull : 2 ^ 52 ≤ m
  · exact unpack_pack_normal hm ((Nat.log2_eq_iff (by omega)).mpr ⟨hfull, h.most⟩) h.least high
  · obtain rfl := h.full.resolve_left hfull
    exact unpack_pack_subnormal hm (by omega)

end packing

theorem Worth.unpack_pack {f : UnpackedFloat} {v : ℚ} (h : Worth f v) : (pack f).unpack = f := by
  cases h with
  | zero => rfl
  | normal hm least most low high => exact unpack_pack_finite hm ⟨most, low, .inl least⟩ high

/-- The bits of a double of value `v`. -/
theorem Worth.fields {b : BitVec Format.binary64.numBits} {v : ℚ} (h : Worth (UnpackedFloat.unpack .binary64 b) v) :
    b.toNat / 2 ^ 52 % 2 ^ 11 = 0 ∧ b.toNat % 2 ^ 52 = 0 ∧ v = 0 ∨
      b.toNat / 2 ^ 52 % 2 ^ 11 ≠ 0 ∧
        v = (b.toNat % 2 ^ 52 + 2 ^ 52 : Nat) * 2 ^ ((b.toNat / 2 ^ 52 % 2 ^ 11 : Nat) - 1075 : Int) := by
  have hm := unpackMantissa_toNat b
  have he := unpackExponent_toNat b
  unfold UnpackedFloat.unpack at h
  dsimp only at h
  split at h
  · split at h <;> cases h
  split at h
  · rename_i hzero
    rw [hzero] at he
    split at h
    · rename_i hnone
      rw [hnone] at hm
      cases hs : Sign.ofBitVec (unpackSign b) <;> rw [hs] at h
      · cases h
      · cases h
        exact .inl ⟨he.symm, hm.symm, rfl⟩
    · have hlt := (unpackMantissa b).isLt
      cases hs : Sign.ofBitVec (unpackSign b) <;> rw [hs] at h
      · cases h
      · cases h
        omega
  · rename_i hnonzero
    cases hs : Sign.ofBitVec (unpackSign b) <;> rw [hs] at h
    · cases h
    · cases h
      right
      rw [implicit_toNat, hm, he, Nat.add_comm]
      refine ⟨?_, rfl⟩
      intro hzero
      apply hnonzero
      apply BitVec.eq_of_toNat_eq
      rw [he, hzero]
      rfl

open Decimal in
/-- The parts a double is written from are worth what it is worth. -/
theorem Worth.ofFloat {x : Float} {v : ℚ} (h : Worth x.toModel.unpack v) :
    ((Binary.ofFloat x).m : ℚ) * 2 ^ (Binary.ofFloat x).q = v := by
  have hfields := h.fields
  change x.toBits.toNat / 2 ^ 52 % 2 ^ 11 = 0 ∧ x.toBits.toNat % 2 ^ 52 = 0 ∧ v = 0 ∨
    x.toBits.toNat / 2 ^ 52 % 2 ^ 11 ≠ 0 ∧ v = (x.toBits.toNat % 2 ^ 52 + 2 ^ 52 : Nat) *
      2 ^ ((x.toBits.toNat / 2 ^ 52 % 2 ^ 11 : Nat) - 1075 : Int) at hfields
  unfold Binary.ofFloat
  simp only [Nat.pow_eq]
  generalize x.toBits.toNat / 2 ^ 52 % 2 ^ 11 = exponent at hfields
  generalize x.toBits.toNat % 2 ^ 52 = mantissa at hfields
  rcases hfields with ⟨rfl, rfl, rfl⟩ | ⟨he, rfl⟩
  · simp
  · rw [if_neg (by simpa using he)]
    rfl

/-! ## Nearness -/

/-- `w` is `v`, give or take the part `ε` of it. -/
structure Within (ε w v : ℚ) : Prop where
  low : (1 - ε) * v ≤ w
  high : w ≤ (1 + ε) * v

theorem Within.scale {ε w v c : ℚ} (h : Within ε w v) (hc : 0 ≤ c) : Within ε (w * c) (v * c) := by
  constructor
  · rw [← mul_assoc]
    exact mul_le_mul_of_nonneg_right h.low hc
  · rw [← mul_assoc]
    exact mul_le_mul_of_nonneg_right h.high hc

/-- The last of 53 bits, as a part of the number. -/
def ulp : ℚ := 1 / 2 ^ 52

/-- A double that is no more than one unit in its last place away from `v`. -/
def Nears (f : UnpackedFloat) (v : ℚ) : Prop := ∃ w, Worth f w ∧ Within ulp w v

/-! ## Rounding -/

theorem shiftRight_mantissa (em : ExtendedMantissa) (k : Nat) : (em >>> k).mantissa = em.mantissa / 2 ^ k := by
  show (k.repeat ExtendedMantissa.shiftRightOne em).mantissa = _
  induction k with
  | zero => simp [Nat.repeat]
  | succ k ih =>
    show (k.repeat ExtendedMantissa.shiftRightOne em).mantissa / 2 = _
    rw [ih, Nat.div_div_eq_div_mul, ← Nat.pow_succ]

theorem ofMantissaAndAccuracy_mantissa (m : Nat) (a : Accuracy) :
    (ExtendedMantissa.ofMantissaAndAccuracy m a).mantissa = m := by
  cases a with
  | exact => rfl
  | inexact o => cases o <;> rfl

theorem roundedMantissa_bounds (em : ExtendedMantissa) :
    em.mantissa ≤ em.roundedMantissa ∧ em.roundedMantissa ≤ em.mantissa + 1 := by
  unfold ExtendedMantissa.roundedMantissa
  cases em.accuracy with
  | exact => simp [Accuracy.roundToNearestEven]
  | inexact o =>
    cases o with
    | lt => simp [Accuracy.roundToNearestEven]
    | eq =>
      simp only [Accuracy.roundToNearestEven]
      omega
    | gt => simp [Accuracy.roundToNearestEven]

theorem targetExponent_eq (t : Int) : Format.binary64.targetExponent t = max (t - 53) (-1074) := by
  have hleast : Format.binary64.minExponent = -1074 := by decide
  have hbits : Format.binary64.mantissaBits = 53 := by decide
  unfold Format.targetExponent
  rw [hleast, hbits]
  rfl

/-- Shifting a mantissa of at least 53 bits leaves 53 of them. -/
theorem shiftToTargetExponent_eq {m : Nat} {e : Int} (a : Accuracy) (hm : 52 ≤ m.log2) (low : -1022 ≤ m.log2 + e) :
    shiftToTargetExponent .binary64 m e a =
      (ExtendedMantissa.ofMantissaAndAccuracy m a >>> (m.log2 - 52), e + (m.log2 - 52 : Nat)) := by
  have hk : (max ((m.log2 : Int) + 1 + e - 53) (-1074) - e).toNat = m.log2 - 52 := by omega
  unfold shiftToTargetExponent shiftToExponent totalExponent
  simp only [targetExponent_eq, hk]

theorem div_log2 {m : Nat} (hm : 52 ≤ m.log2) : 2 ^ 52 ≤ m / 2 ^ (m.log2 - 52) ∧ m / 2 ^ (m.log2 - 52) < 2 ^ 53 := by
  have hne : m ≠ 0 := by
    intro h
    simp [h] at hm
  have hlow := Nat.log2_self_le hne
  have hhigh := Nat.lt_log2_self (n := m)
  constructor
  · rw [Nat.le_div_iff_mul_le (by positivity), ← Nat.pow_add]
    rwa [Nat.add_sub_cancel' hm]
  · rw [Nat.div_lt_iff_lt_mul (by positivity), ← Nat.pow_add]
    rwa [show 53 + (m.log2 - 52) = m.log2 + 1 by omega]

/-- A double with a mantissa of 53 bits, or of one bit more that is not needed. -/
theorem worth_settled {r : Nat} {e : Int} (least : 2 ^ 52 ≤ r) (most : r ≤ 2 ^ 53) (low : -1074 ≤ e) (high : e ≤ 970)
    (h : 0 < r / 2 ^ (r.log2 - 52)) :
    Worth (.finite .positive (r / 2 ^ (r.log2 - 52)) (e + (r.log2 - 52 : Nat)) h) (r * 2 ^ e) := by
  by_cases hr : r = 2 ^ 53
  · subst hr
    have hvalue : ((2 ^ 53 : Nat) : ℚ) * 2 ^ e = (2 ^ 52 : Nat) * 2 ^ (e + (1 : Nat)) := by
      rw [zpow_add₀ (by norm_num)]
      norm_num
      ring
    rw [hvalue]
    revert h
    rw [Nat.log2_two_pow]
    intro h
    exact .normal h (by omega) (by omega) (by omega) (by omega)
  · have hlog : r.log2 = 52 := (Nat.log2_eq_iff (by omega)).mpr ⟨least, by omega⟩
    revert h
    rw [hlog]
    intro h
    simp only [Nat.sub_self, Nat.pow_zero, Nat.div_one, Nat.cast_zero, add_zero]
    exact .normal _ least (by omega) low (by omega)

/-- What is left of a number after `k` bits of its mantissa have gone, and the next one up. -/
theorem within_cut {m k r : Nat} {v : ℚ} (hq : 2 ^ 52 ≤ m / 2 ^ k) (hr : m / 2 ^ k ≤ r ∧ r ≤ m / 2 ^ k + 1)
    (hlow : m ≤ v) (hhigh : v ≤ m + 1) : Within ulp (r * 2 ^ k) v := by
  have hfloor : m / 2 ^ k * 2 ^ k ≤ m := Nat.div_mul_le_self m (2 ^ k)
  have hceil : m + 1 ≤ (m / 2 ^ k + 1) * 2 ^ k := by
    have := Nat.lt_div_mul_add (a := m) (b := 2 ^ k) (by positivity)
    rw [add_mul]
    omega
  obtain ⟨hqr, hrq⟩ := hr
  generalize m / 2 ^ k = q at hq hqr hrq hfloor hceil
  -- one unit of the last place kept, of which `v` has at least `2 ^ 52`
  have hunit : (0 : ℚ) < 2 ^ k := by positivity
  have hq : (2 ^ 52 : ℚ) ≤ q := by exact_mod_cast hq
  have hqr : (q : ℚ) ≤ r := by exact_mod_cast hqr
  have hrq : (r : ℚ) ≤ q + 1 := by exact_mod_cast hrq
  have hfloor : (q : ℚ) * 2 ^ k ≤ m := by exact_mod_cast hfloor
  have hceil : (m : ℚ) + 1 ≤ (q + 1) * 2 ^ k := by exact_mod_cast hceil
  generalize (2 : ℚ) ^ k = unit at hunit hfloor hceil
  have hlast : unit ≤ ulp * v := by
    have := mul_le_mul_of_nonneg_right hq hunit.le
    unfold ulp
    linarith
  constructor
  · have := mul_le_mul_of_nonneg_right hqr hunit.le
    linarith
  · have := mul_le_mul_of_nonneg_right hrq hunit.le
    linarith

/-- A mantissa of at least 53 bits, cut short by no more than one, is rounded to a double next to the number. -/
theorem roundWithAccuracy_nears {m : Nat} {e : Int} {v : ℚ} (a : Accuracy) (hm : 52 ≤ m.log2) (hlow : m ≤ v)
    (hhigh : v ≤ m + 1) (low : -1022 ≤ m.log2 + e) (high : m.log2 + e ≤ 1022) :
    Nears (roundWithAccuracy .binary64 .positive m e a) (v * 2 ^ e) := by
  obtain ⟨hq, hq'⟩ := div_log2 hm
  generalize hk : m.log2 - 52 = k at hq hq'
  have hrounded := roundedMantissa_bounds (ExtendedMantissa.ofMantissaAndAccuracy m a >>> k)
  rw [shiftRight_mantissa, ofMantissaAndAccuracy_mantissa] at hrounded
  unfold roundWithAccuracy
  rw [shiftToTargetExponent_eq a hm low, hk]
  dsimp only
  generalize (ExtendedMantissa.ofMantissaAndAccuracy m a >>> k).roundedMantissa = r at hrounded
  have hr : 52 ≤ r.log2 := (Nat.le_log2 (by omega)).mpr (by omega)
  rw [shiftToTargetExponent_eq .exact hr (by omega)]
  dsimp only
  rw [shiftRight_mantissa, ofMantissaAndAccuracy_mantissa]
  have hpos : 0 < r / 2 ^ (r.log2 - 52) := Nat.lt_of_lt_of_le (by norm_num) (div_log2 hr).1
  rw [dif_neg (by omega)]
  refine ⟨r * 2 ^ (e + k), worth_settled (by omega) (by omega) (by omega) (by omega) hpos, ?_⟩
  have hvalue : (r : ℚ) * 2 ^ (e + k : Int) = r * 2 ^ k * 2 ^ e := by
    rw [zpow_add₀ (by norm_num), zpow_natCast]
    ring
  rw [hvalue]
  exact (within_cut hq hrounded hlow hhigh).scale (zpow_pos (by norm_num) e).le

/-- Numbers well inside the range of doubles of 53 bits. -/
structure Ordinary (v : ℚ) : Prop where
  low : 2 ^ (-1021 : Int) ≤ v
  high : v < 2 ^ (1023 : Int)

/-- The place of the first bit of an ordinary number. -/
theorem Ordinary.exponent {m : Nat} {e : Int} {v : ℚ} (h : Ordinary (v * 2 ^ e)) (hm : 0 < m) (hlow : m ≤ v)
    (hhigh : v < m + 1) : -1021 ≤ m.log2 + e ∧ m.log2 + e ≤ 1022 := by
  have hscale : (0 : ℚ) < 2 ^ e := zpow_pos (by norm_num) e
  have hleast : (2 : ℚ) ^ m.log2 ≤ v := by
    refine le_trans ?_ hlow
    exact_mod_cast Nat.log2_self_le (by omega)
  have hmost : v < 2 ^ (m.log2 + 1) := by
    refine lt_of_lt_of_le hhigh ?_
    exact_mod_cast Nat.lt_log2_self (n := m)
  have hpowers : ∀ k : Nat, (2 : ℚ) ^ k * 2 ^ e = 2 ^ (k + e : Int) := by
    intro k
    rw [zpow_add₀ (by norm_num), zpow_natCast]
  constructor
  · have : (2 : ℚ) ^ (-1021 : Int) < 2 ^ ((m.log2 + 1 : Nat) + e : Int) := by
      rw [← hpowers]
      exact lt_of_le_of_lt h.low (mul_lt_mul_of_pos_right hmost hscale)
    have := (zpow_lt_zpow_iff_right₀ (by norm_num)).mp this
    omega
  · have : (2 : ℚ) ^ (m.log2 + e : Int) < 2 ^ (1023 : Int) := by
      rw [← hpowers]
      exact lt_of_le_of_lt (mul_le_mul_of_nonneg_right hleast hscale.le) h.high
    have := (zpow_lt_zpow_iff_right₀ (by norm_num)).mp this
    omega

theorem pos_of_log2 {m : Nat} (hm : 52 ≤ m.log2) : 0 < m := by
  by_contra h
  obtain rfl : m = 0 := by omega
  simp at hm

theorem Ordinary.nears {m : Nat} {e : Int} {v : ℚ} (h : Ordinary (v * 2 ^ e)) (a : Accuracy) (hm : 52 ≤ m.log2)
    (hlow : m ≤ v) (hhigh : v < m + 1) : Nears (roundWithAccuracy .binary64 .positive m e a) (v * 2 ^ e) := by
  obtain ⟨low, high⟩ := h.exponent (pos_of_log2 hm) hlow hhigh
  exact roundWithAccuracy_nears a hm hlow hhigh.le (by omega) high

end DocQuery.Double
