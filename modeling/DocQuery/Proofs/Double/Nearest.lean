/-
  DocQuery.Proofs.Double.Nearest — rounding goes to the nearest double.

  A mantissa that is shifted keeps track of what is shifted out in two bits (`Stands`), so rounding takes the
  nearest whole number, and at a half the even one (`nearest_shift`). That makes a mantissa of 53 bits at the least
  exponent at which they suffice (`round_magnitude`), for numbers of every size. A double is packed as it is
  (`unpack_pack_finite`), and one that is too large as an infinity.
-/

import DocQuery.Proofs.Double.Order

namespace DocQuery.Double

open Float.Model Float.Model.UnpackedFloat

/-! ## Whole numbers -/

/-- What a mantissa stands for with the bits behind it: a half, and whether anything follows the half. -/
def Stands : ExtendedMantissa → ℚ → Prop
  | ⟨m, false, false⟩, x => x = m
  | ⟨m, false, true⟩, x => m < x ∧ x < m + 1 / 2
  | ⟨m, true, false⟩, x => x = m + 1 / 2
  | ⟨m, true, true⟩, x => m + 1 / 2 < x ∧ x < m + 1

theorem Stands.shiftRightOne {em : ExtendedMantissa} {x : ℚ} (h : Stands em x) : Stands em.shiftRightOne (x / 2) := by
  obtain ⟨m, half, rest⟩ := em
  have hsplit : (m : ℚ) = (m % 2 : ℕ) + 2 * (m / 2 : ℕ) := by exact_mod_cast (Nat.mod_add_div m 2).symm
  -- the bit that goes is the new half; what was behind it counts as the rest
  rcases Nat.mod_two_eq_zero_or_one m with hbit | hbit <;> rw [hbit] at hsplit <;> push_cast at hsplit <;>
    cases half <;> cases rest <;> simp only [Stands] at h <;> simp only [ExtendedMantissa.shiftRightOne, hbit] <;>
    first
      | (show x / 2 = _; linarith)
      | (show _ < x / 2 ∧ x / 2 < _; constructor <;> linarith)

theorem Stands.shiftRight {em : ExtendedMantissa} {x : ℚ} (h : Stands em x) (k : ℕ) : Stands (em >>> k) (x / 2 ^ k) := by
  show Stands (k.repeat ExtendedMantissa.shiftRightOne em) _
  induction k with
  | zero => simpa [Nat.repeat] using h
  | succ k ih =>
    rw [pow_succ, ← div_div]
    exact ih.shiftRightOne

/-- The whole number nearest to `x`, and of two the even one. -/
structure Nearest (r : ℕ) (x : ℚ) : Prop where
  near : |x - r| ≤ 1 / 2
  even : |x - r| = 1 / 2 → r % 2 = 0

namespace Nearest

variable {r : ℕ} {x : ℚ} (h : Nearest r x)
include h

theorem low : x ≤ r + 1 / 2 := by linarith [(abs_le.mp h.near).2]

theorem high : r ≤ x + 1 / 2 := by linarith [(abs_le.mp h.near).1]

theorem le_of_le {n : ℕ} (hn : (n : ℚ) ≤ x) : n ≤ r := by
  by_contra hlt
  have hnext : (r : ℚ) + 1 ≤ n := by exact_mod_cast not_le.mp hlt
  linarith [h.low]

theorem ge_of_le {n : ℕ} (hn : x ≤ n) : r ≤ n := by
  by_contra hlt
  have hnext : (n : ℚ) + 1 ≤ r := by exact_mod_cast not_le.mp hlt
  linarith [h.high]

theorem eq_of_whole {n : ℕ} (hn : x = n) : r = n := le_antisymm (h.ge_of_le hn.le) (h.le_of_le hn.ge)

/-- Below the half in front of an even number, and not at it, rounding stays below the number. -/
theorem lt_iff {n : ℕ} (hn : n % 2 = 0) : r < n ↔ x < n - 1 / 2 := by
  constructor
  · intro hr
    have hprevious : (r : ℚ) + 1 ≤ n := by exact_mod_cast hr
    refine lt_of_le_of_ne (by linarith [h.low]) fun htie => ?_
    have hlast : (r : ℚ) + 1 = n := by linarith [h.low]
    have hhalf : x - r = 1 / 2 := by linarith
    have heven := h.even (by rw [hhalf]; norm_num)
    have hodd : r + 1 = n := by exact_mod_cast hlast
    omega
  · intro hx
    have : (r : ℚ) < n := by linarith [h.high]
    exact_mod_cast this

end Nearest

theorem Stands.nearest {em : ExtendedMantissa} {x : ℚ} (h : Stands em x) : Nearest em.roundedMantissa x := by
  obtain ⟨m, half, rest⟩ := em
  cases half <;> cases rest <;> simp only [Stands] at h
  · subst h
    show Nearest m m
    constructor <;> norm_num
  · show Nearest m x
    have hnear : |x - m| < 1 / 2 := abs_lt.mpr ⟨by linarith, by linarith⟩
    exact ⟨hnear.le, fun htie => absurd htie hnear.ne⟩
  · subst h
    show Nearest (m + m % 2) (m + 1 / 2)
    rcases Nat.mod_two_eq_zero_or_one m with hbit | hbit <;> rw [hbit]
    · refine ⟨?_, fun _ => hbit⟩
      norm_num
    · refine ⟨?_, fun _ => by omega⟩
      push_cast
      norm_num
  · show Nearest (m + 1) x
    have hnear : |x - (m + 1 : ℕ)| < 1 / 2 := by
      push_cast
      exact abs_lt.mpr ⟨by linarith, by linarith⟩
    exact ⟨hnear.le, fun htie => absurd htie hnear.ne⟩

/-- What is left of a mantissa when bits are shifted out, rounded. -/
theorem nearest_shift (m k : ℕ) :
    Nearest (ExtendedMantissa.ofMantissaAndAccuracy m .exact >>> k).roundedMantissa (m / 2 ^ k) := by
  have hwhole : Stands (ExtendedMantissa.ofMantissaAndAccuracy m .exact) m := rfl
  exact (hwhole.shiftRight k).nearest

/-! ## Mantissas of doubles -/

/-- The exponent at which the first bit of a number is the first of 53, or the least exponent. -/
def place (m : ℕ) (e : ℤ) : ℤ := max ((m.log2 : ℤ) + e - 52) (-1074)

theorem least_le_place (m : ℕ) (e : ℤ) : -1074 ≤ place m e := le_max_right _ _

theorem targetExponent_place (m : ℕ) (e : ℤ) : Format.binary64.targetExponent (totalExponent m e) = place m e := by
  rw [targetExponent_eq]
  unfold totalExponent place
  omega

theorem log2_le {m : ℕ} (hm : m < 2 ^ 53) : m.log2 ≤ 52 := by
  by_cases hzero : m = 0
  · simp [hzero]
  · have := (Nat.log2_lt hzero).mpr hm
    omega

theorem place_le {m : ℕ} {e : ℤ} (hm : m < 2 ^ 53) (he : -1074 ≤ e) : place m e ≤ e := by
  have := log2_le hm
  unfold place
  omega

theorem Fits.place_eq {m : ℕ} {e : ℤ} (h : Fits m e) : place m e = e := by
  have hle := place_le h.most h.least
  rcases h.full with hfull | rfl
  · have hlog : 52 ≤ m.log2 := (Nat.le_log2 (by omega)).mpr hfull
    unfold place at hle ⊢
    omega
  · unfold place at hle ⊢
    omega

/-- A mantissa that needs no shift is left alone. -/
theorem shiftToTargetExponent_fit {m : ℕ} {e : ℤ} (h : place m e ≤ e) :
    shiftToTargetExponent .binary64 m e .exact = (.ofMantissaAndAccuracy m .exact, e) := by
  have hshift : (place m e - e).toNat = 0 := by omega
  unfold shiftToTargetExponent shiftToExponent
  simp only [targetExponent_place, hshift]
  rw [Nat.cast_zero, add_zero]
  rfl

/-- A double of magnitude `v` and, unless it is zero, of sign `s`. -/
inductive Magnitude (s : Sign) : UnpackedFloat → ℚ → Prop
  | zero (s' : Sign) : Magnitude s (.zero s') 0
  | finite {m : ℕ} {e : ℤ} (hm : 0 < m) (h : Fits m e) : Magnitude s (.finite s m e hm) (m * 2 ^ e)

/-- Where the first bit of a number stands. -/
theorem log2_bounds {m : ℕ} (hm : 0 < m) (e : ℤ) :
    (2 : ℚ) ^ ((m.log2 : ℤ) + e) ≤ m * 2 ^ e ∧ m * 2 ^ e < (2 : ℚ) ^ ((m.log2 : ℤ) + e + 1) := by
  have hscale : (0 : ℚ) < 2 ^ e := zpow_pos (by norm_num) e
  have hlow : (2 : ℚ) ^ m.log2 ≤ m := by exact_mod_cast Nat.log2_self_le (by omega)
  have hhigh : (m : ℚ) < 2 ^ (m.log2 + 1) := by exact_mod_cast Nat.lt_log2_self (n := m)
  constructor
  · rw [zpow_add₀ (by norm_num), zpow_natCast]
    exact mul_le_mul_of_nonneg_right hlow hscale.le
  · have hpower : (2 : ℚ) ^ ((m.log2 : ℤ) + e + 1) = 2 ^ (m.log2 + 1) * 2 ^ e := by
      rw [show (m.log2 : ℤ) + e + 1 = (m.log2 + 1 : ℕ) + e by push_cast; ring, zpow_add₀ (by norm_num), zpow_natCast]
    rw [hpower]
    exact mul_lt_mul_of_pos_right hhigh hscale

/-- In units of its place a number has 53 bits before the point, or fewer at the least exponent. -/
theorem place_bounds {m : ℕ} (hm : 0 < m) (e : ℤ) :
    (m * 2 ^ e / 2 ^ place m e : ℚ) < 2 ^ 53 ∧
      ((2 ^ 52 : ℚ) ≤ m * 2 ^ e / 2 ^ place m e ∨ place m e = -1074) := by
  obtain ⟨hlow, hhigh⟩ := log2_bounds hm e
  have hscale : (0 : ℚ) < 2 ^ place m e := zpow_pos (by norm_num) _
  constructor
  · rw [div_lt_iff₀ hscale]
    calc (m * 2 ^ e : ℚ) < 2 ^ ((m.log2 : ℤ) + e + 1) := hhigh
      _ ≤ 2 ^ ((53 : ℕ) + place m e) := zpow_le_zpow_right₀ (by norm_num) (by unfold place; omega)
      _ = 2 ^ 53 * 2 ^ place m e := by rw [zpow_add₀ (by norm_num), zpow_natCast]
  · by_cases hleast : place m e = -1074
    · exact .inr hleast
    · left
      rw [le_div_iff₀ hscale]
      calc (2 ^ 52 * 2 ^ place m e : ℚ) = 2 ^ ((52 : ℕ) + place m e) := by rw [zpow_add₀ (by norm_num), zpow_natCast]
        _ ≤ 2 ^ ((m.log2 : ℤ) + e) := zpow_le_zpow_right₀ (by norm_num) (by unfold place at *; omega)
        _ ≤ m * 2 ^ e := hlow

/-- A mantissa of 53 bits fits, and so does one of one bit more, that rounding carried over to, with its last bit gone. -/
theorem settled_fits {r : ℕ} {t : ℤ} (hr : r ≤ 2 ^ 53) (ht : -1074 ≤ t) (hfull : 2 ^ 52 ≤ r ∨ t = -1074) :
    ∃ n u, (shiftToTargetExponent .binary64 r t .exact).1.mantissa = n ∧
      (shiftToTargetExponent .binary64 r t .exact).2 = u ∧ Fits n u ∧ (n * 2 ^ u : ℚ) = r * 2 ^ t := by
  by_cases hcarry : r = 2 ^ 53
  · subst hcarry
    have hone : (place (2 ^ 53) t - t).toNat = 1 := by
      unfold place
      rw [Nat.log2_two_pow]
      omega
    have hmantissa : (ExtendedMantissa.ofMantissaAndAccuracy (2 ^ 53) .exact >>> 1).mantissa = 2 ^ 52 := by
      rw [shiftRight_mantissa, ofMantissaAndAccuracy_mantissa]
      norm_num
    refine ⟨2 ^ 52, t + (1 : ℕ), ?_, ?_, ⟨by norm_num, by omega, .inl le_rfl⟩, ?_⟩
    · unfold shiftToTargetExponent shiftToExponent
      simp only [targetExponent_place, hone, hmantissa]
    · unfold shiftToTargetExponent shiftToExponent
      simp only [targetExponent_place, hone]
    · rw [zpow_add₀ (by norm_num)]
      norm_num
      ring
  · have hmost : r < 2 ^ 53 := by omega
    rw [shiftToTargetExponent_fit (place_le hmost ht)]
    exact ⟨r, t, rfl, rfl, ⟨hmost, ht, hfull⟩, rfl⟩

theorem magnitude_of_fits (s : Sign) {m : ℕ} {e : ℤ} (h : Fits m e) :
    Magnitude s (if h : m = 0 then .zero s else .finite s m e (Nat.pos_of_ne_zero h)) (m * 2 ^ e) := by
  by_cases hzero : m = 0
  · subst hzero
    rw [dif_pos rfl, Nat.cast_zero, zero_mul]
    exact .zero s
  · rw [dif_neg hzero]
    exact .finite _ h

/-- Rounding takes the nearest number of units of the place. -/
theorem roundWithAccuracy_magnitude (s : Sign) {m : ℕ} {e : ℤ} (hm : 0 < m) (he : e ≤ place m e) :
    ∃ r, Nearest r (m * 2 ^ e / 2 ^ place m e) ∧
      Magnitude s (roundWithAccuracy .binary64 s m e .exact) (r * 2 ^ place m e) := by
  have hshift : shiftToTargetExponent .binary64 m e .exact =
      (ExtendedMantissa.ofMantissaAndAccuracy m .exact >>> (place m e - e).toNat, place m e) := by
    have hplace : e + ((place m e - e).toNat : ℤ) = place m e := by omega
    unfold shiftToTargetExponent shiftToExponent
    simp only [targetExponent_place, hplace]
  have hvalue : (m / 2 ^ (place m e - e).toNat : ℚ) = m * 2 ^ e / 2 ^ place m e := by
    have hpower : (2 : ℚ) ^ place m e = 2 ^ (place m e - e).toNat * 2 ^ e := by
      rw [← zpow_natCast, ← zpow_add₀ (by norm_num)]
      congr 1
      omega
    have hne : (2 : ℚ) ^ e ≠ 0 := zpow_ne_zero e (by norm_num)
    rw [hpower]
    field_simp
  have hnearest := nearest_shift m (place m e - e).toNat
  rw [hvalue] at hnearest
  obtain ⟨hmost, hfull⟩ := place_bounds hm e
  unfold roundWithAccuracy
  rw [hshift]
  dsimp only
  generalize (ExtendedMantissa.ofMantissaAndAccuracy m .exact >>> (place m e - e).toNat).roundedMantissa = r at hnearest
  have hmost := hnearest.ge_of_le (n := 2 ^ 53) (by exact_mod_cast hmost.le)
  have hfull := hfull.imp_left fun hfull => hnearest.le_of_le (n := 2 ^ 52) (by exact_mod_cast hfull)
  obtain ⟨n, u, hn, hu, hfits, hequal⟩ := settled_fits hmost (least_le_place m e) hfull
  simp only [hn, hu]
  refine ⟨r, hnearest, ?_⟩
  rw [← hequal]
  exact magnitude_of_fits s hfits

theorem round_magnitude (s : Sign) {m : ℕ} (hm : 0 < m) (e : ℤ) :
    ∃ r, Nearest r (m * 2 ^ e / 2 ^ place m e) ∧
      Magnitude s (UnpackedFloat.round .binary64 s m e) (r * 2 ^ place m e) := by
  have hplace : place (m <<< (e - place m e).toNat) (e - (e - place m e).toNat) = place m e := by
    unfold place
    rw [log2_shiftLeft hm]
    omega
  have hpos : 0 < m <<< (e - place m e).toNat := by
    rw [Nat.shiftLeft_eq]
    positivity
  unfold UnpackedFloat.round decreaseExponent
  simp only [targetExponent_place]
  obtain ⟨r, hr, hmagnitude⟩ := roundWithAccuracy_magnitude s hpos (e := e - (e - place m e).toNat) (by omega)
  rw [hplace] at hr hmagnitude
  rw [shiftLeft_value] at hr
  exact ⟨r, hr, hmagnitude⟩

/-- At its place or above it a number is not rounded. -/
theorem Nearest.exact {m r : ℕ} {e : ℤ} (h : Nearest r (m * 2 ^ e / 2 ^ place m e)) (hplace : place m e ≤ e) :
    (r * 2 ^ place m e : ℚ) = m * 2 ^ e := by
  have hunit : (2 : ℚ) ^ place m e ≠ 0 := zpow_ne_zero _ (by norm_num)
  have hpower : (2 : ℚ) ^ e = 2 ^ (e - place m e).toNat * 2 ^ place m e := by
    rw [← zpow_natCast, ← zpow_add₀ (by norm_num)]
    congr 1
    omega
  have hwhole : (m * 2 ^ e / 2 ^ place m e : ℚ) = (m * 2 ^ (e - place m e).toNat : ℕ) := by
    rw [hpower, ← mul_assoc, mul_div_assoc, div_self hunit, mul_one]
    push_cast
    rfl
  rw [h.eq_of_whole hwhole, hpower]
  push_cast
  ring

end DocQuery.Double
