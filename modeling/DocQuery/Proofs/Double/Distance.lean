/-
  DocQuery.Proofs.Double.Distance — when two doubles are close.

  Two doubles are close when the numbers that they are differ by less than a fixed amount, `tolerance`, a little
  under the distance from 1 to the next double (`closeTo_iff`). Infinities and the undefined double are close to
  none. The numbers from 1 on are further apart than that, so no two of them are close (`small_of_close`).
-/

import DocQuery.Proofs.Double.Nearest
import DocQuery.Value.Basic

namespace DocQuery.Double

open Float.Model Float.Model.UnpackedFloat

/-! ## The number that a double is -/

def worth? : UnpackedFloat → Option ℚ
  | .zero _ => some 0
  | .finite s m e _ => some ((s.apply m : ℤ) * 2 ^ e)
  | _ => none

/-- The number that a double is, if it is finite. -/
def number (x : Float) : Option ℚ := worth? x.toModel.unpack

theorem abs_apply (s : Sign) (m : ℕ) : |((s.apply m : ℤ) : ℚ)| = m := by
  cases s <;> simp [Sign.apply]

theorem abs_finite (s : Sign) (m : ℕ) (e : ℤ) : |((s.apply m : ℤ) : ℚ) * 2 ^ e| = m * 2 ^ e := by
  rw [abs_mul, abs_apply, abs_of_pos (zpow_pos (by norm_num) e)]

/-- What bits are unpacked to can be packed again. -/
theorem fits_of_bits {b : BitVec Format.binary64.numBits} {s : Sign} {m : ℕ} {e : ℤ} {hm : 0 < m}
    (h : UnpackedFloat.unpack .binary64 b = .finite s m e hm) : Fits m e ∧ e ≤ 971 := by
  have hmantissa : (unpackMantissa b).toNat < 2 ^ 52 := (unpackMantissa b).isLt
  have hexponent : (unpackExponent b).toNat < 2048 := (unpackExponent b).isLt
  unfold UnpackedFloat.unpack at h
  dsimp only at h
  split at h
  · split at h <;> cases h
  rename_i hnotAll
  have hlast : (unpackExponent b).toNat ≠ 2047 := fun hall => hnotAll (BitVec.eq_of_toNat_eq hall)
  split at h
  · rename_i hzero
    split at h
    · cases h
    · injection h with _ hm he
      rw [hzero] at he
      have he : -1074 = e := he
      exact ⟨⟨by omega, by omega, .inr he.symm⟩, by omega⟩
  · rename_i hnonzero
    have hfirst : (unpackExponent b).toNat ≠ 0 := fun hnone => hnonzero (BitVec.eq_of_toNat_eq hnone)
    injection h with _ hm he
    rw [implicit_toNat] at hm
    have he : ((unpackExponent b).toNat : ℤ) - 1075 = e := he
    exact ⟨⟨by omega, by omega, .inl (by omega)⟩, by omega⟩

variable {x y : Float} {p q : ℚ}

/-- A finite double is zero, or has a mantissa and an exponent that fit. -/
theorem parts_of_number (h : number x = some p) :
    (∃ s, x.toModel.unpack = .zero s ∧ p = 0) ∨
      ∃ s m e hm, x.toModel.unpack = .finite s m e hm ∧ Fits m e ∧ e ≤ 971 ∧ p = (s.apply m : ℤ) * 2 ^ e := by
  unfold number at h
  cases hx : x.toModel.unpack with
  | notANumber =>
    rw [hx] at h
    cases h
  | infinity s =>
    rw [hx] at h
    cases h
  | zero s =>
    rw [hx] at h
    exact .inl ⟨s, rfl, (Option.some.inj h).symm⟩
  | finite s m e hm =>
    rw [hx] at h
    obtain ⟨hfits, high⟩ := fits_of_bits hx
    exact .inr ⟨s, m, e, hm, rfl, hfits, high, (Option.some.inj h).symm⟩

/-! ## Rounded distances -/

/-- A double that the distance `d` is rounded to. -/
inductive Rounded (f : UnpackedFloat) : ℚ → Prop
  | zero {s : Sign} (h : f = .zero s) : Rounded f 0
  | nearest {s : Sign} {m r : ℕ} {e : ℤ} (hm : 0 < m) (hr : Nearest r (m * 2 ^ e / 2 ^ place m e))
      (h : Magnitude s f (r * 2 ^ place m e)) : Rounded f (m * 2 ^ e)

/-- A double is rounded to itself. -/
theorem rounded_finite {s : Sign} {m : ℕ} {e : ℤ} (hm : 0 < m) (h : Fits m e) : Rounded (.finite s m e hm) (m * 2 ^ e) := by
  have hself : Nearest m (m * 2 ^ e / 2 ^ place m e) := by
    rw [h.place_eq, mul_div_assoc, div_self (zpow_ne_zero e (by norm_num)), mul_one]
    constructor <;> norm_num
  have hmagnitude : Magnitude s (.finite s m e hm) (m * 2 ^ place m e) := by
    rw [h.place_eq]
    exact .finite hm h
  exact .nearest hm hself hmagnitude

theorem normalize_rounded (k e : ℤ) : Rounded (UnpackedFloat.normalize .binary64 k e .positive) |k * 2 ^ e| := by
  have hscale : (0 : ℚ) < 2 ^ e := zpow_pos (by norm_num) e
  have habs : |(k : ℚ) * 2 ^ e| = k.natAbs * 2 ^ e := by
    rw [abs_mul, abs_of_pos hscale, Nat.cast_natAbs, Int.cast_abs]
  rw [habs]
  unfold UnpackedFloat.normalize
  rcases lt_trichotomy k 0 with hlt | rfl | hgt
  · have hk : (-k).toNat = k.natAbs := by omega
    rw [Int.compare_eq_lt.mpr hlt]
    simp only [hk]
    obtain ⟨r, hr, hround⟩ := round_magnitude .negative (m := k.natAbs) (by omega) e
    exact .nearest (by omega) hr hround
  · rw [Int.natAbs_zero, Nat.cast_zero, zero_mul]
    exact .zero rfl
  · have hk : k.toNat = k.natAbs := by omega
    rw [Int.compare_eq_gt.mpr hgt]
    simp only [hk]
    obtain ⟨r, hr, hround⟩ := round_magnitude .positive (m := k.natAbs) (by omega) e
    exact .nearest (by omega) hr hround

/-- Both mantissas are brought to the lower exponent and subtracted there. -/
theorem sub_finite_rounded {s t : Sign} {m n : ℕ} {e d : ℤ} (hm : 0 < m) (hn : 0 < n) :
    Rounded (UnpackedFloat.sub .binary64 (.finite s m e hm) (.finite t n d hn))
      |((s.apply m : ℤ) : ℚ) * 2 ^ e - (t.apply n : ℤ) * 2 ^ d| := by
  have haligned : ∀ (u : Sign) (k : ℕ) (a : ℤ), min e d ≤ a →
      ((u.apply (k <<< (a - min e d).toNat : ℕ) : ℤ) : ℚ) * 2 ^ min e d = (u.apply k : ℤ) * 2 ^ a := by
    intro u k a ha
    have hlower : a - ((a - min e d).toNat : ℤ) = min e d := by omega
    have hshift := shiftLeft_value k (a - min e d).toNat a
    rw [hlower] at hshift
    cases u with
    | positive => exact_mod_cast hshift
    | negative =>
      simp only [Sign.apply, Int.cast_neg, neg_mul, neg_inj]
      exact_mod_cast hshift
  rw [← haligned s m e (min_le_left e d), ← haligned t n d (min_le_right e d), ← sub_mul, ← Int.cast_sub]
  exact normalize_rounded _ _

theorem sub_rounded (hx : number x = some p) (hy : number y = some q) :
    Rounded (UnpackedFloat.sub .binary64 x.toModel.unpack y.toModel.unpack) |p - q| := by
  rcases parts_of_number hx with ⟨s, hux, rfl⟩ | ⟨s, m, e, hm, hux, hfits, -, rfl⟩
  · rcases parts_of_number hy with ⟨t, huy, rfl⟩ | ⟨t, n, d, hn, huy, hfits, -, rfl⟩
    · rw [hux, huy, sub_self, abs_zero]
      cases s <;> cases t <;> exact .zero rfl
    · rw [hux, huy, zero_sub, abs_neg, abs_finite]
      exact rounded_finite hn hfits
  · rcases parts_of_number hy with ⟨t, huy, rfl⟩ | ⟨t, n, d, hn, huy, -, -, rfl⟩
    · rw [hux, huy, sub_zero, abs_finite]
      exact rounded_finite hm hfits
    · rw [hux, huy]
      exact sub_finite_rounded hm hn

/-! ## Closeness -/

/-- Half a unit of 53 bits less than the distance from 1 to the next double. -/
def tolerance : ℚ := 2 ^ (-52 : ℤ) - 2 ^ (-106 : ℤ)

/-- The double is less than `epsilon` in magnitude. -/
def BelowEpsilon (f : UnpackedFloat) : Prop :=
  ((pack (pack f).unpack.abs).unpack).lt (.finite .positive (2 ^ 52) (-104) (by decide)) = true

theorem closeTo_eq : Value.closeTo x y = true ↔
    BelowEpsilon (UnpackedFloat.sub .binary64 x.toModel.unpack y.toModel.unpack) := by
  have hepsilon : Value.epsilon.toModel.unpack = .finite .positive (2 ^ 52) (-104) (by decide) := rfl
  unfold Value.closeTo BelowEpsilon
  rw [decide_eq_true_iff, ← hepsilon]
  show decide (_ = true) = true ↔ _
  rw [decide_eq_true_iff]
  rfl

/-- Of two mantissas of doubles the exponents decide which is below the least with 53 bits. -/
theorem fits_lt_iff {m : ℕ} {e : ℤ} (h : Fits m e) : (m * 2 ^ e : ℚ) < 2 ^ (-52 : ℤ) ↔ e < -104 := by
  have hmost : (m : ℚ) < 2 ^ 53 := by exact_mod_cast h.most
  constructor
  · intro hlt
    by_contra hge
    have hfull : (2 : ℚ) ^ 52 ≤ m := by exact_mod_cast h.full.resolve_right (by omega)
    have hpower : (2 : ℚ) ^ (-104 : ℤ) ≤ 2 ^ e := zpow_le_zpow_right₀ (by norm_num) (by omega)
    have hvalue : (2 : ℚ) ^ 52 * 2 ^ (-104 : ℤ) = 2 ^ (-52 : ℤ) := by norm_num
    have hproduct := mul_le_mul hfull hpower (by positivity) (by positivity)
    linarith
  · intro hlt
    have hpower : (2 : ℚ) ^ e ≤ 2 ^ (-105 : ℤ) := zpow_le_zpow_right₀ (by norm_num) (by omega)
    have hscale : (0 : ℚ) < 2 ^ e := zpow_pos (by norm_num) e
    calc (m * 2 ^ e : ℚ) < 2 ^ 53 * 2 ^ e := mul_lt_mul_of_pos_right hmost hscale
      _ ≤ 2 ^ 53 * 2 ^ (-105 : ℤ) := mul_le_mul_of_nonneg_left hpower (by positivity)
      _ = 2 ^ (-52 : ℤ) := by norm_num

theorem lt_epsilon_iff {m : ℕ} {e : ℤ} {hm : 0 < m} (h : Fits m e) :
    (UnpackedFloat.finite .positive m e hm).lt (.finite .positive (2 ^ 52) (-104) (by decide)) = true ↔ e < -104 := by
  simp only [UnpackedFloat.lt, UnpackedFloat.compare, beq_iff_eq, Option.some.injEq]
  rcases lt_trichotomy e (-104) with hlt | rfl | hgt
  · simp [Int.compare_eq_lt.mpr hlt, hlt]
  · have hfull : ¬ m < 2 ^ 52 := by
      have := h.full
      omega
    simpa [Nat.compare_eq_lt] using hfull
  · simp [Int.compare_eq_gt.mpr hgt, hgt.le]

theorem Magnitude.belowEpsilon_iff {s : Sign} {f : UnpackedFloat} {v : ℚ} (h : Magnitude s f v) :
    BelowEpsilon f ↔ v < 2 ^ (-52 : ℤ) := by
  unfold BelowEpsilon
  cases h with
  | zero t =>
    have hbelow : (pack (pack (.zero t)).unpack.abs).unpack = .zero .positive := by cases t <;> rfl
    rw [hbelow]
    simp only [UnpackedFloat.lt, UnpackedFloat.compare]
    norm_num
  | @finite m e hm hfits =>
    rw [fits_lt_iff hfits]
    by_cases high : e ≤ 971
    · have habs : (pack (pack (.finite s m e hm)).unpack.abs).unpack = .finite .positive m e hm := by
        rw [unpack_pack_finite hm hfits high]
        exact unpack_pack_finite hm hfits high
      rw [habs]
      exact lt_epsilon_iff hfits
    · have hinfinite : (pack (pack (.finite s m e hm)).unpack.abs).unpack = .infinity .positive := by
        have hpack : (pack (.finite s m e hm)).unpack = .infinity s := by
          show UnpackedFloat.unpack .binary64 (UnpackedFloat.pack .binary64 _) = _
          rw [pack_overflow hm (not_le.mp high), unpack_infinity]
        rw [hpack]
        exact unpack_infinity .positive
      rw [hinfinite]
      simp only [UnpackedFloat.lt, UnpackedFloat.compare]
      constructor
      · intro hlt
        cases hlt
      · omega

/-- Rounding takes a distance below `2 ^ -52` unless it is the last half unit of 53 bits there or more. -/
theorem nearest_small {m r : ℕ} {e : ℤ} (hm : 0 < m) (hr : Nearest r (m * 2 ^ e / 2 ^ place m e)) :
    (r * 2 ^ place m e : ℚ) < 2 ^ (-52 : ℤ) ↔ (m * 2 ^ e : ℚ) < tolerance := by
  obtain ⟨hlow, hhigh⟩ := log2_bounds hm e
  obtain ⟨hmost, hfull⟩ := place_bounds hm e
  have hunit : (0 : ℚ) < 2 ^ place m e := zpow_pos (by norm_num) _
  generalize hx : (m * 2 ^ e / 2 ^ place m e : ℚ) = x at hr hmost hfull
  have hvalue : (m * 2 ^ e : ℚ) = x * 2 ^ place m e := by rw [← hx, div_mul_cancel₀ _ hunit.ne']
  rw [hvalue] at hlow hhigh ⊢
  rcases lt_trichotomy ((m.log2 : ℤ) + e) (-53) with hbelow | hedge | habove
  · have hplace : place m e ≤ -106 := by
      unfold place
      omega
    have hunit' : (2 : ℚ) ^ place m e ≤ 2 ^ (-106 : ℤ) := zpow_le_zpow_right₀ (by norm_num) hplace
    have hsmall : x * 2 ^ place m e < 2 ^ (-53 : ℤ) :=
      hhigh.trans_le (zpow_le_zpow_right₀ (by norm_num) (by omega))
    have hrounded : r * 2 ^ place m e ≤ (x + 1 / 2) * 2 ^ place m e := mul_le_mul_of_nonneg_right hr.high hunit.le
    have hpowers : (2 : ℚ) ^ (-53 : ℤ) + 2 ^ (-106 : ℤ) < tolerance := by norm_num [tolerance]
    have htolerance : tolerance < 2 ^ (-52 : ℤ) := by norm_num [tolerance]
    constructor
    · intro _
      linarith
    · intro _
      linarith
  · have hplace : place m e = -105 := by
      unfold place
      omega
    rw [hplace]
    have hleft : (r : ℚ) * 2 ^ (-105 : ℤ) < 2 ^ (-52 : ℤ) ↔ r < 2 ^ 53 := by
      rw [← lt_div_iff₀ (by norm_num)]
      norm_num
    have hright : x * 2 ^ (-105 : ℤ) < tolerance ↔ x < (2 ^ 53 : ℕ) - 1 / 2 := by
      rw [← lt_div_iff₀ (by norm_num)]
      norm_num [tolerance]
    rw [hleft, hright]
    exact hr.lt_iff (by norm_num)
  · have hplace : -104 ≤ place m e := by
      unfold place
      omega
    have hunit' : (2 : ℚ) ^ (-104 : ℤ) ≤ 2 ^ place m e := zpow_le_zpow_right₀ (by norm_num) hplace
    have hfull : (2 : ℚ) ^ 52 ≤ x := hfull.resolve_right (by omega)
    have hfull' : (2 : ℚ) ^ 52 ≤ r := by exact_mod_cast hr.le_of_le (n := 2 ^ 52) (by exact_mod_cast hfull)
    have hvalue : (2 : ℚ) ^ 52 * 2 ^ (-104 : ℤ) = 2 ^ (-52 : ℤ) := by norm_num
    have htolerance : tolerance < 2 ^ (-52 : ℤ) := by norm_num [tolerance]
    have hexact := mul_le_mul hfull hunit' (by positivity) (by positivity)
    have hrounded := mul_le_mul hfull' hunit' (by positivity) (by positivity)
    constructor
    · intro hlt
      linarith
    · intro hlt
      linarith

theorem Rounded.belowEpsilon_iff {f : UnpackedFloat} {d : ℚ} (h : Rounded f d) : BelowEpsilon f ↔ d < tolerance := by
  cases h with
  | @zero s hf =>
    have hpositive : 0 < tolerance := by norm_num [tolerance]
    rw [hf, (Magnitude.zero (s := s) s).belowEpsilon_iff]
    exact iff_of_true (by norm_num) hpositive
  | nearest hm hr hf => rw [hf.belowEpsilon_iff, nearest_small hm hr]

/-- The undefined double, or an infinity. -/
def isUnbounded : UnpackedFloat → Bool
  | .notANumber => true
  | .infinity _ => true
  | _ => false

theorem number_eq_none_iff : number x = none ↔ isUnbounded x.toModel.unpack = true := by
  unfold number
  cases x.toModel.unpack <;> simp [worth?, isUnbounded]

theorem isNaN_of_number (h : number x = none) (hx : x.isInf = false) : x.isNaN = true := by
  have hunbounded := number_eq_none_iff.mp h
  change x.toModel.unpack.isInf = false at hx
  show x.toModel.unpack.isNaN = true
  cases hunpack : x.toModel.unpack with
  | notANumber => rfl
  | _ => simp_all [isUnbounded, UnpackedFloat.isInf]

theorem number_of_isNaN (h : x.isNaN = true) : number x = none := by
  change x.toModel.unpack.isNaN = true at h
  rw [isNaN_iff] at h
  rw [number_eq_none_iff, h]
  rfl

theorem not_belowEpsilon {f : UnpackedFloat} (h : isUnbounded f = true) : ¬ BelowEpsilon f := by
  unfold BelowEpsilon
  cases f with
  | notANumber => exact Bool.false_ne_true
  | infinity s => cases s <;> exact Bool.false_ne_true
  | zero s => cases h
  | finite s m e hm => cases h

theorem sub_unbounded (f g : UnpackedFloat) (h : isUnbounded f = true ∨ isUnbounded g = true) :
    isUnbounded (f.sub .binary64 g) = true := by
  cases f with
  | notANumber => rfl
  | infinity s =>
    cases g with
    | infinity t => cases s <;> cases t <;> rfl
    | _ => rfl
  | zero s =>
    cases g with
    | notANumber => rfl
    | infinity t => rfl
    | _ => simp [isUnbounded] at h
  | finite s m e hm =>
    cases g with
    | notANumber => rfl
    | infinity t => rfl
    | _ => simp [isUnbounded] at h

/-- Doubles are close when they are numbers that differ by less than the tolerance. -/
theorem closeTo_iff : Value.closeTo x y = true ↔
    ∃ p q, number x = some p ∧ number y = some q ∧ |p - q| < tolerance := by
  rw [closeTo_eq]
  cases hx : number x with
  | none =>
    have hunbounded := sub_unbounded _ y.toModel.unpack (.inl (number_eq_none_iff.mp hx))
    simp [not_belowEpsilon hunbounded]
  | some p =>
    cases hy : number y with
    | none =>
      have hunbounded := sub_unbounded x.toModel.unpack _ (.inr (number_eq_none_iff.mp hy))
      simp [not_belowEpsilon hunbounded]
    | some q =>
      rw [(sub_rounded hx hy).belowEpsilon_iff]
      simp

/-! ## Distances between doubles -/

/-- From 1 on doubles are multiples of the distance from 1 to the next one. -/
theorem grid_of_number (h : number x = some p) (hp : 1 ≤ |p|) : ∃ a : ℤ, p = a * 2 ^ (-52 : ℤ) := by
  rcases parts_of_number h with ⟨-, -, rfl⟩ | ⟨s, m, e, hm, -, hfits, -, rfl⟩
  · norm_num at hp
  · rw [abs_finite] at hp
    have hmost : (m : ℚ) < 2 ^ 53 := by exact_mod_cast hfits.most
    have he : -52 ≤ e := by
      by_contra hlow
      have hpower : (2 : ℚ) ^ e ≤ 2 ^ (-53 : ℤ) := zpow_le_zpow_right₀ (by norm_num) (by omega)
      have hbelow := mul_lt_mul hmost hpower (zpow_pos (by norm_num) e) (by norm_num)
      norm_num at hbelow
      linarith
    have hpower : (2 : ℚ) ^ e = 2 ^ (e + 52).toNat * 2 ^ (-52 : ℤ) := by
      rw [← zpow_natCast, ← zpow_add₀ (by norm_num)]
      congr 1
      omega
    refine ⟨s.apply m * 2 ^ (e + 52).toNat, ?_⟩
    rw [hpower]
    push_cast
    ring

/-- Two different doubles that are close are between -1 and 1. -/
theorem small_of_close (hx : number x = some p) (hy : number y = some q) (hne : p ≠ q) (h : |p - q| < tolerance) :
    |p| ≤ 1 := by
  by_contra hlarge
  have hlarge : 1 < |p| := not_le.mp hlarge
  have htolerance : tolerance < 2 ^ (-52 : ℤ) := by norm_num [tolerance]
  obtain ⟨a, rfl⟩ := grid_of_number hx hlarge.le
  have hunit : (0 : ℚ) < 2 ^ (-52 : ℤ) := by norm_num
  have hscaled : ∀ k : ℤ, |(k : ℚ) * 2 ^ (-52 : ℤ)| = |k| * 2 ^ (-52 : ℤ) := by
    intro k
    rw [abs_mul, abs_of_pos hunit, Int.cast_abs]
  by_cases hq : 1 ≤ |q|
  · obtain ⟨b, rfl⟩ := grid_of_number hy hq
    have hab : a ≠ b := fun hab => hne (by rw [hab])
    have hone : (1 : ℚ) ≤ (|a - b| : ℤ) := by exact_mod_cast Int.one_le_abs (sub_ne_zero.mpr hab)
    rw [← sub_mul, ← Int.cast_sub, hscaled] at h
    linarith [mul_le_mul_of_nonneg_right hone hunit.le]
  · rw [hscaled] at hlarge
    have ha : (2 : ℚ) ^ 52 < (|a| : ℤ) := by
      have hquotient := (div_lt_iff₀ hunit).mpr hlarge
      norm_num at hquotient ⊢
      exact hquotient
    have ha : (2 : ℤ) ^ 52 + 1 ≤ |a| := by exact_mod_cast ha
    have ha : (2 : ℚ) ^ 52 + 1 ≤ (|a| : ℤ) := by exact_mod_cast ha
    have hgap := abs_sub_abs_le_abs_sub ((a : ℚ) * 2 ^ (-52 : ℤ)) q
    rw [hscaled] at hgap
    have hvalue : ((2 : ℚ) ^ 52 + 1) * 2 ^ (-52 : ℤ) = 1 + 2 ^ (-52 : ℤ) := by norm_num
    linarith [mul_le_mul_of_nonneg_right ha hunit.le, not_le.mp hq]

end DocQuery.Double
