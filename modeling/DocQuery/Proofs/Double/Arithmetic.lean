/-
  DocQuery.Proofs.Double.Arithmetic — sums, products, quotients and comparisons of doubles.

  Each operation gives a double next to the exact result, so long as that is neither too small nor too large
  for 53 bits (`Worth.mul`, `Worth.add`, `Worth.div`). Along a chain of operations the errors add up
  (`About.mul`, `About.add`, `About.div`), a part of the number at a time. Comparing and cutting down to a whole
  number are exact (`Is.lt_iff`, `Is.floor`).
-/

import DocQuery.Proofs.Double.Rounding

namespace DocQuery.Double

open Float.Model Float.Model.UnpackedFloat

/-! ## Operations on unpacked doubles -/

theorem shiftLeft_value (m s : Nat) (e : Int) : ((m <<< s : Nat) : ℚ) * 2 ^ (e - s) = m * 2 ^ e := by
  rw [Nat.shiftLeft_eq, zpow_sub₀ (by norm_num), zpow_natCast]
  push_cast
  field_simp

theorem log2_shiftLeft {m : Nat} (hm : 0 < m) (s : Nat) : (m <<< s).log2 = m.log2 + s := by
  have hpos : 0 < 2 ^ s := by positivity
  rw [Nat.shiftLeft_eq, Nat.log2_eq_iff (by positivity)]
  constructor
  · rw [Nat.pow_add]
    exact Nat.mul_le_mul_right _ (Nat.log2_self_le (by omega))
  · rw [Nat.add_right_comm, Nat.pow_add]
    exact Nat.mul_lt_mul_of_pos_right Nat.lt_log2_self hpos

theorem round_nears {m : Nat} {e : Int} (hm : 0 < m) (h : Ordinary (m * 2 ^ e)) :
    Nears (UnpackedFloat.round .binary64 .positive m e) (m * 2 ^ e) := by
  obtain ⟨low, -⟩ := h.exponent hm (le_refl _) (by linarith)
  have hshift : (e - max ((m.log2 : Int) + 1 + e - 53) (-1074)).toNat = 52 - m.log2 := by omega
  unfold UnpackedFloat.round decreaseExponent totalExponent
  simp only [targetExponent_eq, hshift]
  rw [← shiftLeft_value m (52 - m.log2) e] at h ⊢
  refine h.nears .exact ?_ (le_refl _) (by linarith)
  rw [log2_shiftLeft hm]
  omega

theorem normal_pos {m : Nat} (hm : 0 < m) (e : Int) : (0 : ℚ) < m * 2 ^ e :=
  mul_pos (by exact_mod_cast hm) (zpow_pos (by norm_num) e)

theorem Worth.nonneg {f : UnpackedFloat} {v : ℚ} (h : Worth f v) : 0 ≤ v := by
  cases h with
  | zero => exact le_refl 0
  | normal hm => exact (normal_pos hm _).le

theorem ulp_pos : 0 < ulp := by norm_num [ulp]

theorem Worth.nears {f : UnpackedFloat} {v : ℚ} (h : Worth f v) : Nears f v := by
  have hv := mul_nonneg ulp_pos.le h.nonneg
  refine ⟨v, h, ?_, ?_⟩ <;> linarith

/-- Zero, or an ordinary number. -/
def InRange (v : ℚ) : Prop := 0 < v → Ordinary v

theorem Worth.mul {f g : UnpackedFloat} {v w : ℚ} (hf : Worth f v) (hg : Worth g w) (h : InRange (v * w)) :
    Nears (UnpackedFloat.mul .binary64 f g) (v * w) := by
  cases hf with
  | zero =>
    rw [zero_mul]
    cases hg with
    | zero => exact Worth.zero.nears
    | normal => exact Worth.zero.nears
  | @normal m e hm least =>
    cases hg with
    | zero =>
      rw [mul_zero]
      exact Worth.zero.nears
    | @normal n d hn least' =>
      have hordinary := h (mul_pos (normal_pos hm e) (normal_pos hn d))
      have hvalue : (m * 2 ^ e : ℚ) * (n * 2 ^ d) = (m * n : Nat) * 2 ^ (e + d) := by
        rw [zpow_add₀ (by norm_num)]
        push_cast
        ring
      have hproduct : 2 ^ 52 * 2 ^ 52 ≤ m * n := Nat.mul_le_mul least least'
      rw [hvalue] at hordinary ⊢
      refine hordinary.nears .exact ?_ (le_refl _) (by linarith)
      exact (Nat.le_log2 (by omega)).mpr (by omega)

theorem normalize_nears {m : Nat} {e : Int} (h : InRange (m * 2 ^ e)) :
    Nears (UnpackedFloat.normalize .binary64 m e .positive) (m * 2 ^ e) := by
  by_cases hm : m = 0
  · subst hm
    simp only [Nat.cast_zero, zero_mul]
    exact Worth.zero.nears
  · have hpos : 0 < m := Nat.pos_of_ne_zero hm
    have hcompare : compare (m : Int) 0 = .gt := Int.compare_eq_gt.mpr (by omega)
    unfold UnpackedFloat.normalize
    rw [hcompare]
    exact round_nears hpos (h (normal_pos hpos e))

theorem Worth.add {f g : UnpackedFloat} {v w : ℚ} (hf : Worth f v) (hg : Worth g w) (h : InRange (v + w)) :
    Nears (UnpackedFloat.add .binary64 f g) (v + w) := by
  cases hf with
  | zero =>
    rw [zero_add]
    cases hg with
    | zero => exact Worth.zero.nears
    | normal hm least most low high => exact (Worth.normal hm least most low high).nears
  | @normal m e hm least most low high =>
    cases hg with
    | zero =>
      rw [add_zero]
      exact (Worth.normal hm least most low high).nears
    | @normal n d hn =>
      have hordinary := h (add_pos (normal_pos hm e) (normal_pos hn d))
      have haligned : ∀ (k : Nat) (a : Int), min e d ≤ a →
          ((k <<< (a - min e d).toNat : Nat) : ℚ) * 2 ^ min e d = k * 2 ^ a := by
        intro k a ha
        rw [← shiftLeft_value k (a - min e d).toNat a]
        congr 2
        omega
      have hvalue : (m * 2 ^ e : ℚ) + n * 2 ^ d =
          (m <<< (e - min e d).toNat + n <<< (d - min e d).toNat : Nat) * 2 ^ min e d := by
        rw [Nat.cast_add, add_mul, haligned m e (by omega), haligned n d (by omega)]
      rw [hvalue] at hordinary ⊢
      exact normalize_nears fun _ => hordinary

theorem floor_quotient (i : Nat) {n : Nat} (hn : 0 < n) :
    ((i / n : Nat) : ℚ) ≤ i / n ∧ (i : ℚ) / n < (i / n : Nat) + 1 := by
  have hn' : (0 : ℚ) < n := by exact_mod_cast hn
  refine ⟨Nat.cast_div_le, ?_⟩
  rw [div_lt_iff₀ hn']
  exact_mod_cast Nat.lt_mul_of_div_lt (Nat.lt_succ_self (i / n)) hn

theorem Worth.div {f g : UnpackedFloat} {v w : ℚ} (hf : Worth f v) (hg : Worth g w) (hw : 0 < w)
    (h : InRange (v / w)) : Nears (UnpackedFloat.div .binary64 f g) (v / w) := by
  cases hg with
  | zero => exact absurd hw (lt_irrefl 0)
  | @normal n d hn least most =>
    cases hf with
    | zero =>
      rw [zero_div]
      exact Worth.zero.nears
    | @normal m e hm least' most' =>
      have hordinary := h (div_pos (normal_pos hm e) (normal_pos hn d))
      have hvalue : (m * 2 ^ e : ℚ) / (n * (2 : ℚ) ^ d) = (m <<< 53 : Nat) / n * 2 ^ (e - d - 53 : Int) := by
        rw [Nat.shiftLeft_eq, zpow_sub₀ (by norm_num), zpow_sub₀ (by norm_num)]
        push_cast
        have : (2 : ℚ) ^ d ≠ 0 := zpow_ne_zero d (by norm_num)
        field_simp
      rw [hvalue] at hordinary ⊢
      -- the quotient of the mantissas has 53 bits or 54
      have hq : 2 ^ 52 ≤ m <<< 53 / n := by
        rw [Nat.le_div_iff_mul_le hn, Nat.shiftLeft_eq]
        omega
      have hq' : m <<< 53 / n < 2 ^ 54 := by
        rw [Nat.div_lt_iff_lt_mul hn, Nat.shiftLeft_eq]
        omega
      obtain ⟨hlow, hhigh⟩ := floor_quotient (m <<< 53) hn
      obtain ⟨low, -⟩ := hordinary.exponent (by omega) hlow hhigh
      have hbits : (m <<< 53 / n).log2 < 54 := (Nat.log2_lt (by omega)).mpr hq'
      have htarget : min (e - d) (Format.binary64.targetExponent (totalExponent m e - totalExponent n d)) =
          e - d - 53 := by
        have hlog : m.log2 = 52 := (Nat.log2_eq_iff (by omega)).mpr ⟨least', most'⟩
        have hlog' : n.log2 = 52 := (Nat.log2_eq_iff (by omega)).mpr ⟨least, most⟩
        unfold totalExponent
        rw [targetExponent_eq, hlog, hlog']
        omega
      have hshift : (e - d - (e - d - 53)).toNat = 53 := by omega
      show Nears (roundWithAccuracy .binary64 .positive _ _ _) _
      rw [htarget, hshift]
      exact hordinary.nears _ ((Nat.le_log2 (by omega)).mpr hq) hlow hhigh


/-! ## Doubles -/

/-- The double `x` is the number `v`. -/
def Is (x : Float) (v : ℚ) : Prop := Worth x.toModel.unpack v

/-- The double `x` is the number `v`, give or take the part `ε` of it. -/
def About (ε : ℚ) (x : Float) (v : ℚ) : Prop := ∃ w, Is x w ∧ Within ε w v

theorem Nears.about {f : UnpackedFloat} {v : ℚ} (h : Nears f v) : About ulp (.ofModel (pack f)) v := by
  obtain ⟨w, hw, hwithin⟩ := h
  refine ⟨w, ?_, hwithin⟩
  show Worth (pack f).unpack w
  rwa [hw.unpack_pack]

section operations

variable {x y : Float} {v w : ℚ}

theorem Is.mul (hx : Is x v) (hy : Is y w) (h : InRange (v * w)) : About ulp (x * y) (v * w) :=
  (Worth.mul hx hy h).about

theorem Is.add (hx : Is x v) (hy : Is y w) (h : InRange (v + w)) : About ulp (x + y) (v + w) :=
  (Worth.add hx hy h).about

theorem Is.div (hx : Is x v) (hy : Is y w) (hw : 0 < w) (h : InRange (v / w)) : About ulp (x / y) (v / w) :=
  (Worth.div hx hy hw h).about

theorem Is.nonneg (hx : Is x v) : 0 ≤ v := Worth.nonneg hx

theorem Is.least (hx : Is x v) (hv : 0 < v) : 2 ^ (-1022 : Int) ≤ v := by
  unfold Is at hx
  generalize x.toModel.unpack = f at hx
  cases hx with
  | zero => exact absurd hv (lt_irrefl 0)
  | @normal m e hm least most low =>
    have hleast : (2 : ℚ) ^ (52 : Int) ≤ m := by exact_mod_cast least
    calc (2 : ℚ) ^ (-1022 : Int) ≤ 2 ^ (52 + e) := zpow_le_zpow_right₀ (by norm_num) (by omega)
      _ = 2 ^ (52 : Int) * 2 ^ e := zpow_add₀ (by norm_num) 52 e
      _ ≤ m * 2 ^ e := mul_le_mul_of_nonneg_right hleast (zpow_pos (by norm_num) e).le

theorem Is.about (hx : Is x v) {ε : ℚ} (hε : 0 ≤ ε) : About ε x v := by
  have hv := mul_nonneg hε hx.nonneg
  refine ⟨v, hx, ?_, ?_⟩ <;> linarith

/-- Of two doubles of 53 bits the one with the lower exponent is less. -/
theorem normal_lt {m n : Nat} {e d : Int} (most : m < 2 ^ 53) (least : 2 ^ 52 ≤ n) (h : e < d) :
    (m * 2 ^ e : ℚ) < n * 2 ^ d := by
  have hscale : (0 : ℚ) < 2 ^ e := zpow_pos (by norm_num) e
  have hmost : (m : ℚ) < 2 ^ 53 := by exact_mod_cast most
  have hleast : (2 : ℚ) ^ 52 ≤ n := by exact_mod_cast least
  have hnext : (2 : ℚ) * 2 ^ e ≤ 2 ^ d := by
    rw [mul_comm, ← zpow_add_one₀ (by norm_num)]
    exact zpow_le_zpow_right₀ (by norm_num) (by omega)
  calc (m * 2 ^ e : ℚ) < 2 ^ 53 * 2 ^ e := mul_lt_mul_of_pos_right hmost hscale
    _ = 2 ^ 52 * (2 * 2 ^ e) := by ring
    _ ≤ n * 2 ^ d := mul_le_mul hleast hnext (by positivity) (by positivity)

theorem Worth.lt_iff {f g : UnpackedFloat} (hf : Worth f v) (hg : Worth g w) : f.lt g = true ↔ v < w := by
  unfold UnpackedFloat.lt
  cases hf with
  | zero =>
    cases hg with
    | zero => simp [UnpackedFloat.compare]
    | normal hn => simpa [UnpackedFloat.compare] using normal_pos hn _
  | @normal m e hm least most =>
    cases hg with
    | zero => simpa [UnpackedFloat.compare] using (normal_pos hm e).le
    | @normal n d hn least' most' =>
      have hscale : (0 : ℚ) < 2 ^ e := zpow_pos (by norm_num) e
      simp only [UnpackedFloat.compare]
      rcases lt_trichotomy e d with hlt | rfl | hgt
      · have := normal_lt most least' hlt
        simp [compare_lt_iff_lt.mpr hlt, this]
      · rw [mul_lt_mul_iff_left₀ hscale]
        simp [compare_lt_iff_lt]
      · have := normal_lt most' least hgt
        simp [compare_gt_iff_gt.mpr hgt, this.le]

theorem Is.lt_iff (hx : Is x v) (hy : Is y w) : x < y ↔ v < w := by
  rw [← Worth.lt_iff hx hy]
  show decide (x.toModel.unpack.lt y.toModel.unpack = true) = true ↔ _
  rw [decide_eq_true_iff]

theorem roundToInt_floor (m : Nat) (e : Int) : roundToInt .positive m e = ⌊(m * 2 ^ e : ℚ)⌋₊ := by
  unfold roundToInt decreaseExponent shiftToExponent
  simp only [shiftRight_mantissa, ofMantissaAndAccuracy_mantissa, Sign.apply]
  by_cases he : 0 ≤ e
  · have hshift : (0 - (e - ((e - 0).toNat : Int))).toNat = 0 := by omega
    have hvalue : (m * 2 ^ e : ℚ) = (m <<< (e - 0).toNat : Nat) := by
      rw [← shiftLeft_value m (e - 0).toNat e, show e - ((e - 0).toNat : Int) = 0 by omega, zpow_zero, mul_one]
    rw [hshift, hvalue, Nat.floor_natCast, Nat.pow_zero, Nat.div_one]
  · have hshift : (e - 0).toNat = 0 := by omega
    have hvalue : (m * 2 ^ e : ℚ) = (m : ℚ) / (2 ^ (-e).toNat : Nat) := by
      rw [div_eq_mul_inv, Nat.cast_pow, ← zpow_natCast, ← zpow_neg]
      congr 2
      omega
    rw [hshift, hvalue, Nat.floor_div_natCast, Nat.floor_natCast]
    simp

theorem Worth.toInt_floor {f : UnpackedFloat} (hf : Worth f v) (a b : Int) : f.toInt a b = ⌊v⌋₊ := by
  cases hf with
  | zero => simp [UnpackedFloat.toInt]
  | @normal m e => exact roundToInt_floor m e

/-- A double cut down to a whole number. -/
theorem Is.floor (hx : Is x v) (hv : v < 2 ^ 64) : x.toUInt64.toNat = ⌊v⌋₊ := by
  have hsmall : ⌊v⌋₊ < UInt64.size := (Nat.floor_lt hx.nonneg).mpr (by exact_mod_cast hv)
  show (UInt64.ofNatClamp (x.toModel.unpack.toInt 0 (UInt64.size - 1)).toNat).toNat = _
  rw [Worth.toInt_floor hx, Int.toNat_natCast]
  unfold UInt64.ofNatClamp
  rw [dif_pos hsmall]
  rfl

end operations

/-- How far up, and down, the numbers go whose roundings are followed. -/
def reach : ℚ := 10 ^ 307

/-- Numbers between a thousandth and a thousand are ordinary. -/
theorem ordinary_between {v : ℚ} (hlow : 1 / 1000 ≤ v) (hhigh : v ≤ 2 ^ 20) : Ordinary v := by
  constructor
  · refine le_trans ?_ hlow
    calc (2 : ℚ) ^ (-1021 : Int) ≤ 2 ^ (-10 : Int) := zpow_le_zpow_right₀ (by norm_num) (by norm_num)
      _ ≤ 1 / 1000 := by norm_num
  · refine lt_of_le_of_lt hhigh ?_
    exact zpow_lt_zpow_right₀ (by norm_num) (by norm_num : (20 : Int) < 1023)

theorem thousand_le_reach : 1000 ≤ reach :=
  le_trans (by norm_num) (pow_le_pow_right₀ (by norm_num) (by norm_num : 3 ≤ 307))

theorem inv_reach_le : 1 / reach ≤ 1 / 1000 := one_div_le_one_div_of_le (by norm_num) thousand_le_reach

/-- A number that stays ordinary when it is rounded. -/
structure Roomy (v : ℚ) : Prop where
  low : 0 < v → 1 / reach ≤ v
  high : v ≤ reach

theorem roomy_natCast {n : Nat} (h : n ≤ 10 ^ 307) : Roomy n := by
  constructor
  · intro hn
    have hone : (1 : ℚ) ≤ n := by exact_mod_cast hn
    linarith [inv_reach_le]
  · unfold reach
    exact_mod_cast h

theorem reach_lt : 5 * reach < 4 * 2 ^ 1023 := by
  unfold reach
  exact_mod_cast (by decide +kernel : 5 * 10 ^ 307 < 4 * 2 ^ 1023)

theorem reach_le : 4 * reach ≤ 3 * 2 ^ 1021 := by
  unfold reach
  exact_mod_cast (by decide +kernel : 4 * 10 ^ 307 ≤ 3 * 2 ^ 1021)

theorem Within.inRange {ε w v : ℚ} (h : Within ε w v) (hv : Roomy v) (hnonneg : 0 ≤ v) (hε : ε ≤ 1 / 4) :
    InRange w := by
  intro hw
  have hreach : 0 < reach := lt_of_lt_of_le (by norm_num) thousand_le_reach
  have hpos : 0 < v := by
    rcases hnonneg.lt_or_eq with hpos | rfl
    · exact hpos
    · exact absurd (lt_of_lt_of_le hw h.high) (by simp)
  constructor
  · calc (2 : ℚ) ^ (-1021 : Int) = 1 / 2 ^ 1021 := by rw [zpow_neg, one_div]; rfl
      _ ≤ 3 / 4 * (1 / reach) := by
        rw [div_mul_div_comm, div_le_div_iff₀ (by positivity) (by positivity), mul_one, one_mul]
        exact reach_le
      _ ≤ (1 - ε) * v := mul_le_mul (by linarith) (hv.low hpos) (by positivity) (by linarith)
      _ ≤ w := h.low
  · calc w ≤ (1 + ε) * v := h.high
      _ ≤ 5 / 4 * reach := mul_le_mul (by linarith) hv.high hnonneg (by norm_num)
      _ < 2 ^ 1023 := by
        rw [div_mul_eq_mul_div, div_lt_iff₀ (by norm_num), mul_comm _ 4]
        exact reach_lt

theorem Within.mono {ε δ w v : ℚ} (h : Within ε w v) (hv : 0 ≤ v) (hε : ε ≤ δ) : Within δ w v := by
  have hpart := mul_le_mul_of_nonneg_right hε hv
  have := h.low
  have := h.high
  constructor <;> linarith

theorem Within.abs_sub_le {ε w v bound : ℚ} (h : Within ε w v) (hε : 0 ≤ ε) (hv : v ≤ bound) : |w - v| ≤ ε * bound := by
  have hpart := mul_le_mul_of_nonneg_left hv hε
  have := h.low
  have := h.high
  rw [abs_le]
  constructor <;> linarith

theorem Within.min {ε w v z u : ℚ} (h : Within ε w v) (h' : Within ε z u) (hε : ε ≤ 1) :
    Within ε (min w z) (min v u) := by
  have hpart : 0 ≤ 1 - ε := by linarith
  constructor
  · apply le_min
    · exact (mul_le_mul_of_nonneg_left (min_le_left v u) hpart).trans h.low
    · exact (mul_le_mul_of_nonneg_left (min_le_right v u) hpart).trans h'.low
  · rcases min_choice v u with hmin | hmin <;> rw [hmin]
    · exact (min_le_left w z).trans h.high
    · exact (min_le_right w z).trans h'.high

theorem Within.trans {ε w v z : ℚ} (h : Within ε w v) (h' : Within ulp z w) (hv : 0 ≤ v) (hε : 0 ≤ ε) (hε' : ε ≤ 1) :
    Within (ε + 2 * ulp) z v := by
  have hulp := ulp_pos
  have hulp' : ulp ≤ 1 := by norm_num [ulp]
  have hcross : ε * ulp * v ≤ ulp * v := by
    refine mul_le_mul_of_nonneg_right ?_ hv
    exact mul_le_of_le_one_left hulp.le hε'
  have hcross' : 0 ≤ ε * ulp * v := mul_nonneg (mul_nonneg hε hulp.le) hv
  have hpart := mul_nonneg hulp.le hv
  constructor
  · calc (1 - (ε + 2 * ulp)) * v ≤ (1 - ulp) * ((1 - ε) * v) := by linarith
      _ ≤ (1 - ulp) * w := mul_le_mul_of_nonneg_left h.low (by linarith)
      _ ≤ z := h'.low
  · calc z ≤ (1 + ulp) * w := h'.high
      _ ≤ (1 + ulp) * ((1 + ε) * v) := mul_le_mul_of_nonneg_left h.high (by linarith)
      _ ≤ (1 + (ε + 2 * ulp)) * v := by linarith

theorem Within.add {ε w v z u : ℚ} (h : Within ε w v) (h' : Within ε z u) : Within ε (w + z) (v + u) := by
  have := h.low
  have := h.high
  have := h'.low
  have := h'.high
  constructor <;> linarith

theorem Within.div {ε w v z u : ℚ} (h : Within ε w v) (h' : Within ε z u) (hv : 0 ≤ v) (hu : 0 < u) (hε : 0 ≤ ε)
    (hε' : ε ≤ 1 / 4) : Within (3 * ε) (w / z) (v / u) := by
  have hz : 0 < z := lt_of_lt_of_le (mul_pos (by linarith) hu) h'.low
  constructor
  · rw [← mul_div_assoc, div_le_div_iff₀ hu hz]
    calc (1 - 3 * ε) * v * z ≤ (1 - 3 * ε) * v * ((1 + ε) * u) :=
          mul_le_mul_of_nonneg_left h'.high (mul_nonneg (by linarith) hv)
      _ = (1 - 3 * ε) * (1 + ε) * (v * u) := by ring
      _ ≤ (1 - ε) * (v * u) := mul_le_mul_of_nonneg_right (by nlinarith) (by positivity)
      _ = (1 - ε) * v * u := by ring
      _ ≤ w * u := mul_le_mul_of_nonneg_right h.low hu.le
  · rw [← mul_div_assoc, div_le_div_iff₀ hz hu]
    calc w * u ≤ (1 + ε) * v * u := mul_le_mul_of_nonneg_right h.high hu.le
      _ = (1 + ε) * (v * u) := by ring
      _ ≤ (1 + 3 * ε) * (1 - ε) * (v * u) := mul_le_mul_of_nonneg_right (by nlinarith) (by positivity)
      _ = (1 + 3 * ε) * v * ((1 - ε) * u) := by ring
      _ ≤ (1 + 3 * ε) * v * z := mul_le_mul_of_nonneg_left h'.low (mul_nonneg (by linarith) hv)

section chains

variable {x y : Float} {v w ε : ℚ}

theorem About.mono {δ : ℚ} (hx : About ε x v) (hv : 0 ≤ v) (h : ε ≤ δ) : About δ x v := by
  obtain ⟨a, ha, hwithin⟩ := hx
  exact ⟨a, ha, hwithin.mono hv h⟩

theorem About.mul {c : ℚ} (hx : About ε x v) (hy : Is y c) (hv : 0 ≤ v) (h : Roomy (v * c)) (hε : 0 ≤ ε)
    (hε' : ε ≤ 1 / 4) : About (ε + 2 * ulp) (x * y) (v * c) := by
  obtain ⟨a, ha, hwithin⟩ := hx
  have hscaled := hwithin.scale hy.nonneg
  have hpos := mul_nonneg hv hy.nonneg
  obtain ⟨z, hz, hrounded⟩ := ha.mul hy (hscaled.inRange h hpos hε')
  exact ⟨z, hz, hscaled.trans hrounded hpos hε (by linarith)⟩

theorem About.add (hx : About ε x v) (hy : About ε y w) (hv : 0 ≤ v) (hw : 0 ≤ w) (h : Roomy (v + w)) (hε : 0 ≤ ε)
    (hε' : ε ≤ 1 / 4) : About (ε + 2 * ulp) (x + y) (v + w) := by
  obtain ⟨a, ha, hwithin⟩ := hx
  obtain ⟨b, hb, hwithin'⟩ := hy
  have hsum := hwithin.add hwithin'
  have hpos := add_nonneg hv hw
  obtain ⟨z, hz, hrounded⟩ := ha.add hb (hsum.inRange h hpos hε')
  exact ⟨z, hz, hsum.trans hrounded hpos hε (by linarith)⟩

theorem About.div (hx : About ε x v) (hy : About ε y w) (hv : 0 ≤ v) (hw : 0 < w) (h : Roomy (v / w)) (hε : 0 ≤ ε)
    (hε' : ε ≤ 1 / 12) : About (3 * ε + 2 * ulp) (x / y) (v / w) := by
  obtain ⟨a, ha, hwithin⟩ := hx
  obtain ⟨b, hb, hwithin'⟩ := hy
  have hquotient := hwithin.div hwithin' hv hw hε (by linarith)
  have hpos := div_nonneg hv hw.le
  have hb' : 0 < b := lt_of_lt_of_le (mul_pos (by linarith) hw) hwithin'.low
  obtain ⟨z, hz, hrounded⟩ := ha.div hb hb' (hquotient.inRange h hpos (by linarith))
  exact ⟨z, hz, hquotient.trans hrounded hpos (by linarith) (by linarith)⟩

end chains

/-! ## Doubles written out -/

/-- A double read off its mantissa and exponent. -/
theorem Is.of_parts {x : Float} {m : Nat} {e : Int} {hm : 0 < m} {v : ℚ}
    (h : x.toModel.unpack = .finite .positive m e hm) (bits : m.log2 = 52 ∧ -1074 ≤ e ∧ e ≤ 971) (hv : m * 2 ^ e = v) :
    Is x v := by
  obtain ⟨hlog, low, high⟩ := bits
  obtain ⟨least, most⟩ := (Nat.log2_eq_iff (by omega)).mp hlog
  unfold Is
  rw [h, ← hv]
  exact .normal hm least most low high

theorem zero_is : Is 0.0 0 := .zero

theorem half_is : Is 0.5 (1 / 2) := by
  have h : (0.5 : Float).toModel.unpack = .finite .positive (2 ^ 52) (-53) (by decide) := rfl
  exact .of_parts h (by decide) (by norm_num)

theorem one_is : Is 1.0 1 := by
  have h : (1.0 : Float).toModel.unpack = .finite .positive (2 ^ 52) (-52) (by decide) := rfl
  exact .of_parts h (by decide) (by norm_num)

theorem ten_is : Is 10.0 10 := by
  have h : (10.0 : Float).toModel.unpack = .finite .positive (10 * 2 ^ 49) (-49) (by decide) := rfl
  exact .of_parts h (by decide) (by norm_num)

theorem thousand_is : Is 1000.0 1000 := by
  have h : (1000.0 : Float).toModel.unpack = .finite .positive (1000 * 2 ^ 43) (-43) (by decide) := rfl
  exact .of_parts h (by decide) (by norm_num)

/-- A small natural number becomes a double by way of a multiplication with one. -/
theorem ofNat_small {n : Nat} (hn : n < 2 ^ 53) : Float.ofNat n = n.toUInt64.toFloat * 1.0 := by
  unfold Float.ofNat OfScientific.ofScientific instOfScientificFloat Float.ofScientific
  simp only
  rw [dif_pos ⟨hn, by omega⟩]
  rfl

theorem ofNat_about {n : Nat} (hn : n < 2 ^ 53) : About (3 * ulp) (Float.ofNat n) n := by
  have hroomy : Roomy n := roomy_natCast (hn.le.trans (by decide +kernel))
  have hword : n.toUInt64.toNat = n := by
    show n % 2 ^ 64 = n
    omega
  have hwhole : About ulp n.toUInt64.toFloat n := by
    show About ulp (.ofModel (pack (UnpackedFloat.normalize .binary64 (n.toUInt64.toNat : Int) 0 .positive))) n
    have hexact : Within 0 (n : ℚ) n := ⟨by simp, by simp⟩
    have hvalue : (n : ℚ) = n * 2 ^ (0 : Int) := by simp
    rw [hword, hvalue]
    apply Nears.about
    apply normalize_nears
    rw [← hvalue]
    exact hexact.inRange hroomy (by positivity) (by norm_num)
  rw [ofNat_small hn]
  have := hwhole.mul one_is (by positivity) (by simpa using hroomy) ulp_pos.le (by norm_num [ulp])
  rw [mul_one] at this
  exact this.mono (by positivity) (by linarith)

end DocQuery.Double
