/-
  DocQuery.Proofs.Double.Order — doubles that are numbers stand in a line.

  A double other than the undefined one has a rank: infinities outside, zero in the middle, and between them
  the exponent and then the mantissa decide. Doubles compare as their ranks do (`compareFloats_rank`,
  `lt_iff_rank`), so among numbers the order is total and transitive; the undefined double spoils both. No
  integer becomes the undefined one (`ofInt_number`).
-/

import DocQuery.Proofs.Double.Arithmetic
import DocQuery.Store.Cell

namespace DocQuery.Double

open Float.Model Float.Model.UnpackedFloat

/-! ## Ranks -/

/-- Where a double stands among all: what kind it is, then exponent and mantissa, turned round below zero. -/
def rankOf : UnpackedFloat → ℤ ×ₗ ℤ ×ₗ ℤ
  | .infinity .negative => toLex (-2, toLex (0, 0))
  | .finite .negative m e _ => toLex (-1, toLex (-e, -m))
  | .zero _ => toLex (0, toLex (0, 0))
  | .finite .positive m e _ => toLex (1, toLex (e, m))
  | .infinity .positive => toLex (2, toLex (0, 0))
  | .notANumber => toLex (0, toLex (0, 0))

theorem compare_lex (a b c a' b' c' : ℤ) :
    compare (toLex (a, toLex (b, c)) : ℤ ×ₗ ℤ ×ₗ ℤ) (toLex (a', toLex (b', c'))) =
      (compare a a').then ((compare b b').then (compare c c')) :=
  rfl

theorem compare_neg (a b : ℤ) : compare (-a) (-b) = (compare a b).swap := by
  have hanti : StrictAnti fun x : ℤ => -x := fun _ _ h => neg_lt_neg h
  rw [← cmp_eq_compare, ← cmp_eq_compare, cmp_swap]
  exact hanti.cmp_map_eq a b

theorem compare_natCast (m n : ℕ) : compare (m : ℤ) n = compare m n := by
  rw [← cmp_eq_compare, ← cmp_eq_compare]
  exact Nat.strictMono_cast.cmp_map_eq m n

theorem compare_rankOf {f g : UnpackedFloat} (hf : f ≠ .notANumber) (hg : g ≠ .notANumber) :
    f.compare g = some (compare (rankOf f) (rankOf g)) := by
  cases f with
  | notANumber => exact absurd rfl hf
  | infinity s =>
    cases g with
    | notANumber => exact absurd rfl hg
    | infinity s' => cases s <;> cases s' <;> rfl
    | zero => cases s <;> rfl
    | finite s' => cases s <;> cases s' <;> rfl
  | zero =>
    cases g with
    | notANumber => exact absurd rfl hg
    | infinity s' => cases s' <;> rfl
    | zero => rfl
    | finite s' => cases s' <;> rfl
  | finite s =>
    cases g with
    | notANumber => exact absurd rfl hg
    | infinity s' => cases s <;> cases s' <;> rfl
    | zero => cases s <;> rfl
    | finite s' =>
      cases s <;> cases s'
      case negative.negative =>
        simp only [UnpackedFloat.compare, rankOf, compare_lex, compare_neg, compare_natCast]
        simp [Ordering.swap_then]
      case positive.positive =>
        simp only [UnpackedFloat.compare, rankOf, compare_lex, compare_natCast]
        simp
      all_goals rfl

def rank (x : Float) : ℤ ×ₗ ℤ ×ₗ ℤ := rankOf x.toModel.unpack

variable {x y : Float}

theorem unpack_of_number (hx : x.isNaN = false) : x.toModel.unpack ≠ .notANumber := by
  intro h
  have hnan : x.isNaN = x.toModel.unpack.isNaN := rfl
  rw [hnan, h] at hx
  cases hx

theorem lt_iff_rank (hx : x.isNaN = false) (hy : y.isNaN = false) : x < y ↔ rank x < rank y := by
  have h := compare_rankOf (unpack_of_number hx) (unpack_of_number hy)
  show decide (x.toModel.unpack.lt y.toModel.unpack = true) = true ↔ _
  rw [decide_eq_true_iff, UnpackedFloat.lt, h, beq_iff_eq, Option.some.injEq, compare_lt_iff_lt]
  rfl

theorem beq_iff_rank (hx : x.isNaN = false) (hy : y.isNaN = false) : (x == y) = true ↔ rank x = rank y := by
  have h := compare_rankOf (unpack_of_number hx) (unpack_of_number hy)
  show x.toModel.unpack.beq y.toModel.unpack = true ↔ _
  rw [UnpackedFloat.beq, h, beq_iff_eq, Option.some.injEq, compare_eq_iff_eq]
  rfl

/-- Numbers compare as their ranks. -/
theorem compareFloats_rank (hx : x.isNaN = false) (hy : y.isNaN = false) :
    Cell.compareFloats x y = compare (rank x) (rank y) := by
  simp only [Cell.compareFloats, lt_iff_rank hx hy, beq_iff_rank hx hy]
  rw [LinearOrder.compare_eq_compareOfLessAndEq, compareOfLessAndEq]

/-! ## Integers -/

theorem unpack_infinity (s : Sign) : UnpackedFloat.unpack .binary64 (packedInfinity .binary64 s) = .infinity s := by
  cases s <;> rfl

/-- Bits whose exponent is not the highest are a number. -/
theorem unpack_components {s : Sign} {e : BitVec 11} {m : BitVec 52} (he : e ≠ -1#11) :
    UnpackedFloat.unpack .binary64 (packComponents .binary64 s e m) ≠ .notANumber := by
  unfold UnpackedFloat.unpack
  simp only [unpackMantissa_packComponents, unpackExponent_packComponents, unpackSign_packComponents]
  rw [if_neg he]
  split
  · split <;> exact nofun
  · exact nofun

/-- What is packed as a number is unpacked as one. -/
theorem unpack_pack {f : UnpackedFloat} (hf : f ≠ .notANumber) : (pack f).unpack ≠ .notANumber := by
  show UnpackedFloat.unpack .binary64 (UnpackedFloat.pack .binary64 f) ≠ .notANumber
  cases f with
  | notANumber => exact absurd rfl hf
  | infinity s =>
    rw [UnpackedFloat.pack, unpack_infinity]
    exact nofun
  | zero s =>
    rw [UnpackedFloat.pack, unpack_packedZero]
    exact nofun
  | finite s m e hm =>
    unfold UnpackedFloat.pack
    dsimp only
    split
    · rw [unpack_infinity]
      exact nofun
    split
    · rename_i hfits _
      apply unpack_components
      intro he
      have he := congrArg BitVec.toNat he
      simp at hfits he
      omega
    · exact unpack_components (by decide)

theorem number_of_pack {f : UnpackedFloat} (hf : f ≠ .notANumber) : (Float.ofModel (pack f)).isNaN = false := by
  show (pack f).unpack.isNaN = false
  rw [← Bool.not_eq_true, isNaN_iff]
  exact unpack_pack hf

theorem roundWithAccuracy_number (s : Sign) (m : ℕ) (e : ℤ) (a : Accuracy) :
    roundWithAccuracy .binary64 s m e a ≠ .notANumber := by
  unfold roundWithAccuracy
  dsimp only
  split <;> exact nofun

theorem finite_number {s : Sign} {m : ℕ} {e : ℤ} (hm : 0 < m) : UnpackedFloat.finite s m e hm ≠ .notANumber := nofun

theorem mul_number {f : UnpackedFloat} (hf : f ≠ .notANumber) {s : Sign} {m : ℕ} {e : ℤ} (hm : 0 < m) :
    f.mul .binary64 (.finite s m e hm) ≠ .notANumber := by
  cases f with
  | notANumber => exact absurd rfl hf
  | infinity => exact nofun
  | zero => exact nofun
  | finite s' n d => exact roundWithAccuracy_number (s' * s) (n * m) (d + e) .exact

theorem ofWord_number (n : UInt64) : n.toFloat.isNaN = false := by
  apply number_of_pack
  unfold UnpackedFloat.ofUInt64 UnpackedFloat.ofNat UnpackedFloat.ofInt UnpackedFloat.normalize
  split
  · exact roundWithAccuracy_number _ _ _ _
  · exact nofun
  · exact roundWithAccuracy_number _ _ _ _

/-- A natural number of more than 53 bits becomes a double as a decimal without a fraction. -/
theorem ofNat_large {n : ℕ} (hn : 2 ^ 53 ≤ n) :
    Float.ofNat n = .ofModel (pack (UnpackedFloat.ofScientific .binary64 n 0)) := by
  unfold Float.ofNat OfScientific.ofScientific instOfScientificFloat Float.ofScientific
  simp only
  rw [dif_neg (by omega)]
  rfl

theorem ofScientific_large {n : ℕ} (hn : 2 ^ 53 ≤ n) :
    UnpackedFloat.ofScientific .binary64 n 0 = roundWithAccuracy .binary64 .positive (n <<< 53) (-53) .exact := by
  unfold UnpackedFloat.ofScientific
  rw [dif_neg (by omega), if_neg (by norm_num [Format.binary64]), if_neg (by norm_num [Format.binary64]),
    if_pos le_rfl]
  show roundWithAccuracy .binary64 .positive (n <<< 53 * 1) (-53 + 0) .exact = _
  rw [mul_one, add_zero]

theorem ofNat_number (n : ℕ) : (Float.ofNat n).isNaN = false := by
  by_cases hn : n < 2 ^ 53
  · have hone : (1.0 : Float).toModel.unpack = .finite .positive (2 ^ 52) (-52) (by decide) := rfl
    rw [ofNat_small hn]
    apply number_of_pack
    rw [hone]
    exact mul_number (unpack_of_number (ofWord_number _)) _
  · rw [ofNat_large (not_lt.mp hn), ofScientific_large (not_lt.mp hn)]
    exact number_of_pack (roundWithAccuracy_number _ _ _ _)

/-- An integer as a double is a number. -/
theorem ofInt_number (n : ℤ) : (Float.ofInt n).isNaN = false := by
  cases n with
  | ofNat n => exact ofNat_number n
  | negSucc n =>
    have hn := unpack_of_number (ofNat_number n.succ)
    apply number_of_pack
    cases h : (Float.ofNat n.succ).toModel.unpack with
    | notANumber => exact absurd h hn
    | _ => exact nofun

end DocQuery.Double
