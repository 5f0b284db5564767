/-
  DocQuery.Proofs.Double.Numbers — the doubles that decimals are read as.

  A decimal is read as a double by one multiplication or division of finite doubles, each rounded to another
  number or to an infinity, or it is settled beforehand as zero or infinite. None of these ways leads to the
  undefined double (`toFloat_number`), whatever digits and exponent are written.
-/

import DocQuery.Proofs.Double.Order

namespace DocQuery.Double

open Float.Model Float.Model.UnpackedFloat

theorem div_number {f : UnpackedFloat} (hf : f ≠ .notANumber) {s : Sign} {m : ℕ} {e : ℤ} (hm : 0 < m) :
    f.div .binary64 (.finite s m e hm) ≠ .notANumber := by
  cases f with
  | notANumber => exact absurd rfl hf
  | infinity => exact nofun
  | zero => exact nofun
  | finite s' n d => exact roundWithAccuracy_number _ _ _ _

theorem neg_number {x : Float} (hx : x.isNaN = false) : (-x).isNaN = false := by
  have hx := unpack_of_number hx
  apply number_of_pack
  cases h : x.toModel.unpack with
  | notANumber => exact absurd h hx
  | _ => exact nofun

/-- A finite double other than zero. -/
def isNonzero : UnpackedFloat → Bool
  | .finite .. => true
  | _ => false

/-- The powers of ten that are doubles can be divided by. -/
theorem powers_nonzero : ∀ x ∈ Float.exactlyRepresentablePowersOfTen.toList, isNonzero x.toModel.unpack = true := by
  decide +kernel

theorem power_nonzero {e : ℕ} (he : e < Float.exactlyRepresentablePowersOfTen.size) : ∃ s m d hm,
    Float.exactlyRepresentablePowersOfTen[e].toModel.unpack = .finite s m d hm := by
  have h := powers_nonzero _ (Array.getElem_mem_toList he)
  cases hp : Float.exactlyRepresentablePowersOfTen[e].toModel.unpack with
  | finite s m d hm => exact ⟨s, m, d, hm, rfl⟩
  | _ =>
    rw [hp] at h
    cases h

theorem scientific_number (m : ℕ) (e : ℤ) : UnpackedFloat.ofScientific .binary64 m e ≠ .notANumber := by
  unfold UnpackedFloat.ofScientific
  split_ifs
  · exact nofun
  · exact nofun
  · exact nofun
  · exact mul_number (finite_number _) _
  · exact div_number (finite_number _) _

theorem ofScientific_number (m : ℕ) (s : Bool) (e : ℕ) : (Float.ofScientific m s e).isNaN = false := by
  unfold Float.ofScientific
  split
  · rename_i h
    have he : e < Float.exactlyRepresentablePowersOfTen.size := Nat.lt_succ_of_le h.2
    obtain ⟨_, _, _, hp, hpower⟩ := power_nonzero he
    have hm := unpack_of_number (ofWord_number m.toUInt64)
    cases s with
    | true =>
      apply number_of_pack
      rw [hpower]
      exact div_number hm hp
    | false =>
      apply number_of_pack
      rw [hpower]
      exact mul_number hm hp
  · exact number_of_pack (scientific_number m _)

open Decimal in
/-- A decimal is a number as a double, if an infinite one. -/
theorem toFloat_number (n : Numeral) : n.toFloat.isNaN = false := by
  have hmagnitude : n.magnitude.isNaN = false := by
    unfold Numeral.magnitude
    split
    · decide +kernel
    dsimp only
    split
    · decide +kernel
    split
    · decide +kernel
    · exact ofScientific_number _ _ _
  unfold Numeral.toFloat
  split
  · exact neg_number hmagnitude
  · exact hmagnitude

end DocQuery.Double
