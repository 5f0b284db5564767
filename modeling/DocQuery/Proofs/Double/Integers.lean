/-
  DocQuery.Proofs.Double.Integers — integers as doubles.

  An integer of less than 53 bits is a double as it stands, and every other is rounded to a whole number that has
  more bits (`nearest_number`). So only integers from `2 ^ 53` on share a double with another.
-/

import DocQuery.Proofs.Double.Distance

namespace DocQuery.Double

open Float.Model Float.Model.UnpackedFloat

variable {x : Float} {p : ℚ}

theorem apply_cast (s : Sign) (m : ℕ) : ((s.apply m : ℤ) : ℚ) = (s.apply 1 : ℤ) * m := by
  cases s <;> simp [Sign.apply]

theorem apply_neg (s : Sign) (k : ℤ) : (-s).apply k = -s.apply k := by
  cases s with
  | negative => exact (neg_neg k).symm
  | positive => rfl

/-- What is rounded to a number of 64 bits is that number when it is packed. -/
theorem number_pack {s : Sign} {f : UnpackedFloat} {v : ℚ} (h : Magnitude s f v) (hv : v ≤ 2 ^ 64) :
    number (.ofModel (pack f)) = some ((s.apply 1 : ℤ) * v) := by
  cases h with
  | zero t =>
    have hzero : number (.ofModel (pack (.zero t))) = some 0 := by cases t <;> rfl
    rw [hzero, mul_zero]
  | @finite m e hm hfits =>
    have high : e ≤ 971 := by
      by_contra hover
      have hfull : (2 : ℚ) ^ 52 ≤ m := by exact_mod_cast hfits.full.resolve_right (by omega)
      have hpower : (2 : ℚ) ^ (13 : ℤ) ≤ 2 ^ e := zpow_le_zpow_right₀ (by norm_num) (by omega)
      have hlarge := mul_le_mul hfull hpower (by positivity) (by positivity)
      norm_num at hlarge hv
      linarith
    show worth? (pack (.finite s m e hm)).unpack = _
    rw [unpack_pack_finite hm hfits high, worth?, apply_cast, mul_assoc]

theorem number_neg (h : number x = some p) : number (-x) = some (-p) := by
  show worth? (pack x.toModel.unpack.neg).unpack = _
  rcases parts_of_number h with ⟨s, hux, rfl⟩ | ⟨s, m, e, hm, hux, hfits, high, rfl⟩
  · rw [hux, neg_zero]
    cases s <;> rfl
  · have hneg : (pack (UnpackedFloat.neg (.finite s m e hm))).unpack = .finite (-s) m e hm :=
      unpack_pack_finite hm hfits high
    rw [hux, hneg, worth?, apply_neg, Int.cast_neg, neg_mul]

/-- A multiplication with one rounds nothing. -/
theorem number_mul_one (h : number x = some p) (hp : |p| ≤ 2 ^ 64) : number (x * 1.0) = some p := by
  have hone : (1.0 : Float).toModel.unpack = .finite .positive (2 ^ 52) (-52) (by decide) := rfl
  show number (.ofModel (pack (x.toModel.unpack.mul .binary64 (1.0 : Float).toModel.unpack))) = _
  rw [hone]
  rcases parts_of_number h with ⟨s, hux, rfl⟩ | ⟨s, m, e, hm, hux, hfits, high, rfl⟩
  · rw [hux]
    cases s <;> rfl
  · have hplace : place (m * 2 ^ 52) (e + -52) = e := by
      have hself := hfits.place_eq
      unfold place at hself ⊢
      rw [← Nat.shiftLeft_eq, log2_shiftLeft hm]
      omega
    have hvalue : ((m * 2 ^ 52 : ℕ) * 2 ^ (e + -52) / 2 ^ e : ℚ) = m := by
      rw [zpow_add₀ (by norm_num)]
      have hne : (2 : ℚ) ^ e ≠ 0 := zpow_ne_zero e (by norm_num)
      field_simp
      norm_num [mul_comm]
    obtain ⟨r, hr, hmagnitude⟩ := roundWithAccuracy_magnitude (s * .positive) (m := m * 2 ^ 52) (e := e + -52)
      (by positivity) (by omega)
    rw [hplace] at hr hmagnitude
    rw [hvalue] at hr
    rw [hr.eq_of_whole rfl] at hmagnitude
    rw [abs_finite] at hp
    have hsign : s * .positive = s := by cases s <;> rfl
    rw [hux]
    show number (.ofModel (pack (roundWithAccuracy .binary64 (s * .positive) (m * 2 ^ 52) (e + -52) .exact))) = _
    rw [number_pack hmagnitude hp, hsign, apply_cast s m, mul_assoc]

/-- A natural number of less than 53 bits is a double as it stands. -/
theorem number_ofNat_small {n : ℕ} (hn : n < 2 ^ 53) : number (Float.ofNat n) = some (n : ℚ) := by
  have hword : n.toUInt64.toNat = n := by
    show n % 2 ^ 64 = n
    omega
  have hbound : (n : ℚ) ≤ 2 ^ 64 := by exact_mod_cast (by omega : n ≤ 2 ^ 64)
  have hwhole : number n.toUInt64.toFloat = some (n : ℚ) := by
    show number (.ofModel (pack (UnpackedFloat.normalize .binary64 (n.toUInt64.toNat : ℤ) 0 .positive))) = _
    rw [hword]
    rcases Nat.eq_zero_or_pos n with rfl | hpos
    · rfl
    · have hcompare : compare (n : ℤ) 0 = .gt := Int.compare_eq_gt.mpr (by omega)
      obtain ⟨r, hr, hmagnitude⟩ := round_magnitude .positive hpos 0
      rw [hr.exact (place_le hn (by norm_num)), zpow_zero, mul_one] at hmagnitude
      unfold UnpackedFloat.normalize
      rw [hcompare]
      show number (.ofModel (pack (UnpackedFloat.round .binary64 .positive n 0))) = _
      rw [number_pack hmagnitude hbound, Sign.apply, Int.cast_one, one_mul]
  rw [ofNat_small hn]
  exact number_mul_one hwhole (by rwa [Nat.abs_cast])

/-- A natural number of more bits is rounded to a whole number of more bits. -/
theorem number_ofNat_large {n : ℕ} (hn : 2 ^ 53 ≤ n) (hword : n < 2 ^ 64) :
    ∃ k : ℕ, 2 ^ 53 ≤ k ∧ number (Float.ofNat n) = some (k : ℚ) := by
  have hlow : 53 ≤ n.log2 := (Nat.le_log2 (by omega)).mpr hn
  have hhigh : n.log2 < 64 := (Nat.log2_lt (by omega)).mpr hword
  have hplace : place (n <<< 53) (-53) = (n.log2 - 52 : ℕ) := by
    unfold place
    rw [log2_shiftLeft (by omega)]
    omega
  have hpos : 0 < n <<< 53 := by
    rw [Nat.shiftLeft_eq]
    positivity
  obtain ⟨r, hr, hmagnitude⟩ := roundWithAccuracy_magnitude .positive hpos (e := -53) (by omega)
  obtain ⟨hmost, hfull⟩ := place_bounds hpos (-53)
  have hr53 := hr.ge_of_le (n := 2 ^ 53) (by exact_mod_cast hmost.le)
  have hr52 := hr.le_of_le (n := 2 ^ 52) (by exact_mod_cast hfull.resolve_right (by omega))
  rw [hplace, zpow_natCast] at hmagnitude
  have hleast : 2 ^ 53 ≤ r * 2 ^ (n.log2 - 52) := by
    calc 2 ^ 53 = 2 ^ 52 * 2 ^ 1 := by norm_num
      _ ≤ r * 2 ^ (n.log2 - 52) := Nat.mul_le_mul hr52 (Nat.pow_le_pow_right (by norm_num) (by omega))
  have hbound : r * 2 ^ (n.log2 - 52) ≤ 2 ^ 64 := by
    calc r * 2 ^ (n.log2 - 52) ≤ 2 ^ 53 * 2 ^ 11 := Nat.mul_le_mul hr53 (Nat.pow_le_pow_right (by norm_num) (by omega))
      _ = 2 ^ 64 := by norm_num
  refine ⟨r * 2 ^ (n.log2 - 52), hleast, ?_⟩
  rw [ofNat_large hn, ofScientific_large hn, number_pack hmagnitude (by exact_mod_cast hbound), Sign.apply, Int.cast_one,
    one_mul]
  push_cast
  rfl

/-- An integer as a double: a whole number, which is the integer itself unless that has more than 53 bits. -/
theorem nearest_number (n : Int64) :
    ∃ k : ℤ, number (Value.nearest n) = some (k : ℚ) ∧ (n.toInt.natAbs < 2 ^ 53 → k = n.toInt) ∧
      (2 ^ 53 ≤ n.toInt.natAbs → 2 ^ 53 ≤ k.natAbs) := by
  have hlow := n.le_toInt
  have hhigh := n.toInt_lt
  have hmagnitude : ∃ k : ℕ, number (Float.ofNat n.toInt.natAbs) = some (k : ℚ) ∧
      (n.toInt.natAbs < 2 ^ 53 → k = n.toInt.natAbs) ∧ (2 ^ 53 ≤ n.toInt.natAbs → 2 ^ 53 ≤ k) := by
    by_cases hsmall : n.toInt.natAbs < 2 ^ 53
    · exact ⟨_, number_ofNat_small hsmall, fun _ => rfl, fun hlarge => absurd hsmall (by omega)⟩
    · obtain ⟨k, hk, hnumber⟩ := number_ofNat_large (n := n.toInt.natAbs) (by omega) (by omega)
      exact ⟨k, hnumber, fun hlt => absurd hlt hsmall, fun _ => hk⟩
  obtain ⟨k, hnumber, hexact, hlarge⟩ := hmagnitude
  unfold Value.nearest
  generalize n.toInt = i at *
  cases i with
  | ofNat i =>
    refine ⟨k, by exact_mod_cast hnumber, ?_, ?_⟩
    · intro hi
      exact congrArg Int.ofNat (hexact hi)
    · exact hlarge
  | negSucc i =>
    have hneg := number_neg hnumber
    exact ⟨-k, by exact_mod_cast hneg, by omega, by omega⟩

end DocQuery.Double
