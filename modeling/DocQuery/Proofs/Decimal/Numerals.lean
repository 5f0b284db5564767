/-
  DocQuery.Proofs.Decimal.Numerals — which texts are read as numbers.

  A row of digits is read as the number it denotes, with or without a sign, as far as 64 bits go
  (`int64?_natural`), and every such integer is read back from its text (`int64?_text`). A number has a hyphen for
  its sign and another for the sign of its exponent, and no more, so a text with two hyphens behind its first
  character is not read as a number of any kind (`no_number_of_hyphens`).
-/

import Mathlib.Data.List.TakeWhile
import DocQuery.Proofs.Decimal.Digits
import DocQuery.Proofs.Text.Fold

namespace DocQuery.Decimal

/-! ## Rows of digits -/

theorem fitsInt64_applySign_iff {negative : Bool} {n : Nat} :
    fitsInt64 (applySign negative n) = true ↔
      n ≤ 9223372036854775807 ∨ (negative = true ∧ n = 9223372036854775808) := by
  cases negative with
  | false =>
    simp only [fitsInt64, applySign, Bool.false_eq_true, if_false, false_and, or_false, Bool.and_eq_true,
      decide_eq_true_eq]
    omega
  | true =>
    simp only [fitsInt64, applySign, if_true, true_and, Bool.and_eq_true, decide_eq_true_eq]
    omega

section
variable {s r : List Char} {negative : Bool} (h : signed s = (negative, r))
include h

theorem int64?_eq_none (hn : natural? r = none) : int64? (String.ofList s) = none := by
  simp only [int64?, integer?, String.toList_ofList, h, hn]
  rfl

/-- The sign decides about one number only: the least of the integers. -/
theorem int64?_natural {n : Nat} (hn : natural? r = some n) :
    int64? (String.ofList s) =
      if n ≤ 9223372036854775807 ∨ (negative = true ∧ n = 9223372036854775808) then
        some (Int64.ofInt (applySign negative n))
      else none := by
  simp only [int64?, integer?, String.toList_ofList, h, hn, Option.map_some, fitsInt64_applySign_iff]

/-- What opens with a digit is not the name of a number. -/
theorem special?_eq_none {d : Char} {rest : List Char} (hr : r = d :: rest) (hd : d.isDigit = true) :
    special? s = none := by
  have hname : ∀ c w, c.isDigit = false → (String.ofList (r.map Char.toLower) == String.ofList (c :: w)) = false := by
    intro c w hc
    rw [beq_eq_false_iff_ne, hr, List.map_cons, Text.toLower_digit hd]
    intro he
    cases (List.cons.inj (String.ofList_inj.mp he)).1
    rw [hd] at hc
    cases hc
  have hinf : (String.ofList (r.map Char.toLower) == "inf") = false := hname 'i' ['n', 'f'] (by decide)
  have hinfinity : (String.ofList (r.map Char.toLower) == "infinity") = false :=
    hname 'i' ['n', 'f', 'i', 'n', 'i', 't', 'y'] (by decide)
  have hnan : (String.ofList (r.map Char.toLower) == "nan") = false := hname 'n' ['a', 'n'] (by decide)
  simp only [special?, h, hinf, hinfinity, hnan, Bool.or_self, Bool.false_eq_true, if_false]

end

theorem natural?_digits {ds : List Char} (hne : ds ≠ []) (h : ∀ c ∈ ds, c.isDigit = true) :
    natural? ds = some (ofDigits ds) := by
  have hall : ds.all Char.isDigit = true := List.all_eq_true.mpr h
  simp [natural?, hall, hne]

/-- A row of digits is a numeral without a fraction and an exponent. -/
theorem read?_natural {s : List Char} {n : Nat} (hs : signed s = (false, s)) (h : natural? s = some n) :
    Numeral.read? s = some ⟨false, n, 0⟩ := by
  unfold natural? at h
  split_ifs at h with hdigits
  obtain ⟨hne, hall⟩ := Bool.and_eq_true_iff.mp hdigits
  obtain rfl := Option.some.inj h
  have hall := List.all_eq_true.mp hall
  have htake : s.takeWhile Char.isDigit = s := List.takeWhile_eq_self_iff.mpr hall
  have hdrop : s.dropWhile Char.isDigit = [] := List.dropWhile_eq_nil_iff.mpr hall
  have hempty : s.isEmpty = false := by simpa using hne
  simp [Numeral.read?, hs, Numeral.mantissa, htake, hdrop, hempty, Numeral.exponent?]

/-! ## Integers as they are written -/

/-- An integer is written as a hyphen, if it is below zero, and the digits of its magnitude. -/
theorem toList_toString (n : Int) :
    (toString n).toList = (if n < 0 then ['-'] else []) ++ Nat.toDigits 10 n.natAbs := by
  cases n with
  | ofNat k =>
    show k.repr.toList = _
    simp
  | negSucc k =>
    show ("-" ++ (k + 1).repr).toList = _
    rw [String.toList_append, Nat.toList_repr, if_pos (Int.negSucc_lt_zero k)]
    rfl

theorem signed_toString (n : Int) : signed (toString n).toList = (decide (n < 0), Nat.toDigits 10 n.natAbs) := by
  obtain ⟨d, r, hdigits, hd, -⟩ := toDigits_cons n.natAbs
  rw [toList_toString]
  by_cases hn : n < 0
  · rw [if_pos hn, decide_eq_true hn]
    rfl
  · rw [if_neg hn, decide_eq_false hn, List.nil_append, hdigits]
    exact signed_digit hd r

/-- The text of an integer is read as it. -/
theorem int64?_text (n : Int64) : int64? (toString n.toInt) = some n := by
  have hlow := n.le_toInt
  have hhigh := n.toInt_lt
  have hnatural := natural?_digits (Nat.toDigits_ne_nil (b := 10) (n := n.toInt.natAbs)) (digits_isDigit _)
  rw [ofDigits_toDigits] at hnatural
  have hread := int64?_natural (signed_toString n.toInt) hnatural
  rw [String.ofList_toList] at hread
  have hvalue : applySign (decide (n.toInt < 0)) n.toInt.natAbs = n.toInt := by
    by_cases hn : n.toInt < 0
    · rw [applySign, decide_eq_true hn, if_pos rfl]
      omega
    · rw [applySign, decide_eq_false hn, if_neg Bool.false_ne_true]
      omega
  rw [hread, hvalue, Int64.ofInt_toInt, if_pos]
  by_cases hleast : n.toInt.natAbs = 9223372036854775808
  · exact .inr ⟨decide_eq_true (by omega), hleast⟩
  · left
    omega

/-! ## Hyphens -/

theorem hyphen_not_digit {ds : List Char} (h : ∀ c ∈ ds, c.isDigit = true) : '-' ∉ ds := by
  intro hmem
  exact absurd (h '-' hmem) (by decide)

theorem natural?_of_hyphen {s : List Char} (h : '-' ∈ s) : natural? s = none := by
  unfold natural?
  have hall : s.all Char.isDigit = false := by
    rw [Bool.eq_false_iff, ne_eq, List.all_eq_true]
    exact fun hdigits => hyphen_not_digit hdigits h
  simp [hall]

section
variable {s r : List Char} {negative : Bool} (h : signed s = (negative, r))
include h

theorem integer?_of_hyphen (hr : '-' ∈ r) : integer? s = none := by
  simp only [integer?, h, natural?_of_hyphen hr, Option.map_none]

theorem special?_of_hyphen (hr : '-' ∈ r) : special? s = none := by
  have hname : ∀ name : String, '-' ∉ name.toList → (String.ofList (r.map Char.toLower) == name) = false := by
    intro name hnone
    rw [beq_eq_false_iff_ne]
    rintro rfl
    rw [String.toList_ofList] at hnone
    exact hnone (List.mem_map.mpr ⟨'-', hr, rfl⟩)
  have hinf := hname "inf" (by decide)
  have hinfinity := hname "infinity" (by decide)
  have hnan := hname "nan" (by decide)
  simp only [special?, h, hinf, hinfinity, hnan, Bool.or_self, Bool.false_eq_true, if_false]

theorem count_signed : s.count '-' ≤ r.count '-' + 1 := by
  unfold signed at h
  split at h
  · cases h
    rw [List.count_cons_self]
  · cases h
    rw [List.count_cons_of_ne (by decide)]
    omega
  · cases h
    omega

end

namespace Numeral

/-- The hyphens of a number are those behind its digits. -/
theorem count_mantissa (s : List Char) : (mantissa s).2.2.count '-' = s.count '-' := by
  have hdrop : ∀ r : List Char, (r.dropWhile Char.isDigit).count '-' = r.count '-' := by
    intro r
    have hnone : (r.takeWhile Char.isDigit).count '-' = 0 :=
      List.count_eq_zero.mpr (hyphen_not_digit (List.all_eq_true.mp List.all_takeWhile))
    conv_rhs => rw [← List.takeWhile_append_dropWhile (p := Char.isDigit) (l := r), List.count_append, hnone, Nat.zero_add]
  unfold mantissa
  split
  · rename_i r hr
    rw [hdrop, ← hdrop s, hr, List.count_cons_of_ne (by decide)]
  · exact hdrop s

theorem exponent?_of_hyphens {s : List Char} (h : 2 ≤ s.count '-') : exponent? s = none := by
  cases s with
  | nil => simp at h
  | cons c r =>
    unfold exponent?
    by_cases hc : (c == 'e' || c == 'E') = true
    · have hne : c ≠ '-' := by
        rintro rfl
        revert hc
        decide
      rw [List.count_cons_of_ne hne] at h
      rcases hsigned : signed r with ⟨negative, rest⟩
      have hrest := count_signed hsigned
      have hmem : '-' ∈ rest := List.count_pos_iff.mp (by omega)
      exact (if_pos hc).trans (integer?_of_hyphen hsigned hmem)
    · exact if_neg hc

theorem read?_of_hyphens {s r : List Char} {negative : Bool} (h : signed s = (negative, r)) (hr : 2 ≤ r.count '-') :
    read? s = none := by
  have hexponent := exponent?_of_hyphens (s := (mantissa r).2.2) (by rwa [count_mantissa])
  unfold read?
  simp only [h, hexponent, Option.map_none, ite_self]

end Numeral

/-- A text with two hyphens that are no sign is no number. -/
theorem no_number_of_hyphens {s : String} (hs : signed s.toList = (false, s.toList)) (h : 2 ≤ s.toList.count '-') :
    int64? s = none ∧ float? s = none := by
  have hmem : '-' ∈ s.toList := List.count_pos_iff.mp (by omega)
  constructor
  · simp only [int64?, integer?_of_hyphen hs hmem]
  · simp only [float?, special?_of_hyphen hs hmem, Numeral.read?_of_hyphens hs h, Option.map_none]

end DocQuery.Decimal
