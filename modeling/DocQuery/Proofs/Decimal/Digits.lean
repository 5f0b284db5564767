/-
  DocQuery.Proofs.Decimal.Digits — the digits of numbers.

  A number's digits are digits, stand for it (`ofDigits_toDigits`) and do not start with a zero
  unless it is zero (`toDigits_head`). Rows of digits stand for numbers of that many digits (`ofDigits_lt`), are
  put together by shifting the first (`ofDigits_append`), and are in the order of their numbers
  (`lt_of_ofDigits_lt`). The shortest digits of a double are zero only where they have no exponent
  (`shortest_significant`), so zeros may be put behind them.
-/

import Mathlib.Algebra.Group.Nat.Defs
import Mathlib.Data.List.Induction
import DocQuery.Decimal.Layout
import DocQuery.Decimal.Numeral

namespace DocQuery.Decimal

theorem digits_isDigit (n : Nat) : ∀ d ∈ Nat.toDigits 10 n, d.isDigit = true :=
  fun _ h => Nat.isDigit_of_mem_toDigits (by omega) (by omega) h

/-- A number in decimal opens with a digit and goes on with digits. -/
theorem toDigits_cons (n : Nat) :
    ∃ d r, Nat.toDigits 10 n = d :: r ∧ d.isDigit = true ∧ ∀ c ∈ r, c.isDigit = true := by
  have hall := digits_isDigit n
  cases hd : Nat.toDigits 10 n with
  | nil => exact absurd hd Nat.toDigits_ne_nil
  | cons d r =>
    rw [hd] at hall
    obtain ⟨hdigit, hr⟩ := List.forall_mem_cons.mp hall
    exact ⟨d, r, rfl, hdigit, hr⟩

theorem digitChar_ne_zero {n : Nat} (h : n < 10) (hn : n ≠ 0) : n.digitChar ≠ '0' := by
  have check : ∀ n : Fin 10, n.val ≠ 0 → n.val.digitChar ≠ '0' := by decide
  exact check ⟨n, h⟩ hn

/-- A number above zero does not start with a zero. -/
theorem toDigits_head {n : Nat} (hn : n ≠ 0) : (Nat.toDigits 10 n).head? ≠ some '0' := by
  induction n using Nat.strongRecOn with
  | _ n ih =>
    by_cases h : n < 10
    · rw [Nat.toDigits_of_lt_base h]
      exact fun e => digitChar_ne_zero h hn (Option.some.inj e)
    · have hrest : n / 10 ≠ 0 := by omega
      obtain ⟨d, r, hdigits, -⟩ := toDigits_cons (n / 10)
      have hhead := ih (n / 10) (by omega) hrest
      rw [hdigits] at hhead
      rw [Nat.toDigits_of_base_le (by omega) (by omega), hdigits]
      exact hhead

theorem ofDigits_toDigits (n : Nat) : ofDigits (Nat.toDigits 10 n) = n := by
  have h := Nat.ofDigitChars_toDigits (b := 10) (n := n) (by omega) (by omega)
  rwa [Nat.ofDigitChars_eq_foldl] at h

/-! ## Rows of digits -/

theorem isDigit_code {c : Char} (h : c.isDigit = true) : 48 ≤ c.toNat ∧ c.toNat ≤ 57 := by
  simp only [Char.isDigit, Bool.and_eq_true, decide_eq_true_eq, ge_iff_le, UInt32.le_iff_toNat_le] at h
  exact h

/-- A text that opens with a digit has no sign. -/
theorem signed_digit {d : Char} (h : d.isDigit = true) (r : List Char) : signed (d :: r) = (false, d :: r) := by
  unfold signed
  split
  · rename_i he
    cases he
    exact absurd h (by decide)
  · rename_i he
    cases he
    exact absurd h (by decide)
  · rfl

theorem digitValue_lt {c : Char} (h : c.isDigit = true) : digitValue c < 10 := by
  obtain ⟨-, hhigh⟩ := isDigit_code h
  unfold digitValue
  omega

theorem ofDigits_concat (ds : List Char) (c : Char) : ofDigits (ds ++ [c]) = 10 * ofDigits ds + digitValue c := by
  unfold ofDigits
  rw [List.foldl_append]
  rfl

theorem ofDigits_lt {ds : List Char} (h : ∀ c ∈ ds, c.isDigit = true) : ofDigits ds < 10 ^ ds.length := by
  induction ds using List.reverseRecOn with
  | nil => decide
  | append_singleton ds c ih =>
    have hdigit := digitValue_lt (h c (by simp))
    have hrest := ih fun d hd => h d (by simp [hd])
    rw [ofDigits_concat, List.length_append, List.length_singleton, Nat.pow_succ]
    omega

theorem ofDigits_append (a b : List Char) : ofDigits (a ++ b) = ofDigits a * 10 ^ b.length + ofDigits b := by
  induction b using List.reverseRecOn with
  | nil => simp [ofDigits]
  | append_singleton b c ih =>
    rw [← List.append_assoc, ofDigits_concat, ih, ofDigits_concat, List.length_append, List.length_singleton,
      Nat.pow_succ, ← Nat.mul_assoc]
    omega

theorem ofDigits_cons (c : Char) (r : List Char) : ofDigits (c :: r) = digitValue c * 10 ^ r.length + ofDigits r := by
  have hone : ofDigits [c] = digitValue c := by simp [ofDigits]
  rw [← List.singleton_append, ofDigits_append, hone]

/-- Rows of digits of one length are in the order of their numbers. -/
theorem lt_of_ofDigits_lt {a b : List Char} (ha : ∀ c ∈ a, c.isDigit = true) (hb : ∀ c ∈ b, c.isDigit = true)
    (hlength : a.length = b.length) (h : ofDigits a < ofDigits b) : a < b := by
  induction a generalizing b with
  | nil =>
    obtain rfl := List.eq_nil_of_length_eq_zero hlength.symm
    exact absurd h (Nat.lt_irrefl _)
  | cons c r ih =>
    cases b with
    | nil => cases hlength
    | cons d s =>
      have hrest : r.length = s.length := Nat.succ_inj.mp hlength
      have hs := ofDigits_lt fun c hc => hb c (List.mem_cons_of_mem _ hc)
      rw [ofDigits_cons, ofDigits_cons, hrest] at h
      rcases Nat.lt_trichotomy c.toNat d.toNat with hlt | heq | hgt
      · exact .rel hlt
      · obtain rfl := Char.toNat_inj.mp heq
        exact .cons (ih (fun c hc => ha c (List.mem_cons_of_mem _ hc)) (fun c hc => hb c (List.mem_cons_of_mem _ hc))
          hrest (Nat.add_lt_add_iff_left.mp h))
      · -- A greater first digit outweighs all that follows the lesser one.
        exfalso
        obtain ⟨hlow, -⟩ := isDigit_code (hb d (List.mem_cons_self ..))
        have hdigits : digitValue d + 1 ≤ digitValue c := by
          unfold digitValue
          omega
        have houtweighs := Nat.mul_le_mul_right (10 ^ s.length) hdigits
        rw [Nat.add_mul] at houtweighs
        omega

/-! ## Shortest digits -/

/-- Digits that zeros may be put behind: they are those of no zero, or have no exponent. -/
def Digits.Significant (d : Digits) : Prop := d.digits ≠ 0 ∨ d.exponent = 0

/-- A neighbour on a grid is not zero: the lower one is taken only if it is not. -/
theorem onGrid_ne_zero {b : Binary} {tie : Tie} {k : Int} {d : Digits} (h : onGrid b tie k = some d) :
    d.digits ≠ 0 := by
  unfold onGrid at h
  extract_lets quarters unit one below above closed at h
  generalize inUnits quarters.1 quarters.2 k = units at h
  obtain ⟨num, den⟩ := units
  dsimp -zeta only at h
  extract_lets c low high lowOk highOk at h
  have hnext : c + 1 ≠ 0 := Nat.succ_ne_zero c
  cases hlow : decide lowOk && c != 0 <;> cases hhigh : decide highOk <;> simp only [hlow, hhigh] at h
  · cases h
  · cases h
    exact hnext
  · cases h
    exact bne_iff_ne.mp (Bool.and_eq_true_iff.mp hlow).2
  · have hne : c ≠ 0 := bne_iff_ne.mp (Bool.and_eq_true_iff.mp hlow).2
    split at h
    · cases h
      exact hne
    split at h
    · cases h
      exact hnext
    cases tie with
    | up =>
      cases h
      exact hnext
    | toEven =>
      cases h
      dsimp only
      split
      · exact hne
      · exact hnext

theorem stripZeros_significant (fuel : Nat) {d : Digits} (h : d.Significant) : (stripZeros fuel d).Significant := by
  induction fuel generalizing d with
  | zero => exact h
  | succ fuel ih =>
    unfold stripZeros
    split
    · rename_i hd
      simp only [Bool.and_eq_true, bne_iff_ne, beq_iff_eq] at hd
      exact ih (.inl (show d.digits / 10 ≠ 0 by omega))
    · exact h

theorem shortest_significant (b : Binary) (tie : Tie) : (shortest b tie).Significant := by
  unfold shortest
  apply stripZeros_significant
  cases h : (List.range 17).findSome? fun n => onGrid b tie _ with
  | none => exact .inr rfl
  | some d =>
    obtain ⟨n, -, hn⟩ := List.exists_of_findSome?_eq_some h
    exact .inl (onGrid_ne_zero hn)

end DocQuery.Decimal
