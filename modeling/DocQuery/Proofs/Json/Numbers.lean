/-
  DocQuery.Proofs.Json.Numbers — the texts of numbers, and what reads them.

  Integers and doubles are written as the grammar wants numbers: a sign, digits without a leading zero,
  a fraction and an exponent (`intText_parts`, `floatText_parts`). Such a text is taken whole by the
  reader of numbers, whatever stands behind it that does not go on with a number (`numberText_parts`).
-/

import DocQuery.Json.Reader
import DocQuery.Json.Writer
import DocQuery.Proofs.Decimal.Digits
import DocQuery.Proofs.Text.Cut

namespace DocQuery.Json

open DocQuery.Decimal

/-- The parts of a number's text. An exponent has a sign of its own. -/
structure Parts where
  negative : Bool
  whole : List Char
  fraction : Option (List Char)
  exponent : Option (Bool × List Char)

namespace Parts

def fractionChars (p : Parts) : List Char := p.fraction.elim [] fun ds => '.' :: ds

def exponentChars (p : Parts) : List Char :=
  p.exponent.elim [] fun e => 'e' :: (if e.1 then '-' else '+') :: e.2

def chars (p : Parts) : List Char :=
  (if p.negative then ['-'] else []) ++ (p.whole ++ (p.fractionChars ++ p.exponentChars))

/-- The number as it is read. -/
def number (p : Parts) : NumberText :=
  ⟨p.negative, p.whole, p.fraction, p.exponent.map fun e => applySign e.1 (ofDigits e.2)⟩

end Parts

/-- One or more digits. -/
def IsDigits (ds : List Char) : Prop := ds ≠ [] ∧ ∀ c ∈ ds, c.isDigit = true

/-- The parts are as the grammar wants them. -/
structure Parts.Sound (p : Parts) : Prop where
  whole : IsDigits p.whole
  leading : p.whole.head? = some '0' → p.whole.length ≤ 1
  fraction : ∀ ds, p.fraction = some ds → IsDigits ds
  exponent : ∀ e, p.exponent = some e → IsDigits e.2

/-! ## Reading -/

/-- What may follow a number: nothing that goes on with it. -/
def Ends (rest : List Char) : Prop :=
  ∀ c, rest.head? = some c → c.isDigit = false ∧ c ≠ '.' ∧ c ≠ 'e' ∧ c ≠ 'E'

theorem ends_nil : Ends [] := by
  intro c h
  cases h

variable {p : Parts} {rest : List Char}

theorem isDigits_isEmpty {ds : List Char} (h : IsDigits ds) : ds.isEmpty = false :=
  List.isEmpty_eq_false_iff.mpr h.1

theorem exponentText_parts (h : p.Sound) (hr : Ends rest) :
    exponentText (p.exponentChars ++ rest) = some (p.number.exponent, rest) := by
  unfold Parts.exponentChars Parts.number
  cases he : p.exponent with
  | none =>
    show exponentText rest = some (none, rest)
    cases rest with
    | nil => rfl
    | cons c r =>
      obtain ⟨-, -, hlower, hupper⟩ := hr c rfl
      simp [exponentText, hlower, hupper]
  | some e =>
    obtain ⟨negative, ds⟩ := e
    obtain ⟨hne, hds⟩ := h.exponent _ he
    have hsigned : signed ((if negative then '-' else '+') :: (ds ++ rest)) = (negative, ds ++ rest) := by
      cases negative <;> rfl
    have hnext : ∀ c, rest.head? = some c → c.isDigit = false := fun c hc => (hr c hc).1
    show exponentText ('e' :: (if negative then '-' else '+') :: (ds ++ rest)) = _
    unfold exponentText
    simp only [hsigned, Text.takeWhile_run hds hnext, Text.dropWhile_run hds hnext, isDigits_isEmpty ⟨hne, hds⟩]
    rfl

theorem exponent_head (hr : Ends rest) {c : Char} (hc : (p.exponentChars ++ rest).head? = some c) :
    c.isDigit = false ∧ c ≠ '.' := by
  unfold Parts.exponentChars at hc
  cases he : p.exponent with
  | none =>
    rw [he] at hc
    exact ⟨(hr c hc).1, (hr c hc).2.1⟩
  | some e =>
    rw [he] at hc
    obtain rfl := Option.some.inj hc
    decide

theorem fractionText_parts (h : p.Sound) (hr : Ends rest) :
    fractionText (p.fractionChars ++ (p.exponentChars ++ rest)) = some (p.fraction, p.exponentChars ++ rest) := by
  have hnext := fun c (hc : (p.exponentChars ++ rest).head? = some c) => (exponent_head hr hc).1
  unfold Parts.fractionChars
  cases hf : p.fraction with
  | none =>
    show fractionText (p.exponentChars ++ rest) = _
    unfold fractionText
    split
    · rename_i heq
      exact absurd rfl (exponent_head hr (c := '.') (by rw [heq]; rfl)).2
    · rfl
  | some ds =>
    obtain ⟨hne, hds⟩ := h.fraction ds hf
    show fractionText ('.' :: (ds ++ (p.exponentChars ++ rest))) = _
    unfold fractionText
    simp only [Text.takeWhile_run hds hnext, Text.dropWhile_run hds hnext, isDigits_isEmpty ⟨hne, hds⟩]
    rfl

theorem fraction_head (hr : Ends rest) {c : Char}
    (hc : (p.fractionChars ++ (p.exponentChars ++ rest)).head? = some c) : c.isDigit = false := by
  unfold Parts.fractionChars at hc
  cases hf : p.fraction with
  | none =>
    rw [hf] at hc
    exact (exponent_head hr hc).1
  | some ds =>
    rw [hf] at hc
    obtain rfl := Option.some.inj hc
    decide

theorem wholeText_parts (h : p.Sound) (hr : Ends rest) :
    wholeText (p.whole ++ (p.fractionChars ++ (p.exponentChars ++ rest))) =
      some (p.whole, p.fractionChars ++ (p.exponentChars ++ rest)) := by
  have hnext := fun c => fraction_head (p := p) (c := c) hr
  have hleading : (p.whole.head? == some '0' && p.whole.length > 1) = false := by
    cases hzero : p.whole.head? == some '0' with
    | false => rfl
    | true =>
      have hlength := h.leading (beq_iff_eq.mp hzero)
      simpa using hlength
  unfold wholeText
  simp only [Text.takeWhile_run h.whole.2 hnext, Text.dropWhile_run h.whole.2 hnext, isDigits_isEmpty h.whole,
    hleading]
  rfl

/-- What follows a number's sign. -/
def unsignedNumber (negative : Bool) (s : List Char) : Option (NumberText × List Char) := do
  let (whole, r) ← wholeText s
  let (fraction, r) ← fractionText r
  let (exponent, r) ← exponentText r
  return (⟨negative, whole, fraction, exponent⟩, r)

theorem numberText_plus {c : Char} (h : c ≠ '-') (s : List Char) :
    numberText (c :: s) = unsignedNumber false (c :: s) := by
  unfold numberText
  split
  rename_i heq
  split at heq
  · rename_i hs
    exact absurd (List.cons.inj hs).1 h
  · cases heq
    rfl

theorem unsignedNumber_parts (h : p.Sound) (hr : Ends rest) :
    unsignedNumber p.negative (p.whole ++ (p.fractionChars ++ (p.exponentChars ++ rest))) = some (p.number, rest) := by
  unfold unsignedNumber
  simp only [wholeText_parts h hr, fractionText_parts h hr, exponentText_parts h hr, bind, Option.bind]
  rfl

/-- Digits do not start with a sign or a letter. -/
theorem IsDigits.cons {ds : List Char} (h : IsDigits ds) : ∃ d r, ds = d :: r ∧ d.isDigit = true := by
  cases ds with
  | nil => exact absurd rfl h.1
  | cons d r => exact ⟨d, r, rfl, h.2 d List.mem_cons_self⟩

theorem ne_of_isDigit {c d : Char} (h : c.isDigit = true) (hd : d.isDigit = false) : c ≠ d := by
  intro e
  rw [e, hd] at h
  cases h

/-- Sound parts are read, and what follows them is left. -/
theorem numberText_parts (h : p.Sound) (hr : Ends rest) : numberText (p.chars ++ rest) = some (p.number, rest) := by
  have hparts := unsignedNumber_parts h hr
  unfold Parts.chars
  cases hn : p.negative with
  | true =>
    rw [hn] at hparts
    simp only [if_true, List.append_assoc]
    exact hparts
  | false =>
    rw [hn] at hparts
    obtain ⟨d, r, hwhole, hd⟩ := h.whole.cons
    simp only [hwhole, List.cons_append, List.append_assoc] at hparts ⊢
    exact (numberText_plus (ne_of_isDigit hd (by decide)) _).trans hparts

/-! ## Integers -/

def intParts (n : Int) : Parts := ⟨decide (n < 0), Nat.toDigits 10 n.natAbs, none, none⟩

theorem toDigits_isDigits (n : Nat) : IsDigits (Nat.toDigits 10 n) := ⟨Nat.toDigits_ne_nil, digits_isDigit n⟩

theorem toDigits_leading {n : Nat} (h : (Nat.toDigits 10 n).head? = some '0') : (Nat.toDigits 10 n).length ≤ 1 := by
  by_cases hn : n = 0
  · rw [hn]
    decide
  · exact absurd h (toDigits_head hn)

theorem intParts_sound (n : Int) : (intParts n).Sound :=
  ⟨toDigits_isDigits _, toDigits_leading, (fun _ h => nomatch h), fun _ h => nomatch h⟩

theorem intText_parts (n : Int) : (intText n).toList = (intParts n).chars := by
  unfold intText intParts Parts.chars
  cases n with
  | ofNat n =>
    have hsign : decide (Int.ofNat n < 0) = false := by simp
    rw [hsign]
    show (n.repr).toList = _
    rw [Nat.toList_repr]
    simp [Parts.fractionChars, Parts.exponentChars]
  | negSucc n =>
    have hsign : decide (Int.negSucc n < 0) = true := by simp [Int.negSucc_lt_zero]
    rw [hsign]
    show ("-" ++ (n + 1).repr).toList = _
    rw [String.toList_append, Nat.toList_repr]
    simp [Parts.fractionChars, Parts.exponentChars]

theorem intParts_integer? (n : Int) : (intParts n).number.integer? =
    if n < 0 then if n.natAbs ≤ Nat.pow 2 63 then some n else none
    else if n.natAbs < Nat.pow 2 64 then some n else none := by
  have hdigits : (intParts n).number.whole = Nat.toDigits 10 n.natAbs := rfl
  have hinteger : (intParts n).number.isInteger = true := rfl
  unfold NumberText.integer?
  rw [hdigits, ofDigits_toDigits, hinteger]
  by_cases hn : n < 0
  · have hnegative : (intParts n).number.negative = true := decide_eq_true hn
    have habs : -(n.natAbs : Int) = n := by omega
    have hzero : (n.natAbs != 0) = true := by simp; omega
    rw [if_pos hn, hnegative]
    simp only [Bool.not_true, Bool.false_eq_true, if_false, if_true, hzero, Bool.true_and, decide_eq_true_eq, habs]
  · have hnegative : (intParts n).number.negative = false := decide_eq_false hn
    have habs : (n.natAbs : Int) = n := by omega
    rw [if_neg hn, hnegative]
    simp only [Bool.not_true, Bool.false_eq_true, if_false, habs]

/-! ## Doubles -/

theorem IsDigits.take {ds : List Char} (h : IsDigits ds) {k : Nat} (hk : 0 < k) : IsDigits (ds.take k) := by
  refine ⟨?_, fun c hc => h.2 c (List.mem_of_mem_take hc)⟩
  obtain ⟨d, r, rfl, -⟩ := h.cons
  obtain ⟨j, rfl⟩ : ∃ j, k = j + 1 := ⟨k - 1, by omega⟩
  exact List.cons_ne_nil _ _

theorem IsDigits.drop {ds : List Char} (h : IsDigits ds) {k : Nat} (hk : k < ds.length) : IsDigits (ds.drop k) := by
  refine ⟨?_, fun c hc => h.2 c (List.mem_of_mem_drop hc)⟩
  intro hnil
  have hle := List.drop_eq_nil_iff.mp hnil
  omega

theorem isDigits_zeros (n : Nat) {ds : List Char} (h : IsDigits ds) :
    IsDigits (ds ++ zeros n) ∧ IsDigits (zeros n ++ ds) := by
  obtain ⟨hne, hds⟩ := h
  have hzeros : ∀ c ∈ zeros n, c.isDigit = true := by
    intro c hc
    rw [List.eq_of_mem_replicate hc]
    decide
  constructor
  · refine ⟨fun e => hne (List.append_eq_nil_iff.mp e).1, fun c hc => ?_⟩
    exact (List.mem_append.mp hc).elim (hds c) (hzeros c)
  · refine ⟨fun e => hne (List.append_eq_nil_iff.mp e).2, fun c hc => ?_⟩
    exact (List.mem_append.mp hc).elim (hzeros c) (hds c)

theorem isDigits_zero : IsDigits ['0'] := by
  refine ⟨List.cons_ne_nil _ _, fun c hc => ?_⟩
  rw [List.mem_singleton.mp hc]
  decide

/-- A double written without an exponent has a whole part without a leading zero, and a fraction. -/
theorem positional_chars {d : Digits} (h : d.Significant) : ∃ whole fraction,
    (positional .json d).toList = whole ++ '.' :: fraction ∧ IsDigits whole ∧
      (whole.head? = some '0' → whole.length ≤ 1) ∧ IsDigits fraction := by
  have hdigits := toDigits_isDigits d.digits
  unfold positional
  generalize hds : Nat.toDigits 10 d.digits = ds at hdigits
  have hleading : ds.head? = some '0' → ds.length ≤ 1 := by
    rw [← hds]
    exact toDigits_leading
  -- The point stands behind all digits, between two of them or before the first.
  by_cases he : d.exponent ≥ 0
  · refine ⟨ds ++ zeros d.exponent.natAbs, ['0'], ?_, (isDigits_zeros _ hdigits).1, ?_, isDigits_zero⟩
    · simp [he, Layout.json]
    · intro hzero
      obtain ⟨c, r, rfl, -⟩ := hdigits.cons
      have hhead : (c :: r).head? = some '0' := hzero
      -- Zeros are put behind the digits, so those of a zero must not be followed by any.
      rcases h with hne | hnone
      · exact absurd hhead (hds ▸ toDigits_head hne)
      · rw [hnone]
        simpa [zeros] using hleading hhead
  · rw [if_neg he]
    dsimp only
    by_cases hplaces : d.exponent.natAbs < ds.length
    · refine ⟨ds.take (ds.length - d.exponent.natAbs), ds.drop (ds.length - d.exponent.natAbs), ?_,
        hdigits.take (by omega), ?_, hdigits.drop (by omega)⟩
      · rw [if_pos hplaces, String.toList_ofList]
      · intro hzero
        rw [List.head?_take] at hzero
        have hle := List.length_take_le (ds.length - d.exponent.natAbs) ds
        have hone := hleading (by simpa using (Option.ite_none_left_eq_some.mp hzero).2)
        rw [List.length_take]
        omega
    · refine ⟨['0'], zeros (d.exponent.natAbs - ds.length) ++ ds, ?_, isDigits_zero, fun _ => Nat.le_refl 1,
        (isDigits_zeros _ hdigits).2⟩
      rw [if_neg hplaces, String.toList_ofList]
      rfl

theorem scientific_parts (d : Digits) (e : Int) :
    ∃ p : Parts, p.Sound ∧ p.negative = false ∧ (scientific d e).toList = p.chars := by
  obtain ⟨c, r, hdigits, hc, hr⟩ := toDigits_cons d.digits
  have hone : IsDigits [c] := ⟨List.cons_ne_nil _ _, fun x hx => List.mem_singleton.mp hx ▸ hc⟩
  have hexponent : ∀ e', some (decide (e < 0), Nat.toDigits 10 e.natAbs) = some e' → IsDigits e'.2 := by
    intro e' he'
    cases he'
    exact toDigits_isDigits _
  unfold scientific
  rw [hdigits]
  cases r with
  | nil =>
    refine ⟨⟨false, [c], none, some (decide (e < 0), Nat.toDigits 10 e.natAbs)⟩,
      ⟨hone, fun _ => Nat.le_refl 1, (fun _ h => nomatch h), hexponent⟩, rfl, ?_⟩
    simp [Parts.chars, Parts.fractionChars, Parts.exponentChars]
  | cons x more =>
    refine ⟨⟨false, [c], some (x :: more), some (decide (e < 0), Nat.toDigits 10 e.natAbs)⟩,
      ⟨hone, fun _ => Nat.le_refl 1, ?_, hexponent⟩, rfl, ?_⟩
    · intro ds hds
      cases hds
      exact ⟨List.cons_ne_nil _ _, hr⟩
    · simp [Parts.chars, Parts.fractionChars, Parts.exponentChars]

theorem unsignedText_parts (x : Float) :
    ∃ p : Parts, p.Sound ∧ p.negative = false ∧ (unsignedText .json x).toList = p.chars := by
  have hpositional : ∀ d : Digits, d.Significant →
      ∃ p : Parts, p.Sound ∧ p.negative = false ∧ (positional .json d).toList = p.chars := by
    intro d hd
    obtain ⟨whole, fraction, htext, hwhole, hleading, hfraction⟩ := positional_chars hd
    refine ⟨⟨false, whole, some fraction, none⟩, ⟨hwhole, hleading, ?_, fun _ h => nomatch h⟩, rfl, ?_⟩
    · intro ds hds
      cases hds
      exact hfraction
    · rw [htext]
      simp [Parts.chars, Parts.fractionChars, Parts.exponentChars]
  unfold unsignedText
  dsimp only
  split
  · exact hpositional _ (.inr rfl)
  · split
    · exact hpositional _ (shortest_significant _ _)
    · exact scientific_parts _ _

/-- A double is written as a number, or as null where it is none. -/
theorem floatText_parts (x : Float) :
    floatText x = "null" ∨ ∃ p : Parts, p.Sound ∧ (floatText x).toList = p.chars := by
  obtain ⟨p, hp, hpositive, htext⟩ := unsignedText_parts x
  unfold floatText Layout.text
  split
  · exact .inl rfl
  split
  · left
    split <;> rfl
  right
  split
  · refine ⟨⟨true, p.whole, p.fraction, p.exponent⟩, ⟨hp.whole, hp.leading, hp.fraction, hp.exponent⟩, ?_⟩
    rw [String.toList_append, htext]
    simp [Parts.chars, hpositive, Parts.fractionChars, Parts.exponentChars]
  · exact ⟨p, hp, htext⟩

end DocQuery.Json
