/-
  DocQuery.Proofs.Predicate.Normalizing — the parts of a spelling when operators and texts have one
  spelling.

  Names, keywords, digits and blanks stay as they are (`normalize_append`), a text comes to the one in
  single quotes (`normalize_quoted`), an operator to one of two spellings (`normalize_sign`), and
  indexers vanish (`normalize_indexer`, `normalize_segment`). Each is stated in front of any text.
-/

import Mathlib.Data.List.Basic
import DocQuery.Proofs.Decimal.Digits
import DocQuery.Proofs.Predicate.Spelling
import DocQuery.Proofs.Text.Indexer
import DocQuery.Proofs.Text.Trim

namespace DocQuery.Predicate

open Lexer (isGapChar isWordStart isWordPart)
open Name (isPart_of_isStart isPart_of_isDigit not_blank_of_isDigit)
open Text (Indexer)

/-! ## Characters -/

theorem isGapChar_cases {c : Char} (h : isGapChar c = true) :
    c = ' ' ∨ c = '\t' ∨ c = '\n' ∨ c = '\x0b' ∨ c = '\x0c' ∨ c = '\r' := by
  simp only [isGapChar, Bool.or_eq_true, Bool.and_eq_true, beq_iff_eq, decide_eq_true_eq] at h
  rcases h with h | ⟨h9, h13⟩
  · exact .inl h
  · have h9 : 9 ≤ c.toNat := h9
    have h13 : c.toNat ≤ 13 := h13
    have hc := Char.ofNat_toNat c
    have : c.toNat = 9 ∨ c.toNat = 10 ∨ c.toNat = 11 ∨ c.toNat = 12 ∨ c.toNat = 13 := by omega
    rcases this with h | h | h | h | h <;> rw [h] at hc <;> simp [← hc]

theorem not_digit_of_isStart {c : Char} (h : Name.isStart c = true) : c.isDigit = false := by
  by_contra hd
  simp only [Bool.not_eq_false, Char.isDigit, Bool.and_eq_true, decide_eq_true_eq] at hd
  have h57 : c.toNat ≤ 57 := hd.2
  unfold Name.isStart Char.isAlpha Char.isUpper Char.isLower at h
  simp only [Bool.or_eq_true, Bool.and_eq_true, decide_eq_true_eq, beq_iff_eq] at h
  rcases h with (⟨h65, -⟩ | ⟨h97, -⟩) | rfl
  · have h65 : 65 ≤ c.toNat := h65
    omega
  · have h97 : 97 ≤ c.toNat := h97
    omega
  · revert h57; decide

theorem isWordPart_of_isPart {c : Char} (h : Name.isPart c = true) : isWordPart c = true := by
  simp only [Name.isPart, Char.isAlphanum, Bool.or_eq_true, beq_iff_eq] at h
  simp only [isWordPart, isWordStart, Bool.or_eq_true, beq_iff_eq]
  tauto

theorem isWordStart_of_isStart {c : Char} (h : Name.isStart c = true) : isWordStart c = true := by
  simp only [Name.isStart, Bool.or_eq_true, beq_iff_eq] at h
  simp only [isWordStart, Bool.or_eq_true, beq_iff_eq]
  exact .inl h

/-- What holds of every blank and of what comes behind a gap holds of what comes first. -/
theorem Gap.head {P : Char → Prop} (hblank : ∀ c, isGapChar c = true → P c) (g : Gap) {s : List Char}
    (hs : g.chars = [] → ∀ c, s.head? = some c → P c) : ∀ c, (g.chars ++ s).head? = some c → P c := by
  intro c hc
  cases hg : g.chars with
  | nil =>
    rw [hg] at hc
    exact hs hg c hc
  | cons d r =>
    rw [hg] at hc
    cases hc
    exact hblank c (g.blank c (by rw [hg]; exact List.mem_cons_self))

theorem not_operator_of_isGapChar {c : Char} (h : isGapChar c = true) : Symbol.isOperatorChar c = false := by
  rcases isGapChar_cases h with rfl | rfl | rfl | rfl | rfl | rfl <;> decide

theorem not_part_of_isGapChar {c : Char} (h : isGapChar c = true) : Name.isPart c = false := by
  rcases isGapChar_cases h with rfl | rfl | rfl | rfl | rfl | rfl <;> decide

theorem isBlank_of_isGapChar {c : Char} (h : isGapChar c = true) : Text.isBlank c = true := by
  rcases isGapChar_cases h with rfl | rfl | rfl | rfl | rfl | rfl <;> rfl

theorem ne_of_isPart {c d : Char} (h : Name.isPart c = true) (hd : Name.isPart d = false) : c ≠ d := by
  rintro rfl
  rw [h] at hd
  cases hd

theorem not_operator_of_isPart {c : Char} (h : Name.isPart c = true) : Symbol.isOperatorChar c = false := by
  by_contra hc
  simp only [Symbol.isOperatorChar, List.contains_eq_mem, Bool.not_eq_false, decide_eq_true_eq] at hc
  have hnone : "+-*/<>=~!@#%^&|\x60?".toList.all (fun d => !Name.isPart d) = true := by decide
  exact ne_of_isPart h (by simpa using List.all_eq_true.mp hnone c hc) rfl

/-! ## Characters that stand for themselves -/

/-- Outside of literals the character is left as it is, whatever comes after it. -/
def isPlain (c : Char) : Bool := !(['\'', '"', '&', '|', '=', '['] : List Char).contains c

theorem normalize_cons {c : Char} (h : isPlain c = true) (s : List Char) :
    normalize (c :: s) = c :: normalize s := by
  simp only [isPlain, Bool.not_eq_true', List.contains_eq_mem, decide_eq_false_iff_not, List.mem_cons,
    List.not_mem_nil, or_false, not_or] at h
  unfold normalize
  rw [normalizeFrom] <;> simp_all

/-- What begins an operator of two characters stands for itself where the other one does not come. -/
theorem normalize_lone {c : Char} {s : List Char} (hc : c ∉ ['\'', '"', '[']) (hs : s.head? ≠ some c) :
    normalize (c :: s) = c :: normalize s := by
  simp only [List.mem_cons, List.not_mem_nil, or_false, not_or] at hc
  have htwice : ∀ (d : Char) (r : List Char), c = d → s = d :: r → False := by
    rintro d r rfl rfl
    exact hs rfl
  unfold normalize
  rw [normalizeFrom]
  · exact hc.1
  · exact hc.2.1
  · exact htwice '&'
  · exact htwice '|'
  · exact htwice '='
  · exact hc.2.2

theorem normalize_append {w : List Char} (h : ∀ c ∈ w, isPlain c = true) (s : List Char) :
    normalize (w ++ s) = w ++ normalize s := by
  induction w with
  | nil => rfl
  | cons c w ih =>
    obtain ⟨hc, hw⟩ := List.forall_mem_cons.mp h
    rw [List.cons_append, normalize_cons hc, ih hw, List.cons_append]

theorem isPlain_of_isPart {c : Char} (h : Name.isPart c = true) : isPlain c = true := by
  have hnone : (['\'', '"', '&', '|', '=', '['] : List Char).all (fun d => !Name.isPart d) = true := by decide
  simp only [isPlain, Bool.not_eq_true', List.contains_eq_mem, decide_eq_false_iff_not]
  exact fun hm => ne_of_isPart h (by simpa using List.all_eq_true.mp hnone c hm) rfl

theorem isPlain_of_isGapChar {c : Char} (h : isGapChar c = true) : isPlain c = true := by
  rcases isGapChar_cases h with rfl | rfl | rfl | rfl | rfl | rfl <;> rfl

theorem normalize_gap (g : Gap) (s : List Char) : normalize (g.chars ++ s) = g.chars ++ normalize s :=
  normalize_append (fun c hc => isPlain_of_isGapChar (g.blank c hc)) s

/-! ## Words and numbers -/

/-- A word whose characters a name may have. -/
structure Wordlike (w : String) : Prop where
  opens : ∃ c r, w.toList = c :: r ∧ Name.isStart c = true
  part : ∀ c ∈ w.toList, Name.isPart c = true

theorem Identifier.wordlike (i : Identifier) : Wordlike i.name := by
  refine ⟨?_, fun c hc => i.valid.isPart hc⟩
  have hv := i.valid
  unfold Name.Identifier at hv
  cases hn : i.name.toList with
  | nil => rw [hn] at hv; cases hv
  | cons c r =>
    rw [hn] at hv
    simp only [Name.isIdentifier, Bool.and_eq_true] at hv
    exact ⟨c, r, rfl, hv.1⟩

theorem isStart_of_toUpper {c : Char} (h : c.toUpper.isUpper = true) : Name.isStart c = true := by
  unfold Name.isStart Char.isAlpha
  by_cases hl : c.isLower = true
  · simp only [hl, Bool.or_true, Bool.true_or]
  · have hup : c.toUpper = c := by
      unfold Char.isLower at hl
      simp only [Bool.and_eq_true, decide_eq_true_eq] at hl
      exact dif_neg hl
    rw [hup] at h
    simp only [h, Bool.true_or]

theorem Cased.wordlike {keyword : String} (w : Cased keyword) (hne : keyword.toList ≠ [])
    (hk : keyword.toList.all Char.isUpper = true) : Wordlike w.word := by
  have hmap : w.word.toList.map Char.toUpper = keyword.toList := by
    have := congrArg String.toList w.upper_eq
    rwa [Text.upper, String.toList_ofList] at this
  have hstart : ∀ c ∈ w.word.toList, Name.isStart c = true := by
    intro c hc
    exact isStart_of_toUpper (List.all_eq_true.mp hk _ (hmap ▸ List.mem_map_of_mem hc))
  refine ⟨?_, fun c hc => isPart_of_isStart (hstart c hc)⟩
  cases hw : w.word.toList with
  | nil => rw [hw] at hmap; exact absurd hmap.symm hne
  | cons c r => exact ⟨c, r, rfl, hstart c (by rw [hw]; exact List.mem_cons_self)⟩

theorem Constant.wordlike_null (w : Cased "NULL") : Wordlike w.word := w.wordlike (by decide) (by decide)

theorem Constant.wordlike_boolean {b : Bool} (w : Cased (if b then "TRUE" else "FALSE")) : Wordlike w.word := by
  cases b with
  | false => exact w.wordlike (by decide) (by decide)
  | true => exact w.wordlike (by decide) (by decide)

theorem normalize_word {w : String} (hw : Wordlike w) (s : List Char) :
    normalize (w.toList ++ s) = w.toList ++ normalize s :=
  normalize_append (fun c hc => isPlain_of_isPart (hw.part c hc)) s

theorem normalize_digits (n : Nat) (s : List Char) : normalize (Nat.toDigits 10 n ++ s) = Nat.toDigits 10 n ++ normalize s :=
  normalize_append (fun c hc => isPlain_of_isPart (isPart_of_isDigit (Decimal.digits_isDigit n c hc))) s

/-! ## Texts -/

theorem Constant.singleQuoted_of_ne {c : Char} (h : c ≠ '\'') : singleQuoted c = [c] := by
  simp [singleQuoted, h]

theorem normalize_single (t s : List Char) :
    normalizeFrom .single (t.flatMap Constant.singleQuoted ++ '\'' :: s) =
      t.flatMap Constant.singleQuoted ++ '\'' :: normalize s := by
  induction t with
  | nil => rfl
  | cons c t ih =>
    rw [List.flatMap_cons, List.append_assoc, List.append_assoc, ← ih]
    by_cases hc : c = '\''
    · subst hc; rfl
    · rw [Constant.singleQuoted_of_ne hc, List.cons_append, List.cons_append, List.nil_append, List.nil_append, normalizeFrom]
      exact hc

theorem normalize_double (t s : List Char) :
    normalizeFrom .double (t.flatMap Constant.doubleQuoted ++ '"' :: s) =
      t.flatMap Constant.singleQuoted ++ '\'' :: normalize s := by
  induction t with
  | nil => rfl
  | cons c t ih =>
    rw [List.flatMap_cons, List.flatMap_cons, List.append_assoc, List.append_assoc, ← ih]
    by_cases hquote : c = '"'
    · subst hquote; rfl
    · by_cases hslash : c = '\\'
      · subst hslash; rfl
      · have hq : Constant.doubleQuoted c = [c] := by simp [Constant.doubleQuoted, hquote, hslash]
        rw [hq]
        by_cases hc : c = '\''
        · subst hc; rfl
        · rw [Constant.singleQuoted_of_ne hc, List.cons_append, List.cons_append, List.nil_append, List.nil_append,
            normalizeFrom] <;> simp_all

/-- Either way of quoting a text comes to the one in single quotes. -/
theorem normalize_quoted (t : String) (quotes : Style) (s : List Char) :
    normalize (Constant.quotedChars t quotes ++ s) = Constant.quotedChars t .sql ++ normalize s := by
  cases quotes with
  | sql =>
    have h := normalize_single t.toList s
    simp only [Constant.quotedChars, List.cons_append, List.append_assoc, List.nil_append]
    exact congrArg ('\'' :: ·) h
  | lambda =>
    have h := normalize_double t.toList s
    simp only [Constant.quotedChars, List.cons_append, List.append_assoc, List.nil_append]
    exact congrArg ('\'' :: ·) h

/-! ## Operators -/

theorem head?_normalize_equal (s : List Char) : (normalize ('=' :: s)).head? = some '=' := by
  cases s with
  | nil => rfl
  | cons d r =>
    by_cases hd : d = '='
    · subst hd; rfl
    · rw [normalize_lone (by decide) (by simpa using hd)]; rfl

/-- A sign of equality that is not there before is not there after. -/
theorem head?_ne_equal {s : List Char} (h : (normalize s).head? ≠ some '=') : s.head? ≠ some '=' := by
  intro he
  cases s with
  | nil => cases he
  | cons d r =>
    cases he
    exact h (head?_normalize_equal r)

/-- The characters that are left of an operator when operators have one spelling. -/
def signChars : Comparison → Style → List Char
  | .equalTo, _ => ['=']
  | .notEqualTo, .sql => ['<', '>']
  | .notEqualTo, .lambda => ['!', '=']
  | .greaterThan, _ => ['>']
  | .greaterOrEqualTo, _ => ['>', '=']
  | .lessThan, _ => ['<']
  | .lessOrEqualTo, _ => ['<', '=']

theorem normalize_sign (c : Comparison) (style : Style) {s : List Char} (hs : s.head? ≠ some '=') :
    normalize ((sign c style).toList ++ s) = signChars c style ++ normalize s := by
  have heq : normalize ('=' :: s) = '=' :: normalize s := normalize_lone (by decide) hs
  have hplain : ∀ d : Char, isPlain d = true → normalize (d :: '=' :: s) = d :: '=' :: normalize s := by
    intro d hd
    rw [normalize_cons hd, heq]
  cases c with
  | equalTo =>
    cases style with
    | sql => exact heq
    | lambda => rfl
  | notEqualTo =>
    cases style with
    | sql => exact (normalize_cons (by decide) _).trans (congrArg _ (normalize_cons (by decide) s))
    | lambda => exact hplain '!' (by decide)
  | greaterThan => cases style <;> exact normalize_cons (c := '>') (by decide) s
  | greaterOrEqualTo => cases style <;> exact hplain '>' (by decide)
  | lessThan => cases style <;> exact normalize_cons (c := '<') (by decide) s
  | lessOrEqualTo => cases style <;> exact hplain '<' (by decide)

/-! ## Indexers -/

theorem opensIndexer_inner (i : Indexer Char.isDigit) (s : List Char) : opensIndexer (i.inner ++ ']' :: s) = true := by
  have hinner : (i.inner ++ ']' :: s).takeWhile (· != ']') = i.inner :=
    Text.takeWhile_mark (i.close_not_mem_inner (by decide)) s
  have hdigits : ∀ c ∈ i.digits, Text.isBlank c = false := fun c hc => not_blank_of_isDigit (i.digits_digit c hc)
  have htrim : Text.trimChars i.inner = i.digits :=
    Text.trimChars_between i.front_blank i.back_blank (fun c hc => hdigits c (List.mem_of_mem_head? hc))
      fun c hc => hdigits c (List.mem_of_mem_getLast? hc)
  simp only [opensIndexer, hinner, htrim, List.all_eq_true.mpr i.digits_digit]
  simp [i.digits_ne_nil]

theorem normalizeFrom_indexer {l : List Char} (h : ']' ∉ l) (s : List Char) :
    normalizeFrom .indexer (l ++ ']' :: s) = normalize s := by
  induction l with
  | nil => rfl
  | cons d r ih =>
    rw [List.cons_append, normalizeFrom]
    · exact ih (List.not_mem_of_not_mem_cons h)
    · exact (List.ne_of_not_mem_cons h).symm

theorem normalize_indexer (i : Indexer Char.isDigit) (s : List Char) : normalize (i.chars ++ s) = normalize s := by
  rw [Indexer.chars, List.cons_append, List.append_assoc]
  unfold normalize
  rw [List.singleton_append, normalizeFrom, if_pos (opensIndexer_inner i s),
    normalizeFrom_indexer (i.close_not_mem_inner (by decide))]
  rfl

/-! ## Fields -/

/-- A number in brackets. -/
def numberIndexer (n : Nat) : Indexer Char.isDigit :=
  ⟨[], Nat.toDigits 10 n, [], List.forall_mem_nil _, Nat.toDigits_ne_nil, Decimal.digits_isDigit n, List.forall_mem_nil _⟩

theorem normalize_segment (g : Segment) (s : List Char) :
    normalize (g.chars ++ s) = g.name.toList ++ normalize s := by
  have hindexers : ∀ ns : List Nat,
      normalize ((ns.flatMap fun n => '[' :: Nat.toDigits 10 n ++ [']']) ++ s) = normalize s := by
    intro ns
    induction ns with
    | nil => rfl
    | cons n ns ih =>
      have hchars : '[' :: Nat.toDigits 10 n ++ [']'] = (numberIndexer n).chars := by
        simp [numberIndexer, Indexer.chars, Indexer.inner]
      rw [List.flatMap_cons, List.append_assoc, hchars, normalize_indexer, ih]
  rw [Segment.chars, List.append_assoc, normalize_word g.identifier.wordlike, hindexers]
  rfl

theorem normalize_members (g : Segment) (gs : List Segment) (s : List Char) :
    normalize ((g :: gs).flatMap (fun g => '.' :: g.chars) ++ s) =
      '.' :: (g.name.toList ++ normalize (gs.flatMap (fun g => '.' :: g.chars) ++ s)) := by
  rw [List.flatMap_cons, List.append_assoc, List.cons_append, normalize_cons (by decide), normalize_segment]

theorem Accessor.normalize_chars (a : Accessor) (s : List Char) :
    normalize (a.chars ++ s) =
      a.first.name.toList ++ normalize (a.others.flatMap (fun g => '.' :: g.chars) ++ s) := by
  rw [chars, List.append_assoc, normalize_segment]

end DocQuery.Predicate
