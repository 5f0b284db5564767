/-
  DocQuery.Proofs.Predicate.Lexing — texts that are read token by token.

  `Lexes` says which tokens a text is read as. One more piece in front of a text that is read
  already gives one more token: `Lexed.word`, `Lexed.number`, `Lexed.text`, `Lexed.sign` and the
  others, each with what has to stand behind the piece so that it ends there (`EndsWord`,
  `EndsOperand`, `EndsOperator`).
-/

import DocQuery.Proofs.Predicate.Normalizing

namespace DocQuery.Predicate

open Lexer (isGapChar isWordStart isWordPart piece?)
open Name (isPart_of_isDigit)

/-! ## Reading piece by piece -/

/-- The text is read as these tokens. The first argument says whether a word stands right before. -/
inductive Lexes : Bool → List Char → List Token → Prop
  | done {afterWord : Bool} : Lexes afterWord [] []
  | gap {afterWord : Bool} {s rest : List Char} {tokens : List Token} : piece? afterWord s = some (none, rest) →
      rest.length < s.length → Lexes false rest tokens → Lexes afterWord s tokens
  | token {afterWord : Bool} {s rest : List Char} {t : Token} {tokens : List Token} :
      piece? afterWord s = some (some t, rest) → rest.length < s.length → Lexes t.isWord rest tokens →
      Lexes afterWord s (t :: tokens)

/-- Where a piece of the text is read, the rest is gone on with. -/
theorem lexemesFrom_of_piece {afterWord : Bool} {s rest : List Char} {piece : Option Token}
    (hp : piece? afterWord s = some (piece, rest)) (hlt : rest.length < s.length) {fuel : Nat} (hf : s.length ≤ fuel)
    (spaced : Bool) :
    ∃ fuel', rest.length ≤ fuel' ∧ Lexer.lexemesFrom fuel afterWord spaced s =
      piece.elim (Lexer.lexemesFrom fuel' false true rest) fun t =>
        (Lexer.lexemesFrom fuel' t.isWord false rest).map (⟨t, spaced⟩ :: ·) := by
  cases s with
  | nil => simp at hlt
  | cons c r =>
    cases fuel with
    | zero => simp at hf
    | succ fuel =>
      refine ⟨fuel, by omega, ?_⟩
      simp only [Lexer.lexemesFrom, hp]
      cases piece <;> rfl

theorem Lexes.lexemesFrom {afterWord : Bool} {s : List Char} {tokens : List Token} (h : Lexes afterWord s tokens) :
    ∀ fuel spaced, s.length ≤ fuel →
      ∃ ts, Lexer.lexemesFrom fuel afterWord spaced s = some ts ∧ ts.map (·.token) = tokens := by
  induction h with
  | done => exact fun fuel spaced _ => ⟨[], by cases fuel <;> rfl, rfl⟩
  | gap hp hlt _ ih =>
    intro fuel spaced hf
    obtain ⟨fuel', hf', hstep⟩ := lexemesFrom_of_piece hp hlt hf spaced
    obtain ⟨ts, hts, hmap⟩ := ih fuel' true hf'
    exact ⟨ts, hstep.trans hts, hmap⟩
  | @token _ _ _ t _ hp hlt _ ih =>
    intro fuel spaced hf
    obtain ⟨fuel', hf', hstep⟩ := lexemesFrom_of_piece hp hlt hf spaced
    obtain ⟨ts, hts, hmap⟩ := ih fuel' false hf'
    exact ⟨⟨t, spaced⟩ :: ts, by rw [hstep, Option.elim_some, hts]; rfl, by rw [List.map_cons, hmap]⟩

/-- The text is read as these tokens, whatever stands before it. -/
def Lexed (s : List Char) (tokens : List Token) : Prop := ∀ afterWord, Lexes afterWord s tokens

theorem Lexed.lexemes {s : List Char} {tokens : List Token} (h : Lexed s tokens) :
    ∃ ts, Lexer.lexemes? s = some ts ∧ ts.map (·.token) = tokens :=
  (h false).lexemesFrom s.length true (Nat.le_refl _)

theorem lexed_nil : Lexed [] [] := fun _ => .done

/-! ## Gaps -/

theorem piece?_gap {c : Char} (h : isGapChar c = true) (afterWord : Bool) (r : List Char) :
    piece? afterWord (c :: r) = some (none, r.dropWhile isGapChar) := by
  have hdash : c ≠ '-' := by rintro rfl; revert h; decide
  have hslash : c ≠ '/' := by rintro rfl; revert h; decide
  unfold Lexer.piece?
  split
  · rename_i he; cases he; exact absurd rfl hdash
  · rename_i he; cases he; exact absurd rfl hslash
  · rename_i he; cases he; rw [if_pos h]
  · rename_i he; cases he

theorem length_dropWhile_le {α : Type} (p : α → Bool) (l : List α) : (l.dropWhile p).length ≤ l.length :=
  (List.dropWhile_sublist p).length_le

theorem Lexes.dropGap {s : List Char} {tokens : List Token} (h : Lexes false s tokens) :
    Lexes false (s.dropWhile isGapChar) tokens := by
  cases s with
  | nil => exact h
  | cons c r =>
    by_cases hc : isGapChar c = true
    · rw [List.dropWhile_cons_of_pos hc]
      cases h with
      | gap hp _ hrest => rw [piece?_gap hc] at hp; cases hp; exact hrest
      | token hp _ _ => rw [piece?_gap hc] at hp; cases hp
    · rw [List.dropWhile_cons_of_neg hc]; exact h

theorem Lexed.gap {g s : List Char} {tokens : List Token} (hg : ∀ c ∈ g, isGapChar c = true) (h : Lexed s tokens) :
    Lexed (g ++ s) tokens := by
  cases g with
  | nil => exact h
  | cons c g =>
    intro afterWord
    obtain ⟨hc, hg⟩ := List.forall_mem_cons.mp hg
    have hdrop : (g ++ s).dropWhile isGapChar = s.dropWhile isGapChar := List.dropWhile_append_of_pos hg
    show Lexes afterWord (c :: (g ++ s)) tokens
    refine .gap (piece?_gap hc afterWord _) ?_ (hdrop ▸ (h false).dropGap)
    have := length_dropWhile_le isGapChar (g ++ s)
    rw [List.length_cons]
    omega

/-! ## What may stand after a token -/

/-- What may stand after a word: no more of it, and no quote that would make the word its mark. -/
def EndsWord (s : List Char) : Prop := ∀ c, s.head? = some c → isWordPart c = false ∧ c ≠ '\'' ∧ c ≠ '&'

/-- What may stand after an operand. -/
def EndsOperand (s : List Char) : Prop :=
  ∀ c, s.head? = some c → isGapChar c = true ∨ c = ')' ∨ c = '<' ∨ c = '>' ∨ c = '=' ∨ c = '!'

/-- What may stand after an operator. -/
def EndsOperator (s : List Char) : Prop := ∀ c, s.head? = some c → Symbol.isOperatorChar c = false

/-- What may stand after the sign of a comparison. Only some go on with any operator character. -/
structure EndsSign (c : Comparison) (style : Style) (s : List Char) : Prop where
  operator : goesOn c style = true → EndsOperator s
  not_equal : s.head? ≠ some '='
  not_greater : s.head? ≠ some '>'

theorem EndsOperator.endsSign {s : List Char} (h : EndsOperator s) (c : Comparison) (style : Style) : EndsSign c style s :=
  ⟨fun _ => h, fun he => absurd (h '=' he) (by decide), fun he => absurd (h '>' he) (by decide)⟩

theorem endsSign_minus {c : Comparison} {style : Style} (h : goesOn c style = false) (s : List Char) :
    EndsSign c style ('-' :: s) := by
  refine ⟨fun hgoes => ?_, by simp, by simp⟩
  rw [h] at hgoes
  cases hgoes

theorem EndsOperand.endsWord {s : List Char} (h : EndsOperand s) : EndsWord s := by
  intro c hc
  rcases h c hc with hg | rfl | rfl | rfl | rfl | rfl
  · rcases isGapChar_cases hg with rfl | rfl | rfl | rfl | rfl | rfl <;> decide
  all_goals decide

/-- A number goes on with none of these. -/
theorem EndsOperand.endsNumber {s : List Char} (h : EndsOperand s) {c : Char} (hc : s.head? = some c) :
    c.isDigit = false ∧ c ∉ ['_', '.', 'x', 'e', 'E', 'L'] := by
  rcases h c hc with hg | rfl | rfl | rfl | rfl | rfl
  · rcases isGapChar_cases hg with rfl | rfl | rfl | rfl | rfl | rfl <;> decide
  all_goals decide

theorem endsOperand_nil : EndsOperand [] := fun _ h => by cases h

theorem endsOperand_close (s : List Char) : EndsOperand (')' :: s) := by
  rintro c ⟨rfl⟩
  exact .inr (.inl rfl)

theorem EndsOperand.gap {s : List Char} (g : Gap) (h : EndsOperand s) : EndsOperand (g.chars ++ s) :=
  g.head (fun _ hc => .inl hc) fun _ => h

theorem Space.endsOperand (g : Space) (s : List Char) : EndsOperand (g.chars ++ s) :=
  g.head (fun _ hc => .inl hc) fun hnil => absurd hnil g.ne_nil

theorem EndsWord.gap {s : List Char} (g : Gap) (h : EndsWord s) : EndsWord (g.chars ++ s) := by
  by_cases hg : g.chars = []
  · rw [hg]
    exact h
  · exact (Space.endsOperand ⟨g, hg⟩ s).endsWord

theorem Space.endsOperator (g : Space) (s : List Char) : EndsOperator (g.chars ++ s) :=
  g.head (fun _ hc => not_operator_of_isGapChar hc) fun hnil => absurd hnil g.ne_nil

theorem EndsSign.gap {c : Comparison} {style : Style} {s : List Char} (g : Gap) (h : g.chars = [] → EndsSign c style s) :
    EndsSign c style (g.chars ++ s) := by
  by_cases hg : g.chars = []
  · rw [hg]
    exact h hg
  · exact (Space.endsOperator ⟨g, hg⟩ s).endsSign c style

theorem EndsOperator.of_isPart {c : Char} (h : Name.isPart c = true) (s : List Char) : EndsOperator (c :: s) := by
  rintro d ⟨rfl⟩
  exact not_operator_of_isPart h

/-! ## Words -/

theorem Lexed.token {s rest : List Char} {t : Token} {tokens : List Token}
    (hp : ∀ afterWord, piece? afterWord s = some (some t, rest)) (hlt : rest.length < s.length)
    (h : Lexed rest tokens) : Lexed s (t :: tokens) :=
  fun afterWord => .token (hp afterWord) hlt (h t.isWord)

/-- A text that opens neither a comment nor a gap opens with a token. -/
theorem piece?_token {c : Char} {r : List Char} (hgap : isGapChar c = false) (hdash : c ≠ '-' ∨ r.head? ≠ some '-')
    (hslash : c ≠ '/') (afterWord : Bool) :
    piece? afterWord (c :: r) = (Lexer.token? afterWord c r).map fun (t, rest) => (some t, rest) := by
  unfold Lexer.piece?
  split
  · rename_i he; cases he; simp at hdash
  · rename_i he; cases he; exact absurd rfl hslash
  · rename_i he; cases he; simp only [hgap, Bool.false_eq_true, if_false]
  · rename_i he; cases he

/-- Only five letters are marks. -/
theorem mark?_eq_none {c : Char} (h : c.toUpper ∉ ['N', 'B', 'X', 'E', 'U']) (r : List Char) :
    Quoted.mark? (c :: r) = none := by
  simp only [List.mem_cons, List.not_mem_nil, or_false, not_or] at h
  unfold Quoted.mark?
  split
  · rename_i he
    obtain ⟨rfl, -⟩ := List.cons.inj he
    split <;> simp_all
  · rename_i he
    obtain ⟨rfl, -⟩ := List.cons.inj he
    simp_all
  · rfl

theorem mark?_eq_none_of_next {c : Char} {r : List Char} (h : ∀ d, r.head? = some d → d ≠ '\'' ∧ d ≠ '&') :
    Quoted.mark? (c :: r) = none := by
  unfold Quoted.mark?
  split
  · rename_i he
    obtain ⟨-, rfl⟩ := List.cons.inj he
    exact absurd rfl (h _ rfl).1
  · rename_i he
    obtain ⟨-, rfl⟩ := List.cons.inj he
    exact absurd rfl (h _ rfl).2
  · rfl

theorem not_quote_of_isWordPart {c : Char} (h : isWordPart c = true) : c ≠ '\'' ∧ c ≠ '&' := by
  constructor <;> (rintro rfl; revert h; decide)

theorem not_gap_of_isWordPart {c : Char} (h : isWordPart c = true) : isGapChar c = false := by
  by_contra hg
  rcases isGapChar_cases (by simpa using hg) with rfl | rfl | rfl | rfl | rfl | rfl <;> revert h <;> decide

theorem mark?_word {c : Char} {w s : List Char} (hw : ∀ d ∈ w, isWordPart d = true) (hs : EndsWord s) :
    Quoted.mark? (c :: (w ++ s)) = none := by
  refine mark?_eq_none_of_next fun d hd => ?_
  cases w with
  | nil => exact (hs d hd).2
  | cons e w =>
    cases hd
    exact not_quote_of_isWordPart (hw d List.mem_cons_self)

theorem word_append {w s : List Char} (hw : ∀ d ∈ w, isWordPart d = true) (hs : EndsWord s) :
    Lexer.word (w ++ s) = (.word (String.ofList w), s) := by
  have hends : ∀ c, s.head? = some c → isWordPart c = false := fun c hc => (hs c hc).1
  simp only [Lexer.word, Text.takeWhile_run hw hends, Text.dropWhile_run hw hends]

theorem piece?_word {c : Char} {w s : List Char} (hc : isWordStart c = true) (hw : ∀ d ∈ w, isWordPart d = true)
    (hs : EndsWord s) (afterWord : Bool) :
    piece? afterWord (c :: (w ++ s)) = some (some (.word (String.ofList (c :: w))), s) := by
  have hdash : c ≠ '-' := by rintro rfl; revert hc; decide
  have hslash : c ≠ '/' := by rintro rfl; revert hc; decide
  have hpart : ∀ d ∈ c :: w, isWordPart d = true := by
    refine List.forall_mem_cons.mpr ⟨?_, hw⟩
    simp only [isWordPart, hc, Bool.true_or]
  have hgap := not_gap_of_isWordPart (hpart c List.mem_cons_self)
  have hword : Lexer.word (c :: (w ++ s)) = (.word (String.ofList (c :: w)), s) := word_append hpart hs
  rw [piece?_token hgap (.inl hdash) hslash]
  simp only [Lexer.token?, mark?_word hw hs, hc, if_true, hword, Option.map_some]

theorem Wordlike.piece? {w : String} (hw : Wordlike w) {s : List Char} (hs : EndsWord s) (afterWord : Bool) :
    piece? afterWord (w.toList ++ s) = some (some (.word w), s) ∧ s.length < (w.toList ++ s).length := by
  obtain ⟨c, r, hcr, hc⟩ := hw.opens
  have hr : ∀ d ∈ r, isWordPart d = true := by
    intro d hd
    exact isWordPart_of_isPart (hw.part d (by rw [hcr]; exact List.mem_cons_of_mem c hd))
  have hof : String.ofList (c :: r) = w := by rw [← hcr, String.ofList_toList]
  rw [hcr, List.cons_append, piece?_word (isWordStart_of_isStart hc) hr hs afterWord, hof]
  refine ⟨rfl, ?_⟩
  rw [List.length_cons, List.length_append]
  omega

theorem Lexed.word {w : String} {s : List Char} {tokens : List Token} (hw : Wordlike w) (hs : EndsWord s)
    (h : Lexed s tokens) : Lexed (w.toList ++ s) (.word w :: tokens) :=
  .token (fun afterWord => (hw.piece? hs afterWord).1) (hw.piece? hs false).2 h

/-! ## Numbers -/

theorem digits_append {ds s : List Char} (hds : ∀ d ∈ ds, d.isDigit = true)
    (hs : ∀ c, s.head? = some c → c.isDigit = false ∧ c ≠ '_') : Lexer.digits Char.isDigit (ds ++ s) = (ds, s) := by
  induction ds with
  | nil =>
    cases s with
    | nil => rfl
    | cons c r =>
      obtain ⟨hdigit, hline⟩ := hs c rfl
      cases r with
      | nil => simp [Lexer.digits, hdigit]
      | cons d r => simp [Lexer.digits, hdigit, hline]
  | cons d ds ih =>
    obtain ⟨hd, hds⟩ := List.forall_mem_cons.mp hds
    rw [List.cons_append]
    cases hrest : ds ++ s with
    | nil =>
      obtain ⟨rfl, rfl⟩ := List.append_eq_nil_iff.mp hrest
      simp [Lexer.digits, hd]
    | cons e r =>
      have := ih hds
      rw [hrest] at this
      simp [Lexer.digits, hd, this]

/-- A number is its whole digits, the fraction and the exponent behind them. -/
theorem number_eq {s whole part power afterWhole afterPart rest : List Char}
    (hwhole : Lexer.digits Char.isDigit s = (whole, afterWhole)) (hx : afterWhole.head? ≠ some 'x')
    (hpart : Lexer.fraction afterWhole = (part, afterPart)) (hpoint : whole ++ part ≠ ['.'])
    (hpower : Lexer.exponent afterPart = (power, rest)) (hlong : rest.head? ≠ some 'L') :
    Lexer.number s = (.literal (.number (String.ofList (whole ++ part ++ power)) false), rest) := by
  have hsuffixed : ∀ text, Lexer.suffixed text rest = (.literal (.number (String.ofList text) false), rest) := by
    intro text
    unfold Lexer.suffixed
    split
    · exact absurd rfl hlong
    · rfl
  unfold Lexer.number
  rw [hwhole]
  split
  · rename_i he
    cases he
    exact absurd rfl hx
  · rename_i he
    cases he
    simp only [hpart, beq_eq_false_iff_ne.mpr hpoint, Bool.false_eq_true, if_false, hpower, hsuffixed]

theorem EndsOperand.exponent {s : List Char} (hs : EndsOperand s) : Lexer.exponent s = ([], s) := by
  cases s with
  | nil => rfl
  | cons c r =>
    have he : c ≠ 'e' ∧ c ≠ 'E' := by
      constructor <;> (rintro rfl; exact absurd (by decide) (hs.endsNumber rfl).2)
    simp [Lexer.exponent, he.1, he.2]

theorem number_append {ds s : List Char} (hds : ∀ d ∈ ds, d.isDigit = true) (hne : ds ≠ []) (hs : EndsOperand s) :
    Lexer.number (ds ++ s) = (.literal (.number (String.ofList ds) false), s) := by
  have hnext : ∀ c ∈ ['_', '.', 'x', 'e', 'E', 'L'], s.head? ≠ some c := fun c hc he => (hs.endsNumber he).2 hc
  have hdigits : Lexer.digits Char.isDigit (ds ++ s) = (ds, s) := by
    refine digits_append hds fun c hc => ⟨(hs.endsNumber hc).1, ?_⟩
    rintro rfl
    exact hnext '_' (by decide) hc
  have hfraction : Lexer.fraction s = ([], s) := by
    unfold Lexer.fraction
    split
    · exact absurd rfl (hnext '.' (by decide))
    · rfl
  have hpoint : ds ++ [] ≠ ['.'] := by
    rw [List.append_nil]
    rintro rfl
    exact absurd (hds '.' (by simp)) (by decide)
  have hnumber := number_eq hdigits (hnext 'x' (by decide)) hfraction hpoint hs.exponent (hnext 'L' (by decide))
  simpa only [List.append_nil] using hnumber

theorem not_wordStart_of_isDigit {c : Char} (h : c.isDigit = true) : isWordStart c = false := by
  by_contra hw
  simp only [isWordStart, Bool.not_eq_false, Bool.or_eq_true, decide_eq_true_eq, beq_iff_eq] at hw
  rcases hw with hname | h128
  · have hstart : Name.isStart c = true := by simpa only [Name.isStart, Bool.or_eq_true, beq_iff_eq] using hname
    rw [not_digit_of_isStart hstart] at h
    cases h
  · simp only [Char.isDigit, Bool.and_eq_true, decide_eq_true_eq] at h
    have h57 : c.toNat ≤ 57 := h.2
    omega

/-- Where a digit stands, a number is read. -/
theorem piece?_number {d : Char} {r s : List Char} {t : Token} (hd : d.isDigit = true)
    (hnumber : Lexer.number (d :: r) = (t, s)) (afterWord : Bool) : piece? afterWord (d :: r) = some (some t, s) := by
  have hpart := isPart_of_isDigit hd
  have hgap := not_gap_of_isWordPart (isWordPart_of_isPart hpart)
  have hmark : Quoted.mark? (d :: r) = none := by
    have hlower : ¬ d.isLower = true := by
      intro hlower
      have hstart : Name.isStart d = true := by
        unfold Name.isStart Char.isAlpha
        rw [hlower, Bool.or_true, Bool.true_or]
      rw [not_digit_of_isStart hstart] at hd
      cases hd
    have hupper : d.toUpper = d := by
      unfold Char.isLower at hlower
      simp only [Bool.and_eq_true, decide_eq_true_eq] at hlower
      exact dif_neg hlower
    refine mark?_eq_none ?_ r
    rw [hupper]
    intro hm
    simp only [List.mem_cons, List.not_mem_nil, or_false] at hm
    rcases hm with rfl | rfl | rfl | rfl | rfl <;> exact absurd hd (by decide)
  have hpoint : Lexer.point? afterWord (d :: r) = some (t, s) := by
    unfold Lexer.point?
    split
    · rename_i he
      exact absurd (List.cons.inj he).1 (ne_of_isPart hpart (by decide))
    · rw [hnumber]
  rw [piece?_token hgap (.inl (ne_of_isPart hpart (by decide))) (ne_of_isPart hpart (by decide))]
  simp only [Lexer.token?, hmark, not_wordStart_of_isDigit hd, hd, Bool.true_or, Bool.false_eq_true, if_true, if_false,
    hpoint, Option.map_some]

theorem Lexed.literal {s rest : List Char} {l : Literal} {tokens : List Token}
    (hdigit : ∃ d r, s = d :: r ∧ d.isDigit = true) (hnumber : Lexer.number (s ++ rest) = (.literal l, rest))
    (h : Lexed rest tokens) : Lexed (s ++ rest) (.literal l :: tokens) := by
  obtain ⟨d, r, rfl, hd⟩ := hdigit
  refine .token (piece?_number hd hnumber) ?_ h
  rw [List.cons_append, List.length_cons, List.length_append]
  omega

theorem Lexed.number (n : Nat) {s : List Char} {tokens : List Token} (hs : EndsOperand s) (h : Lexed s tokens) :
    Lexed (Nat.toDigits 10 n ++ s) (.literal (.number (String.ofList (Nat.toDigits 10 n)) false) :: tokens) := by
  obtain ⟨d, r, hdr, hd, hr⟩ := Decimal.toDigits_cons n
  have hne : Nat.toDigits 10 n ≠ [] := by
    rw [hdr]
    exact List.cons_ne_nil d r
  exact .literal ⟨d, r, hdr, hd⟩ (number_append (Decimal.digits_isDigit n) hne hs) h

theorem endsOperator_digits (n : Nat) (s : List Char) : EndsOperator (Nat.toDigits 10 n ++ s) := by
  obtain ⟨d, r, hdr, hd, -⟩ := Decimal.toDigits_cons n
  rw [hdr]
  exact .of_isPart (isPart_of_isDigit hd) _

/-! ## Texts -/

theorem plain_singleQuoted (t : List Char) {s : List Char} (hs : s.head? ≠ some '\'') :
    Quoted.plain '\'' (t.flatMap Constant.singleQuoted ++ '\'' :: s) = some (t, s) := by
  induction t with
  | nil =>
    cases s with
    | nil => rfl
    | cons d r =>
      have hd : d ≠ '\'' := fun e => hs (by rw [e]; rfl)
      simp [Quoted.plain, hd]
  | cons c t ih =>
    rw [List.flatMap_cons, List.append_assoc]
    by_cases hc : c = '\''
    · subst hc
      have hq : Constant.singleQuoted '\'' = ['\'', '\''] := rfl
      simp [hq, Quoted.plain, Quoted.consTo, ih]
    · rw [Constant.singleQuoted_of_ne hc, List.cons_append, List.nil_append]
      cases hrest : t.flatMap Constant.singleQuoted ++ '\'' :: s with
      | nil => simp at hrest
      | cons d r =>
        rw [hrest] at ih
        simp [Quoted.plain, Quoted.consTo, hc, ih]

theorem Lexed.text (t : String) {s : List Char} {tokens : List Token} (hs : EndsOperand s) (h : Lexed s tokens) :
    Lexed (Constant.quotedChars t .sql ++ s) (.literal (.text t) :: tokens) := by
  have hnext : s.head? ≠ some '\'' := by
    intro he
    exact absurd rfl (hs.endsWord _ he).2.1
  have hplain := plain_singleQuoted t.toList hnext
  have hchars : Constant.quotedChars t .sql ++ s = '\'' :: (t.toList.flatMap Constant.singleQuoted ++ '\'' :: s) := by
    simp [Constant.quotedChars]
  have hmark := mark?_eq_none (c := '\'') (by decide) (t.toList.flatMap Constant.singleQuoted ++ '\'' :: s)
  rw [hchars]
  refine .token (fun afterWord => ?_) ?_ h
  · rw [piece?_token (by decide) (.inl (by decide)) (by decide)]
    simp only [Lexer.token?, hmark, Lexer.text?, hplain, Option.map_some, String.ofList_toList]
    rfl
  · simp only [List.length_cons, List.length_append]
    omega

/-! ## Operators and parentheses -/

theorem Lexed.symbol {c : Char} {r s : List Char} {symbol : String} {tokens : List Token}
    (hc : c.toUpper ∉ ['N', 'B', 'X', 'E', 'U']) (hgap : isGapChar c = false) (hdash : c ≠ '-' ∨ r.head? ≠ some '-')
    (hother : c ≠ '/' ∧ isWordStart c = false ∧ (c.isDigit || c == '.') = false ∧ c ∉ ['\'', '"', '$'])
    (hread : Symbol.read? c r = some (symbol, s)) (hlt : s.length < (c :: r).length) (h : Lexed s tokens) :
    Lexed (c :: r) (.symbol symbol :: tokens) := by
  obtain ⟨hslash, hstart, hnumber, hquotes⟩ := hother
  simp only [List.mem_cons, List.not_mem_nil, or_false, not_or] at hquotes
  refine .token (fun afterWord => ?_) hlt h
  rw [piece?_token hgap hdash hslash]
  simp [Lexer.token?, mark?_eq_none hc, hstart, hnumber, hquotes, hread]

theorem Lexed.opening {s : List Char} {tokens : List Token} (h : Lexed s tokens) : Lexed ('(' :: s) (.symbol "(" :: tokens) :=
  .symbol (by decide) (by decide) (.inl (by decide)) (by decide) rfl (Nat.lt_succ_self s.length) h

theorem Lexed.closing {s : List Char} {tokens : List Token} (h : Lexed s tokens) : Lexed (')' :: s) (.symbol ")" :: tokens) :=
  .symbol (by decide) (by decide) (.inl (by decide)) (by decide) rfl (Nat.lt_succ_self s.length) h

theorem run?_append {w s : List Char} (hw : w.all Symbol.isOperatorChar = true) (hs : EndsOperator s)
    (hi : Symbol.incomplete.contains (String.ofList w) = false) :
    Symbol.run? (w ++ s) = some (String.ofList (Symbol.spelled w), s) := by
  have hrun := List.all_eq_true.mp hw
  simp only [Symbol.run?, Text.takeWhile_run hrun hs, Text.dropWhile_run hrun hs, hi, Bool.false_eq_true, if_false]

/-- Three of the characters that begin operators begin none of a fixed length. -/
theorem read?_run {c : Char} {w s : List Char} (hc : c = '<' ∨ c = '>' ∨ c = '-')
    (hw : (c :: w).all Symbol.isOperatorChar = true) (hs : EndsOperator s)
    (hi : Symbol.incomplete.contains (String.ofList (c :: w)) = false) :
    Symbol.read? c (w ++ s) = some (String.ofList (Symbol.spelled (c :: w)), s) := by
  have hrun : Symbol.listed? Symbol.fixed (c :: (w ++ s)) = none ∧
      Symbol.listed? Symbol.grasping (c :: (w ++ s)) = none ∧ Symbol.opensRun c (w ++ s) = true := by
    rcases hc with rfl | rfl | rfl <;> exact ⟨rfl, rfl, rfl⟩
  have hread := run?_append hw hs hi
  simp only [Symbol.read?, hrun.1, hrun.2.1, hrun.2.2, if_true]
  exact hread

theorem Lexed.run {c : Char} {w s : List Char} {tokens : List Token} (hc : c = '<' ∨ c = '>' ∨ c = '-')
    (hw : (c :: w).all Symbol.isOperatorChar = true) (hs : EndsOperator s) (hdash : w.head? ≠ some '-')
    (hi : Symbol.incomplete.contains (String.ofList (c :: w)) = false) (h : Lexed s tokens) :
    Lexed (c :: (w ++ s)) (.symbol (String.ofList (Symbol.spelled (c :: w))) :: tokens) := by
  have hnext : (w ++ s).head? ≠ some '-' := by
    cases w with
    | nil =>
      intro he
      have := hs '-' he
      revert this
      decide
    | cons d w => exact hdash
  have hread := read?_run hc hw hs hi
  have hlt : s.length < (c :: (w ++ s)).length := by
    rw [List.length_cons, List.length_append]
    omega
  rcases hc with rfl | rfl | rfl <;>
    exact .symbol (by decide) (by decide) (.inr hnext) (by decide) hread hlt h

theorem Lexed.equal {s : List Char} {tokens : List Token} (hequal : s.head? ≠ some '=') (hgreater : s.head? ≠ some '>')
    (h : Lexed s tokens) : Lexed ('=' :: s) (.symbol "=" :: tokens) := by
  have hread : Symbol.read? '=' s = some ("=", s) := by
    cases s with
    | nil => rfl
    | cons d r =>
      have he : d ≠ '=' := by simpa using hequal
      have hg : d ≠ '>' := by simpa using hgreater
      have hl : Symbol.listed? Symbol.fixed ('=' :: d :: r) = some "=" := by
        simp [Symbol.listed?, Symbol.fixed, he.symm, hg.symm]
      simp only [Symbol.read?, hl]
      rfl
  exact .symbol (by decide) (by decide) (.inl (by decide)) (by decide) hread (Nat.lt_succ_self s.length) h

theorem Lexed.bang {s : List Char} {tokens : List Token} (h : Lexed s tokens) :
    Lexed ('!' :: '=' :: s) (.symbol "!=" :: tokens) := by
  have hlt : s.length < ('!' :: '=' :: s).length := by
    simp only [List.length_cons]
    omega
  exact .symbol (by decide) (by decide) (.inl (by decide)) (by decide) rfl hlt h

/-- The minus sign before a number. -/
theorem Lexed.minus {s : List Char} {tokens : List Token} (hs : EndsOperator s) (h : Lexed s tokens) :
    Lexed ('-' :: s) (.symbol "-" :: tokens) :=
  Lexed.run (w := []) (.inr (.inr rfl)) (by decide) hs (by decide) (by decide) h

theorem Lexed.sign (c : Comparison) (style : Style) {s : List Char} {tokens : List Token} (hs : EndsSign c style s)
    (h : Lexed s tokens) : Lexed (signChars c style ++ s) (signToken c style :: tokens) := by
  have hends := hs.operator
  cases c with
  | equalTo => cases style <;> exact .equal hs.not_equal hs.not_greater h
  | notEqualTo =>
    cases style with
    | sql => exact .run (w := ['>']) (.inl rfl) (by decide) (hends rfl) (by decide) (by decide) h
    | lambda => exact .bang h
  | greaterThan => exact .run (w := []) (.inr (.inl rfl)) (by decide) (hends rfl) (by decide) (by decide) h
  | greaterOrEqualTo => exact .run (w := ['=']) (.inr (.inl rfl)) (by decide) (hends rfl) (by decide) (by decide) h
  | lessThan => exact .run (w := []) (.inl rfl) (by decide) (hends rfl) (by decide) (by decide) h
  | lessOrEqualTo => exact .run (w := ['=']) (.inl rfl) (by decide) (hends rfl) (by decide) (by decide) h

theorem endsOperand_sign (c : Comparison) (style : Style) (s : List Char) : EndsOperand (signChars c style ++ s) := by
  intro d hd
  cases c <;> cases style <;> cases hd <;> decide

/-! ## Points -/

/-- The point before a name. One that opens with an underscore is read so only after a word. -/
theorem piece?_point {c : Char} (hc : Name.isStart c = true) (r : List Char) :
    piece? true ('.' :: c :: r) = some (some (.symbol "."), c :: r) := by
  have hdigit := not_digit_of_isStart hc
  have hpoint : Lexer.point? true ('.' :: c :: r) = some (.symbol ".", c :: r) := by
    by_cases hline : c = '_'
    · subst hline; rfl
    · have hwhole : Lexer.digits Char.isDigit ('.' :: c :: r) = ([], '.' :: c :: r) := rfl
      have hpart : Lexer.digits Char.isDigit (c :: r) = ([], c :: r) :=
        @digits_append [] (c :: r) (by simp) (by rintro d ⟨rfl⟩; exact ⟨hdigit, hline⟩)
      have hnumber : Lexer.number ('.' :: c :: r) = (.symbol ".", c :: r) := by
        simp [Lexer.number, hwhole, Lexer.fraction, hpart]
      unfold Lexer.point?
      split
      · rename_i he; exact absurd (List.cons.inj (List.cons.inj he).2).1 hline
      · rw [hnumber]
  rw [piece?_token (by decide) (.inl (by decide)) (by decide)]
  have hmark : Quoted.mark? ('.' :: c :: r) = none := mark?_eq_none (by decide) _
  have hother : isWordStart '.' = false ∧ ('.'.isDigit || '.' == '.') = true := ⟨rfl, rfl⟩
  simp only [Lexer.token?, hmark, hother.1, hother.2, Bool.false_eq_true, if_true, if_false, hpoint]
  rfl

theorem EndsWord.point (s : List Char) : EndsWord ('.' :: s) := by
  rintro c ⟨rfl⟩
  decide

end DocQuery.Predicate
