/-
  DocQuery.Proofs.Predicate.Amounts — numbers in predicates and numbers by themselves.

  An `Amount` is a number as it may be written: a minus sign, digits, a fraction, an exponent. In a predicate
  the sign is an operator, and what is read without it is negated; by itself the whole text is read. The two come
  to one value (`Amount.Values`), but for the least of the integers, which has no positive counterpart, and for
  numbers that are too large for a double, which by themselves are no numbers.
-/

import DocQuery.Proofs.Decimal.Numerals
import DocQuery.Proofs.Predicate.Equation
import DocQuery.Value.Literal

namespace DocQuery.Predicate

open Decimal (signed natural? integer? int64? float? applySign special? Numeral int64?_eq_none int64?_natural
  special?_eq_none natural?_digits read?_natural)
open Name (isPart_of_isDigit not_blank_of_isDigit)
open Text (trimChars_eq_self)

/-! ## Numbers as they are written -/

/-- An exponent. -/
structure Power where
  letter : Char
  letter_eq : letter = 'e' ∨ letter = 'E'
  sign : List Char
  sign_eq : sign = [] ∨ sign = ['+'] ∨ sign = ['-']
  digits : List Char
  digits_ne : digits ≠ []
  isDigit : ∀ c ∈ digits, c.isDigit = true

def Power.chars (p : Power) : List Char := p.letter :: (p.sign ++ p.digits)

structure Amount where
  negative : Bool
  whole : List Char
  whole_ne : whole ≠ []
  whole_isDigit : ∀ c ∈ whole, c.isDigit = true
  fraction : Option (List Char)
  fraction_isDigit : ∀ ds ∈ fraction, ∀ c ∈ ds, c.isDigit = true
  power : Option Power

namespace Amount

def fractionChars (t : Amount) : List Char := t.fraction.elim [] ('.' :: ·)

def powerChars (t : Amount) : List Char := t.power.elim [] Power.chars

/-- The number without its sign. -/
def unsigned (t : Amount) : List Char := t.whole ++ (t.fractionChars ++ t.powerChars)

def chars (t : Amount) : List Char := if t.negative then '-' :: t.unsigned else t.unsigned

def text (t : Amount) : String := String.ofList t.chars

def number (t : Amount) : Literal := .number (String.ofList t.unsigned) false

def tokens (t : Amount) : List Token :=
  if t.negative then [.symbol "-", .literal t.number] else [.literal t.number]

def expr (t : Amount) : Expr := if t.negative then .negative (.literal t.number) else .literal t.number

end Amount

/-! ## Characters -/

theorem exists_cons_digit {ds : List Char} (hne : ds ≠ []) (h : ∀ c ∈ ds, c.isDigit = true) :
    ∃ d r, ds = d :: r ∧ d.isDigit = true := by
  obtain ⟨d, r, rfl⟩ := List.exists_cons_of_ne_nil hne
  exact ⟨d, r, rfl, h d List.mem_cons_self⟩

theorem Power.letter_isExponent (p : Power) : (p.letter == 'e' || p.letter == 'E') = true := by
  rcases p.letter_eq with h | h <;> simp [h]

theorem Power.mem_chars (p : Power) : ∀ c ∈ p.chars, c.isDigit = true ∨ c ∈ ['e', 'E', '+', '-'] := by
  refine List.forall_mem_cons.mpr ⟨?_, List.forall_mem_append.mpr ⟨?_, fun c hc => .inl (p.isDigit c hc)⟩⟩
  · rcases p.letter_eq with h | h <;> simp [h]
  · rcases p.sign_eq with h | h | h <;> simp [h]

namespace Amount

variable (t : Amount)

theorem opens : ∃ d r, t.unsigned = d :: r ∧ d.isDigit = true := by
  obtain ⟨d, r, hdr, hd⟩ := exists_cons_digit t.whole_ne t.whole_isDigit
  exact ⟨d, r ++ (t.fractionChars ++ t.powerChars), by rw [unsigned, hdr, List.cons_append], hd⟩

/-- What is so of the digits and of the marks between them is so of all the characters. -/
theorem forall_mem_unsigned {p : Char → Bool} {b : Bool} (hdigit : ∀ c, c.isDigit = true → p c = b)
    (hmarks : ['.', 'e', 'E', '+', '-'].all (p · == b) = true) : ∀ c ∈ t.unsigned, p c = b := by
  have hmark : ∀ c ∈ ['.', 'e', 'E', '+', '-'], p c = b := fun c hc =>
    beq_iff_eq.mp (List.all_eq_true.mp hmarks c hc)
  refine List.forall_mem_append.mpr ⟨fun c hc => hdigit c (t.whole_isDigit c hc), List.forall_mem_append.mpr ⟨?_, ?_⟩⟩
  · unfold fractionChars
    cases hf : t.fraction with
    | none => exact fun c hc => absurd hc List.not_mem_nil
    | some ds =>
      exact List.forall_mem_cons.mpr ⟨hmark '.' (by decide), fun c hc => hdigit c (t.fraction_isDigit ds hf c hc)⟩
  · unfold powerChars
    cases t.power with
    | none => exact fun c hc => absurd hc List.not_mem_nil
    | some p => exact fun c hc => (p.mem_chars c hc).elim (hdigit c) fun hm => hmark c (List.mem_cons_of_mem '.' hm)

theorem isPlain_unsigned : ∀ c ∈ t.unsigned, isPlain c = true :=
  t.forall_mem_unsigned (fun _ hd => isPlain_of_isPart (isPart_of_isDigit hd)) (by rfl)

theorem not_blank : ∀ c ∈ t.chars, Text.isBlank c = false := by
  have hunsigned : ∀ c ∈ t.unsigned, Text.isBlank c = false :=
    t.forall_mem_unsigned (fun _ hd => not_blank_of_isDigit hd) (by rfl)
  unfold chars
  split
  · exact List.forall_mem_cons.mpr ⟨by decide, hunsigned⟩
  · exact hunsigned

end Amount

/-! ## Reading tokens -/

theorem Power.exponent_append (p : Power) {s : List Char} (hs : ∀ c, s.head? = some c → c.isDigit = false) :
    Lexer.exponent (p.chars ++ s) = (p.chars, s) := by
  obtain ⟨d, r, hdr, hd⟩ := exists_cons_digit p.digits_ne p.isDigit
  have hunsigned : d ≠ '+' ∧ d ≠ '-' := by
    constructor <;> (rintro rfl; exact absurd hd (by decide))
  have htake : (d :: (r ++ s)).takeWhile Char.isDigit = d :: r := by
    simpa only [hdr, List.cons_append] using Text.takeWhile_run p.isDigit hs
  have hdrop : (d :: (r ++ s)).dropWhile Char.isDigit = s := by
    simpa only [hdr, List.cons_append] using Text.dropWhile_run p.isDigit hs
  rw [chars, hdr]
  rcases p.sign_eq with h | h | h <;>
    simp [h, Lexer.exponent, p.letter_isExponent, hd, hunsigned.1, hunsigned.2, htake, hdrop]

namespace Amount

variable (t : Amount) {s : List Char}

theorem afterFraction (hs : EndsOperand s) :
    ∀ c, (t.powerChars ++ s).head? = some c → c.isDigit = false ∧ c ∉ ['_', '.', 'x'] := by
  intro c hc
  unfold powerChars at hc
  cases hp : t.power with
  | none =>
    rw [hp] at hc
    obtain ⟨hdigit, hnone⟩ := hs.endsNumber hc
    exact ⟨hdigit, fun hm => hnone (by revert hm; simp; tauto)⟩
  | some p =>
    rw [hp] at hc
    cases hc
    rcases p.letter_eq with h | h <;> rw [h] <;> decide

theorem afterWhole (hs : EndsOperand s) :
    ∀ c, (t.fractionChars ++ (t.powerChars ++ s)).head? = some c → c.isDigit = false ∧ c ∉ ['_', 'x'] := by
  intro c hc
  unfold fractionChars at hc
  cases hf : t.fraction with
  | none =>
    rw [hf] at hc
    obtain ⟨hdigit, hnone⟩ := t.afterFraction hs c hc
    exact ⟨hdigit, fun hm => hnone (by revert hm; simp; tauto)⟩
  | some ds =>
    rw [hf] at hc
    cases hc
    decide

theorem fraction_append (hs : EndsOperand s) :
    Lexer.fraction (t.fractionChars ++ (t.powerChars ++ s)) = (t.fractionChars, t.powerChars ++ s) := by
  have hnext := t.afterFraction hs
  unfold fractionChars
  cases hf : t.fraction with
  | none =>
    show Lexer.fraction (t.powerChars ++ s) = _
    unfold Lexer.fraction
    split
    · rename_i he
      exact absurd (by decide) (hnext '.' (by rw [he]; rfl)).2
    · rfl
  | some ds =>
    have hdigits : Lexer.digits Char.isDigit (ds ++ (t.powerChars ++ s)) = (ds, t.powerChars ++ s) := by
      refine digits_append (t.fraction_isDigit ds hf) fun c hc => ⟨(hnext c hc).1, ?_⟩
      rintro rfl
      exact (hnext '_' hc).2 (by decide)
    show Lexer.fraction ('.' :: (ds ++ (t.powerChars ++ s))) = _
    simp only [Lexer.fraction, hdigits]
    rfl

theorem exponent_append (hs : EndsOperand s) : Lexer.exponent (t.powerChars ++ s) = (t.powerChars, s) := by
  have hdigit : ∀ c, s.head? = some c → c.isDigit = false := fun c hc => (hs.endsNumber hc).1
  unfold powerChars
  cases t.power with
  | some p => exact p.exponent_append hdigit
  | none =>
    show Lexer.exponent s = ([], s)
    exact hs.exponent

theorem number_append (hs : EndsOperand s) : Lexer.number (t.unsigned ++ s) = (.literal t.number, s) := by
  have hnext := t.afterWhole hs
  have hwhole : Lexer.digits Char.isDigit (t.unsigned ++ s) = (t.whole, t.fractionChars ++ (t.powerChars ++ s)) := by
    rw [unsigned, List.append_assoc, List.append_assoc]
    refine digits_append t.whole_isDigit fun c hc => ⟨(hnext c hc).1, ?_⟩
    rintro rfl
    exact (hnext '_' hc).2 (by decide)
  have hx : (t.fractionChars ++ (t.powerChars ++ s)).head? ≠ some 'x' := fun he => (hnext 'x' he).2 (by decide)
  have hpoint : t.whole ++ t.fractionChars ≠ ['.'] := by
    intro he
    obtain ⟨d, r, hdr, hd⟩ := exists_cons_digit t.whole_ne t.whole_isDigit
    rw [hdr] at he
    cases (List.cons.inj he).1
    exact absurd hd (by decide)
  have hlong : s.head? ≠ some 'L' := fun he => (hs.endsNumber he).2 (by decide)
  rw [number_eq hwhole hx (t.fraction_append hs) hpoint (t.exponent_append hs) hlong, number, unsigned,
    List.append_assoc]

theorem normalize_unsigned (s : List Char) : normalize (t.unsigned ++ s) = t.unsigned ++ normalize s :=
  normalize_append t.isPlain_unsigned s

theorem endsOperator_unsigned (s : List Char) : EndsOperator (t.unsigned ++ s) := by
  obtain ⟨d, r, hdr, hd⟩ := t.opens
  rw [hdr]
  exact .of_isPart (isPart_of_isDigit hd) _

theorem lexed {more : List Token} (hs : EndsOperand (normalize s)) (h : Lexed (normalize s) more) :
    Lexed (normalize (t.chars ++ s)) (t.tokens ++ more) := by
  have hnumber : Lexed (t.unsigned ++ normalize s) (.literal t.number :: more) :=
    .literal t.opens (t.number_append hs) h
  unfold chars tokens
  split
  · rw [List.cons_append, normalize_cons (by decide), normalize_unsigned]
    exact .minus (t.endsOperator_unsigned _) hnumber
  · rw [normalize_unsigned]
    exact hnumber

theorem endsSign (style : Style) (s : List Char) : EndsSign .equalTo style (normalize (t.chars ++ s)) := by
  unfold chars
  split
  · rw [List.cons_append, normalize_cons (by decide)]
    exact endsSign_minus rfl _
  · rw [normalize_unsigned]
    exact (t.endsOperator_unsigned _).endsSign _ _

theorem begins : Begins t.chars := by
  unfold chars
  split
  · exact ⟨'-', _, rfl, by decide, by decide, by decide⟩
  · obtain ⟨d, r, hdr, hd⟩ := t.opens
    rw [hdr]
    exact begins_of_isPart (isPart_of_isDigit hd) r

theorem termed : Termed (if t.negative then 1 else 0) t.tokens t.expr := by
  unfold tokens expr
  split
  · exact (termed_literal t.number).minus
  · exact termed_literal t.number

theorem avoids : Avoids Grammar.quantifiers t.tokens := by
  unfold tokens
  split
  · exact avoids_symbol _ _ _
  · exact ⟨_, [], rfl, fun w hw => by cases hw⟩

/-! ## Reading values -/

theorem signed_unsigned : signed t.unsigned = (false, t.unsigned) := by
  obtain ⟨d, r, hdr, hd⟩ := t.opens
  rw [hdr]
  exact Decimal.signed_digit hd r

theorem signed_chars : signed t.chars = (t.negative, t.unsigned) := by
  unfold chars
  split
  · rename_i hneg
    rw [hneg]
    rfl
  · rename_i hneg
    rw [Bool.not_eq_true] at hneg
    rw [hneg]
    exact t.signed_unsigned

end Amount

theorem Power.exponent?_isSome (p : Power) : ∃ e, Numeral.exponent? p.chars = some e := by
  obtain ⟨d, r, hdr, hd⟩ := exists_cons_digit p.digits_ne p.isDigit
  have hsigned : ∃ negative, signed (p.sign ++ p.digits) = (negative, p.digits) := by
    rcases p.sign_eq with h | h | h
    · rw [h, hdr]
      exact ⟨false, Decimal.signed_digit hd r⟩
    · rw [h]
      exact ⟨false, rfl⟩
    · rw [h]
      exact ⟨true, rfl⟩
  obtain ⟨negative, hsigned⟩ := hsigned
  refine ⟨applySign negative (Decimal.ofDigits p.digits), ?_⟩
  simp only [chars, Numeral.exponent?, p.letter_isExponent, if_true, integer?, hsigned,
    natural?_digits p.digits_ne p.isDigit, Option.map_some]

namespace Amount

variable (t : Amount)

theorem mantissa_unsigned : Numeral.mantissa t.unsigned = (t.whole, t.fraction.getD [], t.powerChars) := by
  have hwhole := t.afterWhole endsOperand_nil
  have hfraction := t.afterFraction endsOperand_nil
  rw [List.append_nil] at hwhole hfraction
  have htake : t.unsigned.takeWhile Char.isDigit = t.whole :=
    Text.takeWhile_run t.whole_isDigit fun c hc => (hwhole c hc).1
  have hdrop : t.unsigned.dropWhile Char.isDigit = t.fractionChars ++ t.powerChars :=
    Text.dropWhile_run t.whole_isDigit fun c hc => (hwhole c hc).1
  unfold Numeral.mantissa
  rw [htake, hdrop]
  unfold fractionChars
  cases hf : t.fraction with
  | none =>
    split
    · rename_i he
      exact absurd (by decide) (hfraction '.' (congrArg List.head? he)).2
    · rfl
  | some ds =>
    have hrun : ∀ c, t.powerChars.head? = some c → c.isDigit = false := fun c hc => (hfraction c hc).1
    simp only [Option.elim, List.cons_append, Text.takeWhile_run (t.fraction_isDigit ds hf) hrun,
      Text.dropWhile_run (t.fraction_isDigit ds hf) hrun]
    rfl

/-- With its sign and without it the text is one numeral but for the sign. -/
theorem numeral : ∃ coefficient exponent,
    Numeral.read? t.unsigned = some ⟨false, coefficient, exponent⟩ ∧
      Numeral.read? t.chars = some ⟨t.negative, coefficient, exponent⟩ := by
  obtain ⟨e, he⟩ : ∃ e, Numeral.exponent? t.powerChars = some e := by
    unfold powerChars
    cases t.power with
    | none => exact ⟨0, rfl⟩
    | some p => exact p.exponent?_isSome
  have hne : t.whole.isEmpty = false := by simpa using t.whole_ne
  have hread : ∀ s negative, signed s = (negative, t.unsigned) → Numeral.read? s =
      some ⟨negative, Decimal.ofDigits (t.whole ++ t.fraction.getD []), e - (t.fraction.getD []).length⟩ := by
    intro s negative hs
    simp only [Numeral.read?, hs, t.mantissa_unsigned, hne, Bool.false_and, Bool.false_eq_true, if_false, he,
      Option.map_some]
  exact ⟨_, _, hread _ _ t.signed_unsigned, hread _ _ t.signed_chars⟩

/-- The double that the text is read as is the one that it is read as without its sign, or its negative. -/
theorem double : ∃ x, float? (String.ofList t.unsigned) = some x ∧
    float? t.text = some (if t.negative then -x else x) := by
  obtain ⟨c, e, hunsigned, hchars⟩ := t.numeral
  obtain ⟨d, r, hdr, hd⟩ := t.opens
  refine ⟨Numeral.toFloat ⟨false, c, e⟩, ?_, ?_⟩
  · simp only [float?, String.toList_ofList, special?_eq_none t.signed_unsigned hdr hd, hunsigned, Option.map_some]
  · simp only [float?, text, String.toList_ofList, special?_eq_none t.signed_chars hdr hd, hchars, Option.map_some]
    rfl

/-! ## By itself -/

theorem ofLiteral_eq :
    Value.ofLiteral t.text =
      (Value.integer? t.text <|> Value.finiteFloat? t.text <|> Value.boolean? t.text <|> Value.instant? t.text <|>
        Value.guid? t.text).getD (.text t.text) := by
  have htrim : Text.trim t.text = t.text := by
    rw [Text.trim, text, String.toList_ofList, trimChars_eq_self t.not_blank]
  have hnull : Value.null? t.text = none := by
    have hlower : Text.lower t.text ≠ Text.lower "null" := by
      intro he
      replace he := congrArg (fun s => s.toList.head?) he
      simp only [Text.lower, String.toList_ofList, text, List.head?_map] at he
      unfold chars at he
      split at he
      · have hhead : '-' = 'n' := Option.some.inj he
        exact absurd hhead (by decide)
      · obtain ⟨d, r, hdr, hd⟩ := t.opens
        rw [hdr, List.head?_cons, Option.map_some, Text.toLower_digit hd] at he
        cases Option.some.inj he
        exact absurd hd (by decide)
    simp only [Value.null?, Text.sameIgnoringCase, beq_eq_false_iff_ne.mpr hlower, Bool.false_eq_true, if_false]
  unfold Value.ofLiteral
  simp only [htrim, hnull]
  rfl

theorem ofLiteral_integer {n : Int64} (h : int64? t.text = some n) : Value.ofLiteral t.text = .integer n := by
  rw [ofLiteral_eq, Value.integer?, h]
  rfl

theorem ofLiteral_float {x : Float} (h : int64? t.text = none) (hx : float? t.text = some x)
    (hfinite : x.isFinite = true) : Value.ofLiteral t.text = .float x := by
  rw [ofLiteral_eq, Value.integer?, h, Value.finiteFloat?, hx, Option.filter_some, if_pos hfinite]
  rfl

/-- The value is no number. -/
def NoNumber (v : Value) : Prop := v.asInteger? = none ∧ ∀ x, v ≠ .float x

theorem ofLiteral_infinite {x : Float} (h : int64? t.text = none) (hx : float? t.text = some x)
    (hfinite : x.isFinite = false) : NoNumber (Value.ofLiteral t.text) := by
  rw [ofLiteral_eq, Value.integer?, h, Value.finiteFloat?, hx, Option.filter_some, hfinite]
  show NoNumber ((Value.boolean? t.text <|> Value.instant? t.text <|> Value.guid? t.text).getD (.text t.text))
  cases hb : Value.boolean? t.text with
  | some v =>
    obtain ⟨b, rfl⟩ : ∃ b, v = .boolean b := by
      unfold Value.boolean? at hb
      split_ifs at hb <;> exact ⟨_, (Option.some.inj hb).symm⟩
    exact ⟨rfl, nofun⟩
  | none =>
    unfold Value.instant? Value.guid?
    cases Instant.read? t.text with
    | some i => exact ⟨rfl, nofun⟩
    | none =>
      cases Guid.read? t.text with
      | some g => exact ⟨rfl, nofun⟩
      | none => exact ⟨rfl, nofun⟩

/-! ## In a predicate -/

/-- What the number comes to in a predicate, and what by itself: the same integer or finite double, unless it is
the least of the integers, or too large for a double and by itself no number. -/
inductive Values : Value → Value → Prop
  | integer {n : Int64} : int64? t.text = some n → n ≠ Int64.minValue → Values (.integer n) (.integer n)
  | float {x : Float} : int64? t.text = none → float? t.text = some x → x.isFinite = true → Values (.float x) (.float x)
  | least : int64? t.text = some Int64.minValue → Values (.float (-9223372036854775808.0)) (.integer Int64.minValue)
  | infinite {x : Float} {v : Value} : int64? t.text = none → float? t.text = some x → x.isFinite = false →
      NoNumber v → Values (.float x) v

/-- The number's value in a predicate is that of its digits, negated if there is a sign. -/
theorem constant_of_numberValue {v w : Value} (hv : Expr.numberValue (String.ofList t.unsigned) = .ok v)
    (hw : t.negative = true → Expr.negated v = .ok w) (setting : Setting) :
    t.expr.constant setting = .ok (if t.negative then w else v) := by
  have hnumber : (Expr.literal t.number).constant setting = .ok v := hv
  unfold expr
  split
  · rename_i hneg
    rw [Expr.constant, hnumber]
    exact hw hneg
  · exact hnumber

theorem values_of_double (hunsigned : int64? (String.ofList t.unsigned) = none) (h : int64? t.text = none) :
    ∃ v, (∀ setting, t.expr.constant setting = .ok v) ∧ t.Values v (Value.ofLiteral t.text) := by
  obtain ⟨x, hx, htext⟩ := t.double
  have hv : Expr.numberValue (String.ofList t.unsigned) = .ok (.float x) := by
    simp only [Expr.numberValue, hunsigned, hx]
  have hsign : (if t.negative then Value.float (-x) else .float x) = .float (if t.negative then -x else x) := by
    split <;> rfl
  refine ⟨_, t.constant_of_numberValue hv fun _ => rfl, ?_⟩
  rw [hsign]
  cases hfinite : (if t.negative then -x else x).isFinite with
  | true =>
    rw [t.ofLiteral_float h htext hfinite]
    exact .float h htext hfinite
  | false => exact .infinite h htext hfinite (t.ofLiteral_infinite h htext hfinite)

theorem ofInt_applySign_ne_minValue {negative : Bool} {n : Nat} (hle : n ≤ 9223372036854775807) :
    Int64.ofInt (applySign negative n) ≠ Int64.minValue := by
  have hrange : -9223372036854775807 ≤ applySign negative n ∧ applySign negative n ≤ 9223372036854775807 := by
    unfold applySign
    split <;> omega
  intro he
  replace he := congrArg Int64.toInt he
  rw [Int64.toInt_ofInt_of_le (by omega) (by omega), Int64.toInt_minValue] at he
  omega

theorem values_of_integer {n : Nat} (hn : natural? t.unsigned = some n) (hle : n ≤ 9223372036854775807) :
    ∃ v, (∀ setting, t.expr.constant setting = .ok v) ∧ t.Values v (Value.ofLiteral t.text) := by
  have hunsigned : int64? (String.ofList t.unsigned) = some (Int64.ofInt n) := by
    rw [int64?_natural t.signed_unsigned hn, if_pos (.inl hle)]
    rfl
  have htext : int64? t.text = some (Int64.ofInt (applySign t.negative n)) := by
    rw [text, int64?_natural t.signed_chars hn, if_pos (.inl hle)]
  have hv : Expr.numberValue (String.ofList t.unsigned) = .ok (.integer (Int64.ofInt n)) := by
    simp only [Expr.numberValue, hunsigned]
  have hsign : (if t.negative then Value.integer (-Int64.ofInt n) else .integer (Int64.ofInt n)) =
      .integer (Int64.ofInt (applySign t.negative n)) := by
    cases t.negative with
    | false => rfl
    | true => simp only [if_true, applySign, Int64.ofInt_neg]
  refine ⟨_, t.constant_of_numberValue hv fun _ => rfl, ?_⟩
  rw [hsign, t.ofLiteral_integer htext]
  exact .integer htext (ofInt_applySign_ne_minValue hle)

theorem int64?_unsigned_eq_none {n : Nat} (hn : natural? t.unsigned = some n) (hlt : 9223372036854775807 < n) :
    int64? (String.ofList t.unsigned) = none := by
  rw [int64?_natural t.signed_unsigned hn, if_neg (by simpa using hlt)]

/-- Without its sign the least of the integers does not fit, and is read as a double. -/
theorem values_of_least (hneg : t.negative = true) (hn : natural? t.unsigned = some 9223372036854775808) :
    ∃ v, (∀ setting, t.expr.constant setting = .ok v) ∧ t.Values v (Value.ofLiteral t.text) := by
  obtain ⟨d, r, hdr, hd⟩ := t.opens
  have hx : float? (String.ofList t.unsigned) = some (Numeral.toFloat ⟨false, 9223372036854775808, 0⟩) := by
    simp only [float?, String.toList_ofList, special?_eq_none t.signed_unsigned hdr hd,
      read?_natural t.signed_unsigned hn, Option.map_some]
  have hv : Expr.numberValue (String.ofList t.unsigned) =
      .ok (.float (Numeral.toFloat ⟨false, 9223372036854775808, 0⟩)) := by
    simp only [Expr.numberValue, t.int64?_unsigned_eq_none hn (by decide), hx]
  have htext : int64? t.text = some Int64.minValue := by
    rw [text, int64?_natural t.signed_chars hn, if_pos (.inr ⟨hneg, rfl⟩), hneg]
    rfl
  have hsign : (if t.negative then Value.float (-Numeral.toFloat ⟨false, 9223372036854775808, 0⟩)
      else .float (Numeral.toFloat ⟨false, 9223372036854775808, 0⟩)) = .float (-9223372036854775808.0) := by
    rw [hneg]
    rfl
  refine ⟨_, t.constant_of_numberValue hv fun _ => rfl, ?_⟩
  rw [hsign, t.ofLiteral_integer htext]
  exact .least htext

theorem exists_values : ∃ v, (∀ setting, t.expr.constant setting = .ok v) ∧ t.Values v (Value.ofLiteral t.text) := by
  cases hn : natural? t.unsigned with
  | none =>
    exact t.values_of_double (int64?_eq_none t.signed_unsigned hn) (int64?_eq_none t.signed_chars hn)
  | some n =>
    by_cases hle : n ≤ 9223372036854775807
    · exact t.values_of_integer hn hle
    by_cases hleast : t.negative = true ∧ n = 9223372036854775808
    · exact t.values_of_least hleast.1 (hleast.2 ▸ hn)
    refine t.values_of_double (t.int64?_unsigned_eq_none hn (by omega)) ?_
    rw [text, int64?_natural t.signed_chars hn, if_neg (not_or.mpr ⟨hle, hleast⟩)]

theorem Values.ne_null {t : Amount} {v w : Value} (h : t.Values v w) : v ≠ .null := by
  cases h <;> exact nofun

/-- The number as an operand. -/
def operand (v : Value) (hv : ∀ setting, t.expr.constant setting = .ok v) (hne : v ≠ .null) : Operand where
  chars := t.chars
  tokens := t.tokens
  expr := t.expr
  above := if t.negative then 1 else 0
  value := v
  begins := t.begins
  endsSign := t.endsSign
  lexed := t.lexed
  termed := t.termed
  avoids := t.avoids
  shallow := by split <;> decide
  constant_eq := hv
  ne_null := hne

/-- A field set equal to a number equals the value that the number has by itself, or in two cases another, if the
field's path is not too deep to be read. -/
theorem ofText_amount (q : Equation) (bindings : List (String × Value)) :
    ∃ v, Query.ofText ⟨none, bindings, Rule.all⟩ (q.text t.chars) =
        (if q.accessor.levels ≤ Grammar.maxLevels then .ok (.unary q.field.path (.comparison .equalTo) v)
        else .error .unreadable) ∧
      t.Values v (Value.ofLiteral t.text) := by
  obtain ⟨v, hv, hvalues⟩ := t.exists_values
  exact ⟨v, q.ofText_eq (t.operand v hv hvalues.ne_null) bindings, hvalues⟩

end Amount

example : Query.ofText .empty "F = -12.5e3" = .ok (.unary "F" (.comparison .equalTo) (Value.ofLiteral "-12.5e3")) := by
  rfl

/-- By itself the least of the integers is an integer, and what is too large for a double is a text. -/
theorem least_and_infinite :
    Query.ofText .empty "F = -9223372036854775808" =
        .ok (.unary "F" (.comparison .equalTo) (.float (-9223372036854775808.0))) ∧
      Value.ofLiteral "-9223372036854775808" = .integer Int64.minValue ∧
      Query.ofText .empty "F = 1e400" = .ok (.unary "F" (.comparison .equalTo) (.float (1.0 / 0.0))) ∧
      Value.ofLiteral "1e400" = .text "1e400" :=
  ⟨by rfl, by rfl, by rfl, by rfl⟩

end DocQuery.Predicate
