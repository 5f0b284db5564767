/-
  DocQuery.Proofs.Predicate.Scanning — a predicate's text is read as its tokens.

  By induction on the predicate, in front of any text that is read already (`Phrase.lexed`). What
  stands behind a part decides where its last token ends, so every lemma here says how the
  normalized text goes on.
-/

import DocQuery.Proofs.Predicate.Lexing

namespace DocQuery.Predicate

open Lexer (isGapChar)
open Name (isPart_of_isStart)

/-! ## Fields and constants -/

theorem endsWord_members (gs : List Segment) {s : List Char} (hs : EndsWord (normalize s)) :
    EndsWord (normalize (gs.flatMap (fun g => '.' :: g.chars) ++ s)) := by
  cases gs with
  | nil => exact hs
  | cons g gs => rw [normalize_members]; exact .point _

theorem Lexes.members (gs : List Segment) {s : List Char} {tokens : List Token} (hs : EndsWord (normalize s))
    (h : Lexed (normalize s) tokens) :
    Lexes true (normalize (gs.flatMap (fun g => '.' :: g.chars) ++ s))
      (gs.flatMap (fun g => [.symbol ".", .word g.name]) ++ tokens) := by
  induction gs with
  | nil => exact h true
  | cons g gs ih =>
    obtain ⟨c, r, hcr, hc⟩ := g.identifier.wordlike.opens
    obtain ⟨hpiece, hlt⟩ := g.identifier.wordlike.piece? (endsWord_members gs hs) false
    rw [normalize_members]
    refine .token (t := .symbol ".") ?_ (Nat.lt_succ_self _) (.token hpiece hlt ih)
    simp only [Segment.name, hcr]
    exact piece?_point hc _

theorem Accessor.lexed (a : Accessor) {s : List Char} {tokens : List Token} (hs : EndsWord (normalize s))
    (h : Lexed (normalize s) tokens) : Lexed (normalize (a.chars ++ s)) (a.tokens ++ tokens) := by
  intro afterWord
  obtain ⟨hpiece, hlt⟩ := a.first.identifier.wordlike.piece? (endsWord_members a.others hs) afterWord
  rw [Accessor.normalize_chars]
  exact .token hpiece hlt (.members a.others hs h)

theorem Accessor.endsOperator (a : Accessor) (s : List Char) :
    EndsOperator (normalize (a.chars ++ s)) := by
  obtain ⟨c, r, hcr, hc⟩ := a.first.identifier.wordlike.opens
  rw [Accessor.normalize_chars, show a.first.name.toList = c :: r from hcr]
  exact .of_isPart (isPart_of_isStart hc) _

theorem Constant.lexed (c : Constant) {s : List Char} {more : List Token} (hs : EndsOperand (normalize s))
    (h : Lexed (normalize s) more) : Lexed (normalize (c.chars ++ s)) (c.tokens ++ more) := by
  cases c with
  | null w =>
    rw [chars, normalize_word (wordlike_null w)]
    exact .word (wordlike_null w) hs.endsWord h
  | boolean b w =>
    rw [chars, normalize_word (wordlike_boolean w)]
    exact .word (wordlike_boolean w) hs.endsWord h
  | integer n hn =>
    have hnumber := Lexed.number n.toInt.natAbs hs h
    by_cases hneg : n < 0
    · have hminus := endsOperator_digits n.toInt.natAbs (normalize s)
      simp only [chars, tokens, if_pos hneg, digits, List.cons_append]
      rw [normalize_cons (by decide), normalize_digits]
      exact .minus hminus hnumber
    · simp only [chars, tokens, if_neg hneg, digits]
      rw [normalize_digits]
      exact hnumber
  | text t quotes =>
    rw [chars, normalize_quoted]
    exact .text t hs h

/-- A constant without a minus sign can stand right after an operator. -/
theorem Constant.endsOperator (c : Constant) (hc : c.isNegative = false) (s : List Char) :
    EndsOperator (normalize (c.chars ++ s)) := by
  have hword : ∀ {w : String}, Wordlike w → EndsOperator (normalize (w.toList ++ s)) := by
    intro w hw
    obtain ⟨d, r, hdr, hd⟩ := hw.opens
    rw [normalize_word hw, hdr]
    exact .of_isPart (isPart_of_isStart hd) _
  cases c with
  | null w => exact hword (wordlike_null w)
  | boolean b w => exact hword (wordlike_boolean w)
  | integer n hn =>
    simp only [isNegative, decide_eq_false_iff_not] at hc
    simp only [chars, if_neg hc, digits]
    rw [normalize_digits]
    exact endsOperator_digits _ _
  | text t quotes =>
    rw [chars, normalize_quoted]
    rintro d ⟨rfl⟩
    rfl

/-- All others open with a minus sign. -/
theorem Constant.normalize_negative (c : Constant) (hc : c.isNegative = true) (s : List Char) :
    ∃ r, normalize (c.chars ++ s) = '-' :: r := by
  cases c with
  | integer n hn =>
    have hneg : n < 0 := of_decide_eq_true hc
    simp only [chars, if_pos hneg, List.cons_append]
    exact ⟨_, normalize_cons (by decide) _⟩
  | null w => cases hc
  | boolean b w => cases hc
  | text t quotes => cases hc

/-! ## Predicates -/

variable (parameter : Option Identifier)

theorem Lexed.between (c : Comparison) (style : Style) (before after : Gap) {s : List Char} {more : List Token}
    (hs : after.chars = [] → EndsSign c style (normalize s)) (h : Lexed (normalize s) more) :
    Lexed (normalize (before.chars ++ (Predicate.sign c style).toList ++ after.chars ++ s)) (signToken c style :: more) ∧
      EndsOperand (normalize (before.chars ++ (Predicate.sign c style).toList ++ after.chars ++ s)) := by
  have hafter : EndsSign c style (normalize (after.chars ++ s)) := by
    rw [normalize_gap]
    exact .gap after hs
  have hgap : Lexed (normalize (after.chars ++ s)) more := by
    rw [normalize_gap]
    exact .gap after.blank h
  have hequal : (after.chars ++ s).head? ≠ some '=' := head?_ne_equal hafter.not_equal
  rw [List.append_assoc, List.append_assoc, normalize_gap, normalize_sign c style hequal]
  exact ⟨.gap before.blank (.sign c style hafter hgap), .gap before (endsOperand_sign c style _)⟩

theorem Comparing.lexed (c : Comparing) {s : List Char} {more : List Token} (hs : EndsOperand (normalize s))
    (h : Lexed (normalize s) more) :
    Lexed (normalize ((Phrase.comparison c).chars parameter ++ s)) ((Phrase.comparison c).tokens parameter ++ more) := by
  by_cases hf : c.fieldFirst = true
  · have hconstant := c.constant.lexed hs h
    have hwritten : c.written = c.comparison := if_pos hf
    have hapart : c.after.chars = [] → EndsSign c.written c.style (normalize (c.constant.chars ++ s)) := by
      intro hnil
      by_cases hneg : c.constant.isNegative = true
      · obtain ⟨r, hr⟩ := c.constant.normalize_negative hneg s
        rw [hr, hwritten]
        refine endsSign_minus ?_ r
        by_contra hgoes
        exact c.apart hf (by simpa using hgoes) hneg hnil
      · exact (c.constant.endsOperator (by simpa using hneg) s).endsSign _ _
    obtain ⟨hsign, hends⟩ := Lexed.between c.written c.style c.before c.after hapart hconstant
    have hfield := (c.field.under parameter).lexed hends.endsWord hsign
    simpa only [Phrase.chars, Phrase.tokens, if_pos hf, List.append_assoc, List.cons_append] using hfield
  · have hfield := (c.field.under parameter).lexed hs.endsWord h
    obtain ⟨hsign, hends⟩ := Lexed.between c.written c.style c.before c.after
      (fun _ => ((c.field.under parameter).endsOperator s).endsSign _ _) hfield
    have hconstant := c.constant.lexed hends hsign
    simpa only [Phrase.chars, Phrase.tokens, if_neg hf, List.append_assoc, List.cons_append] using hconstant

/-- A keyword with blanks behind it. -/
theorem Lexed.keyword {w : String} (hw : Wordlike w) (after : Space) {s : List Char} {more : List Token}
    (h : Lexed (normalize s) more) : Lexed (normalize (w.toList ++ after.chars ++ s)) (.word w :: more) := by
  rw [List.append_assoc, normalize_word hw, normalize_gap]
  exact .word hw (after.endsOperand _).endsWord (.gap after.blank h)

theorem Phrase.lexed_nullTest (field : Accessor) (before : Space) (is : Cased "IS") (after : Space)
    (negation : Option (Cased "NOT" × Space)) (null : Cased "NULL") {s : List Char} {more : List Token}
    (hs : EndsOperand (normalize s)) (h : Lexed (normalize s) more) :
    Lexed (normalize ((nullTest field before is after negation null).chars parameter ++ s))
      ((nullTest field before is after negation null).tokens parameter ++ more) := by
  have hnull : Lexed (normalize (null.word.toList ++ s)) (.word null.word :: more) := by
    have hw := null.wordlike (by decide) (by decide)
    rw [normalize_word hw]
    exact .word hw hs.endsWord h
  have hnegation : Lexed (normalize ((negation.elim [] fun n => n.1.word.toList ++ n.2.chars) ++ (null.word.toList ++ s)))
      ((negation.elim [] fun n => [.word n.1.word]) ++ .word null.word :: more) := by
    cases negation with
    | none => exact hnull
    | some n => exact .keyword (n.1.wordlike (by decide) (by decide)) n.2 hnull
  have his := Lexed.keyword (is.wordlike (by decide) (by decide)) after hnegation
  have hbefore := Lexed.gap before.blank his
  rw [← normalize_gap] at hbefore
  have hends : EndsWord (normalize (before.chars ++ (is.word.toList ++ after.chars ++
      ((negation.elim [] fun n => n.1.word.toList ++ n.2.chars) ++ (null.word.toList ++ s))))) := by
    rw [normalize_gap]
    exact (before.endsOperand _).endsWord
  have hfield := (field.under parameter).lexed hends hbefore
  simpa only [chars, tokens, List.append_assoc, List.cons_append, List.nil_append] using hfield

theorem Joint.lexed {c : Connective} (joint : Joint c) {s : List Char} {more : List Token} (hs : EndsWord (normalize s))
    (h : Lexed (normalize s) more) : Lexed (normalize (joint.chars ++ s)) (joint.token :: more) := by
  have hblank : ∀ d ∈ [' '], isGapChar d = true := List.forall_mem_singleton.mpr rfl
  cases joint with
  | word w =>
    have hw : Wordlike w.word := by
      cases c with
      | and => exact w.wordlike (by decide) (by decide)
      | or => exact w.wordlike (by decide) (by decide)
    rw [chars, normalize_word hw]
    exact .word hw hs h
  | sign =>
    have hw : Wordlike c.keyword := by
      cases c with
      | and => exact ⟨⟨'A', ['N', 'D'], rfl, rfl⟩, List.all_eq_true.mp (by decide)⟩
      | or => exact ⟨⟨'O', ['R'], rfl, rfl⟩, List.all_eq_true.mp (by decide)⟩
    have hends : EndsWord (' ' :: normalize s) := by
      rintro d ⟨rfl⟩
      decide
    have hword := Lexed.gap hblank (.word hw hends (.gap hblank h))
    cases c with
    | and => exact hword
    | or => exact hword

/-- By induction on the predicate, in front of any text that is read already and does not go on
with the predicate's last token. -/
theorem Phrase.lexed (p : Phrase) {s : List Char} {more : List Token} (hs : EndsOperand (normalize s))
    (h : Lexed (normalize s) more) : Lexed (normalize (p.chars parameter ++ s)) (p.tokens parameter ++ more) := by
  have hclose : ∀ {s : List Char} {more : List Token}, Lexed (normalize s) more →
      Lexed (normalize (')' :: s)) (.symbol ")" :: more) ∧ EndsOperand (normalize (')' :: s)) := by
    intro s more h
    rw [normalize_cons (by decide)]
    exact ⟨.closing h, endsOperand_close _⟩
  induction p generalizing s more with
  | comparison c => exact c.lexed parameter hs h
  | nullTest field before is after negation null =>
    exact lexed_nullTest parameter field before is after negation null hs h
  | @connective c joint left before after right ihl ihr =>
    obtain ⟨hlast, hlastEnds⟩ := hclose h
    have hright := ihr hlastEnds hlast
    have hopen : Lexed (normalize (after.chars ++ '(' :: (right.chars parameter ++ ')' :: s)))
        (.symbol "(" :: (right.tokens parameter ++ .symbol ")" :: more)) := by
      rw [normalize_gap, normalize_cons (by decide)]
      exact .gap after.blank (.opening hright)
    have hends : EndsWord (normalize (after.chars ++ '(' :: (right.chars parameter ++ ')' :: s))) := by
      rw [normalize_gap, normalize_cons (by decide)]
      refine .gap after ?_
      rintro d ⟨rfl⟩
      decide
    have hjoint := joint.lexed hends hopen
    have hbefore : Lexed (normalize (before.chars ++ (joint.chars ++ (after.chars ++
        '(' :: (right.chars parameter ++ ')' :: s)))))
        (joint.token :: .symbol "(" :: (right.tokens parameter ++ .symbol ")" :: more)) := by
      rw [normalize_gap]
      exact .gap before.blank hjoint
    obtain ⟨hmiddle, hmiddleEnds⟩ := hclose hbefore
    have hleft := ihl hmiddleEnds hmiddle
    have hall := Lexed.opening hleft
    rw [← normalize_cons (by decide)] at hall
    simpa only [chars, tokens, List.append_assoc, List.cons_append, List.nil_append] using hall
  | parens inner ih =>
    obtain ⟨hlast, hlastEnds⟩ := hclose h
    have hall := Lexed.opening (ih hlastEnds hlast)
    rw [← normalize_cons (by decide)] at hall
    simpa only [chars, tokens, List.append_assoc, List.cons_append, List.nil_append] using hall
  | spaced before inner after ih =>
    have hafter : Lexed (normalize (after.chars ++ s)) more := by
      rw [normalize_gap]
      exact .gap after.blank h
    have hends : EndsOperand (normalize (after.chars ++ s)) := by
      rw [normalize_gap]
      exact .gap after hs
    have hall := Lexed.gap before.blank (ih hends hafter)
    rw [← normalize_gap] at hall
    simpa only [chars, tokens, List.append_assoc] using hall

/-- A predicate's text is read as its tokens. -/
theorem Phrase.lexemes (p : Phrase) :
    ∃ ts, Lexer.lexemes? (normalize (p.chars parameter)) = some ts ∧ ts.map (·.token) = p.tokens parameter := by
  have h := p.lexed (s := []) parameter endsOperand_nil lexed_nil
  rw [List.append_nil, List.append_nil] at h
  exact h.lexemes

end DocQuery.Predicate
