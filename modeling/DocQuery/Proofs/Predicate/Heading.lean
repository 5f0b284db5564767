/-
  DocQuery.Proofs.Predicate.Heading — where the head of a lambda ends and its body begins.

  A head is found and taken off (`Head.head?_eq`), and a predicate without one is not taken for one
  (`Phrase.head?_eq_none`): after its first name, if it opens with one, comes no arrow. The blanks
  before the body are dropped with the head, which leaves the body's tokens as they are
  (`Phrase.front`).
-/

import DocQuery.Proofs.Predicate.Normalizing

namespace DocQuery.Predicate

open Lambda (skipBlanks skipOptional head?)
open Name (isPart_of_isStart isPart_of_isDigit not_blank_of_isPart)

/-! ## Blanks and optional parentheses -/

theorem skipBlanks_gap (g : Gap) (s : List Char) : skipBlanks (g.chars ++ s) = skipBlanks s :=
  List.dropWhile_append_of_pos fun c hc => isBlank_of_isGapChar (g.blank c hc)

theorem skipBlanks_cons {c : Char} (h : Text.isBlank c = false) (s : List Char) : skipBlanks (c :: s) = c :: s :=
  List.dropWhile_cons_of_neg (by simp [h])

theorem skipOptional_gap (c : Char) (g : Gap) (s : List Char) : skipOptional c (g.chars ++ s) = skipOptional c s := by
  simp only [skipOptional, skipBlanks_gap]

theorem skipOptional_self {c : Char} (h : Text.isBlank c = false) (s : List Char) :
    skipOptional c (c :: s) = skipBlanks s := by
  simp [skipOptional, skipBlanks_cons h]

theorem skipOptional_other {c d : Char} (h : Text.isBlank d = false) (hd : d ≠ c) (s : List Char) :
    skipOptional c (d :: s) = d :: s := by
  simp [skipOptional, skipBlanks_cons h, hd]

/-- The name and the arrow of a head, from after its opening parenthesis. -/
def arrow? : List Char → Option (String × List Char)
  | c :: r =>
    if !Name.isStart c then none
    else match skipOptional ')' (r.dropWhile Name.isPart) with
      | '=' :: '>' :: body => some (String.ofList (c :: r.takeWhile Name.isPart), skipBlanks body)
      | _ => none
  | [] => none

theorem head?_eq_arrow? (s : List Char) : head? s = arrow? (skipOptional '(' s) := by
  unfold head? arrow?
  rfl

/-- No more of a name. -/
def EndsName (s : List Char) : Prop := ∀ c, s.head? = some c → Name.isPart c = false

theorem arrow?_word {w : String} (hw : Wordlike w) {s : List Char} (hs : EndsName s) :
    arrow? (w.toList ++ s) = match skipOptional ')' s with
      | '=' :: '>' :: body => some (w, skipBlanks body)
      | _ => none := by
  obtain ⟨c, r, hcr, hc⟩ := hw.opens
  have hpart : ∀ d ∈ r, Name.isPart d = true := by
    intro d hd
    exact hw.part d (by rw [hcr]; exact List.mem_cons_of_mem c hd)
  have hname : String.ofList (c :: (r ++ s).takeWhile Name.isPart) = w := by
    rw [Text.takeWhile_run hpart hs, ← hcr, String.ofList_toList]
  have hrest : (r ++ s).dropWhile Name.isPart = s := Text.dropWhile_run hpart hs
  rw [hcr, List.cons_append]
  simp only [arrow?, hc, Bool.not_true, Bool.false_eq_true, if_false, hname, hrest]

/-! ## Heads -/

theorem EndsName.gap (g : Gap) {s : List Char} (h : EndsName s) : EndsName (g.chars ++ s) :=
  g.head (fun _ hc => not_part_of_isGapChar hc) fun _ => h

theorem endsName_cons {c : Char} (h : Name.isPart c = false) (s : List Char) : EndsName (c :: s) := by
  rintro d ⟨rfl⟩
  exact h

/-- The head is taken off with the blanks behind it. -/
theorem Head.head?_eq (h : Head) (body : List Char) :
    head? (h.chars ++ body) = some (h.parameter.name, skipBlanks body) := by
  have hw := h.parameter.wordlike
  obtain ⟨c, r, hcr, hc⟩ := hw.opens
  have hblank : Text.isBlank c = false := not_blank_of_isPart (isPart_of_isStart hc)
  have harrow : skipOptional ')' (h.after.chars ++ '=' :: '>' :: body) = '=' :: '>' :: body := by
    rw [skipOptional_gap]
    exact skipOptional_other (by decide) (by decide) _
  rw [head?_eq_arrow?, chars]
  cases hparens : h.parens with
  | none =>
    have hopening : c ≠ '(' := by rintro rfl; revert hc; decide
    have hskip : skipOptional '(' (h.before.chars ++ h.parameter.name.toList ++ h.after.chars ++ ['=', '>'] ++ body) =
        h.parameter.name.toList ++ (h.after.chars ++ '=' :: '>' :: body) := by
      simp only [List.append_assoc, List.cons_append, List.nil_append, skipOptional_gap]
      rw [hcr, List.cons_append]
      exact skipOptional_other hblank hopening _
    simp only [hskip]
    rw [arrow?_word hw (.gap h.after (endsName_cons (by decide) _)), harrow]
    rfl
  | some inside =>
    obtain ⟨opening, closing⟩ := inside
    have hskip : skipOptional '(' (h.before.chars ++ ('(' :: opening.chars ++ h.parameter.name.toList ++ closing.chars ++
          [')']) ++ h.after.chars ++ ['=', '>'] ++ body) =
        h.parameter.name.toList ++ (closing.chars ++ ')' :: (h.after.chars ++ '=' :: '>' :: body)) := by
      simp only [List.append_assoc, List.cons_append, List.nil_append, skipOptional_gap]
      rw [skipOptional_self (by decide), skipBlanks_gap, hcr, List.cons_append]
      exact skipBlanks_cons hblank _
    have hclosing : skipOptional ')' (closing.chars ++ ')' :: (h.after.chars ++ '=' :: '>' :: body)) =
        '=' :: '>' :: body := by
      rw [skipOptional_gap, skipOptional_self (by decide), skipBlanks_gap]
      exact skipBlanks_cons (by decide) _
    simp only [hskip]
    rw [arrow?_word hw (.gap closing (endsName_cons (by decide) _)), hclosing]
    rfl

/-! ## Predicates without a head -/

/-- After blanks and a closing parenthesis comes no arrow, and before them nothing of a name. -/
structure NoArrow (s : List Char) : Prop where
  ends : EndsName s
  none : ∀ body, skipOptional ')' s ≠ '=' :: '>' :: body

theorem arrow?_eq_none {w : String} (hw : Wordlike w) {s : List Char} (hs : NoArrow s) : arrow? (w.toList ++ s) = none := by
  rw [arrow?_word hw hs.ends]
  split
  · rename_i body he
    exact absurd he (hs.none body)
  · rfl

theorem arrow?_cons_eq_none {c : Char} (hc : Name.isStart c = false) (s : List Char) : arrow? (c :: s) = none := by
  simp [arrow?, hc]

/-- Behind a character that is no blank and no parenthesis there would have to be the arrow itself. -/
theorem noArrow_cons {c : Char} (hpart : Name.isPart c = false) (hblank : Text.isBlank c = false) (hc : c ≠ ')')
    {s : List Char} (hs : c = '=' → s.head? ≠ some '>') : NoArrow (c :: s) := by
  refine ⟨endsName_cons hpart s, fun body he => ?_⟩
  rw [skipOptional_other hblank hc] at he
  cases he
  exact hs rfl rfl

theorem NoArrow.gap (g : Gap) {s : List Char} (h : NoArrow s) : NoArrow (g.chars ++ s) := by
  refine ⟨.gap g h.ends, fun body => ?_⟩
  rw [skipOptional_gap]
  exact h.none body

/-- A word that stands apart is no arrow either. -/
theorem noArrow_word (g : Space) {w : String} (hw : Wordlike w) (s : List Char) : NoArrow (g.chars ++ (w.toList ++ s)) := by
  obtain ⟨c, r, hcr, hc⟩ := hw.opens
  have hpart := isPart_of_isStart hc
  have hclosing : c ≠ ')' := ne_of_isPart hpart (by decide)
  have hequal : c ≠ '=' := ne_of_isPart hpart (by decide)
  refine ⟨?_, fun body he => ?_⟩
  · exact g.head (fun _ hd => not_part_of_isGapChar hd) fun hnil => absurd hnil g.ne_nil
  · rw [skipOptional_gap, hcr, List.cons_append, skipOptional_other (not_blank_of_isPart hpart) hclosing] at he
    exact hequal (List.cons.inj he).1

theorem noArrow_sign (c : Comparison) (style : Style) {s : List Char} (hs : s.head? ≠ some '>') :
    NoArrow ((sign c style).toList ++ s) := by
  have hequal : NoArrow ('=' :: s) := noArrow_cons (by decide) (by decide) (by decide) fun _ => hs
  have hother : ∀ {d : Char}, d ∈ ['<', '>', '!'] → ∀ s, NoArrow (d :: s) := by
    intro d hd s
    simp only [List.mem_cons, List.not_mem_nil, or_false] at hd
    rcases hd with rfl | rfl | rfl <;> exact noArrow_cons (by decide) (by decide) (by decide) fun he => by cases he
  cases c with
  | equalTo =>
    cases style with
    | sql => exact hequal
    | lambda => exact noArrow_cons (by decide) (by decide) (by decide) fun _ he => by cases he
  | notEqualTo => cases style <;> exact hother (by decide) _
  | greaterThan => cases style <;> exact hother (by decide) _
  | greaterOrEqualTo => cases style <;> exact hother (by decide) _
  | lessThan => cases style <;> exact hother (by decide) _
  | lessOrEqualTo => cases style <;> exact hother (by decide) _

theorem Accessor.arrow?_eq_none (a : Accessor) {s : List Char} (hs : NoArrow s) : arrow? (a.chars ++ s) = none := by
  have hothers : NoArrow (a.others.flatMap (fun g => '.' :: g.chars) ++ s) := by
    cases a.others with
    | nil => exact hs
    | cons g gs => exact noArrow_cons (by decide) (by decide) (by decide) fun he => by cases he
  have hindexers : NoArrow ((a.first.indexers.flatMap fun n => '[' :: Nat.toDigits 10 n ++ [']']) ++
      (a.others.flatMap (fun g => '.' :: g.chars) ++ s)) := by
    cases a.first.indexers with
    | nil => exact hothers
    | cons n ns => exact noArrow_cons (by decide) (by decide) (by decide) fun he => by cases he
  rw [chars, Segment.chars, List.append_assoc, List.append_assoc]
  exact Predicate.arrow?_eq_none a.first.identifier.wordlike hindexers

theorem Constant.arrow?_eq_none (c : Constant) {s : List Char} (hs : NoArrow s) : arrow? (c.chars ++ s) = none := by
  cases c with
  | null w => exact Predicate.arrow?_eq_none (wordlike_null w) hs
  | boolean b w => exact Predicate.arrow?_eq_none (wordlike_boolean w) hs
  | integer n hn =>
    by_cases hneg : n < 0
    · simp only [chars, if_pos hneg]
      exact arrow?_cons_eq_none (by decide) _
    · simp only [chars, if_neg hneg, digits]
      obtain ⟨d, r, hdr, hd, -⟩ := Decimal.toDigits_cons n.toInt.natAbs
      rw [hdr]
      refine arrow?_cons_eq_none ?_ _
      by_contra hstart
      rw [not_digit_of_isStart (by simpa using hstart)] at hd
      cases hd
  | text t quotes => cases quotes <;> exact arrow?_cons_eq_none (by decide) _

/-- How fields and constants begin. -/
def Begins (s : List Char) : Prop := ∃ c r, s = c :: r ∧ Text.isBlank c = false ∧ c ≠ '(' ∧ c ≠ '>'

theorem Begins.append {s : List Char} (h : Begins s) (t : List Char) : Begins (s ++ t) := by
  obtain ⟨c, r, rfl, hc⟩ := h
  exact ⟨c, r ++ t, rfl, hc⟩

theorem begins_of_isPart {c : Char} (h : Name.isPart c = true) (r : List Char) : Begins (c :: r) :=
  ⟨c, r, rfl, not_blank_of_isPart h, ne_of_isPart h (by decide), ne_of_isPart h (by decide)⟩

theorem Wordlike.begins {w : String} (hw : Wordlike w) : Begins w.toList := by
  obtain ⟨c, r, hcr, hc⟩ := hw.opens
  rw [hcr]
  exact begins_of_isPart (isPart_of_isStart hc) r

theorem Accessor.begins (a : Accessor) : Begins a.chars :=
  (a.first.identifier.wordlike.begins.append _).append _

theorem Constant.begins (c : Constant) : Begins c.chars := by
  cases c with
  | null w => exact (wordlike_null w).begins
  | boolean b w => exact (wordlike_boolean w).begins
  | integer n hn =>
    by_cases hneg : n < 0
    · simp only [chars, if_pos hneg]
      exact ⟨'-', _, rfl, by decide, by decide, by decide⟩
    · simp only [chars, if_neg hneg, digits]
      obtain ⟨d, r, hdr, hd, -⟩ := Decimal.toDigits_cons n.toInt.natAbs
      rw [hdr]
      exact begins_of_isPart (isPart_of_isDigit hd) r
  | text t quotes => cases quotes <;> exact ⟨_, _, rfl, by decide, by decide, by decide⟩

theorem Begins.skipBlanks_eq {s : List Char} (h : Begins s) : skipBlanks s = s := by
  obtain ⟨c, r, rfl, hc, -⟩ := h
  exact skipBlanks_cons hc r

theorem Begins.skipOptional_eq {s : List Char} (h : Begins s) : skipOptional '(' s = s := by
  obtain ⟨c, r, rfl, hc, hopening, -⟩ := h
  exact skipOptional_other hc hopening r

theorem Begins.gap (g : Gap) {s : List Char} (h : Begins s) : (g.chars ++ s).head? ≠ some '>' := by
  obtain ⟨c, r, rfl, -, -, hc⟩ := h
  have hhead : ∀ d, (g.chars ++ c :: r).head? = some d → d ≠ '>' := by
    refine g.head ?_ ?_
    · rintro d hd rfl
      revert hd
      decide
    · rintro - d ⟨rfl⟩
      exact hc
  exact fun he => hhead '>' he rfl

namespace Phrase

variable (parameter : Option Identifier)

/-- The predicate without the blanks before it. -/
def front : Phrase → Phrase
  | spaced _ inner after => spaced ⟨[], by simp⟩ inner.front after
  | p => p

theorem front_levels (p : Phrase) : p.front.levels parameter = p.levels parameter := by
  induction p with
  | spaced before inner after ih => exact ih
  | _ => rfl

theorem front_expr (p : Phrase) : p.front.expr parameter = p.expr parameter := by
  induction p with
  | spaced before inner after ih => exact ih
  | _ => rfl

/-- A comparison or a null test opens with a field or a constant. -/
theorem begins_comparison (c : Comparing) : Begins ((comparison c).chars parameter) := by
  unfold chars
  by_cases hf : c.fieldFirst = true
  · simp only [if_pos hf]
    exact ((c.field.under parameter).begins.append _).append _
  · simp only [if_neg hf]
    exact (c.constant.begins.append _).append _

theorem begins_nullTest (field : Accessor) (before : Space) (is : Cased "IS") (after : Space)
    (negation : Option (Cased "NOT" × Space)) (null : Cased "NULL") :
    Begins ((nullTest field before is after negation null).chars parameter) :=
  (((((field.under parameter).begins.append _).append _).append _).append _).append _

theorem skipBlanks_chars (p : Phrase) (s : List Char) :
    skipBlanks (p.chars parameter ++ s) = p.front.chars parameter ++ s := by
  induction p generalizing s with
  | comparison c => exact ((begins_comparison parameter c).append s).skipBlanks_eq
  | nullTest field before is after negation null =>
    exact ((begins_nullTest parameter field before is after negation null).append s).skipBlanks_eq
  | connective joint left before after right => exact skipBlanks_cons (by decide) _
  | parens inner => exact skipBlanks_cons (by decide) _
  | spaced before inner after ih =>
    simp only [chars, front, List.append_assoc, skipBlanks_gap, ih]
    rfl

/-- A predicate is not all blanks. -/
theorem front_ne_nil (p : Phrase) : ∃ c r, p.front.chars parameter = c :: r ∧ Text.isBlank c = false := by
  induction p with
  | comparison c =>
    obtain ⟨d, r, hdr, hd, -⟩ := begins_comparison parameter c
    exact ⟨d, r, hdr, hd⟩
  | nullTest field before is after negation null =>
    obtain ⟨d, r, hdr, hd, -⟩ := begins_nullTest parameter field before is after negation null
    exact ⟨d, r, hdr, hd⟩
  | connective joint left before after right => exact ⟨'(', _, rfl, by decide⟩
  | parens inner => exact ⟨'(', _, rfl, by decide⟩
  | spaced before inner after ih =>
    obtain ⟨c, r, hcr, hc⟩ := ih
    exact ⟨c, r ++ after.chars, by simp only [front, chars, hcr, List.nil_append, List.cons_append], hc⟩

theorem not_allBlank (p : Phrase) : (p.chars parameter).all Text.isBlank = false := by
  obtain ⟨c, r, hcr, hc⟩ := p.front_ne_nil parameter
  have hskip := p.skipBlanks_chars parameter []
  simp only [List.append_nil, hcr] at hskip
  have hmem : c ∈ p.chars parameter := by
    refine (List.dropWhile_sublist Text.isBlank).subset ?_
    have hdrop : (p.chars parameter).dropWhile Text.isBlank = c :: r := hskip
    rw [hdrop]
    exact List.mem_cons_self
  exact List.all_eq_false.mpr ⟨c, hmem, by simp [hc]⟩

/-- Behind the first name of a predicate comes a point, a bracket, an operator or IS. -/
theorem front_arrow? (p : Phrase) (s : List Char) : arrow? (p.front.chars parameter ++ s) = none := by
  induction p generalizing s with
  | comparison c =>
    by_cases hf : c.fieldFirst = true
    · have hsign := noArrow_sign c.written c.style ((c.constant.begins.append s).gap c.after)
      have h := (c.field.under parameter).arrow?_eq_none (hsign.gap c.before)
      simpa only [front, chars, if_pos hf, List.append_assoc] using h
    · have hsign := noArrow_sign c.written c.style (((c.field.under parameter).begins.append s).gap c.after)
      have h := c.constant.arrow?_eq_none (hsign.gap c.before)
      simpa only [front, chars, if_neg hf, List.append_assoc] using h
  | nullTest field before is after negation null =>
    have hword := noArrow_word before (is.wordlike (by decide) (by decide))
      (after.chars ++ ((negation.elim [] fun n => n.1.word.toList ++ n.2.chars) ++ (null.word.toList ++ s)))
    have h := (field.under parameter).arrow?_eq_none hword
    simpa only [front, chars, List.append_assoc] using h
  | connective joint left before after right => exact arrow?_cons_eq_none (by decide) _
  | parens inner => exact arrow?_cons_eq_none (by decide) _
  | spaced before inner after ih =>
    simp only [front, chars, List.append_assoc]
    exact ih _

/-- A predicate without a head is not taken for one with a head, not even where a parenthesis before
its first name is passed over. -/
theorem head?_eq_none (p : Phrase) (s : List Char) : head? (p.chars parameter ++ s) = none := by
  rw [head?_eq_arrow?]
  induction p generalizing s with
  | comparison c =>
    rw [((begins_comparison parameter c).append s).skipOptional_eq]
    exact front_arrow? parameter (comparison c) s
  | nullTest field before is after negation null =>
    rw [((begins_nullTest parameter field before is after negation null).append s).skipOptional_eq]
    exact front_arrow? parameter (nullTest field before is after negation null) s
  | connective joint left before after right =>
    simp only [chars, List.append_assoc, List.cons_append]
    rw [skipOptional_self (by decide), skipBlanks_chars]
    exact left.front_arrow? parameter _
  | parens inner =>
    simp only [chars, List.append_assoc, List.cons_append]
    rw [skipOptional_self (by decide), skipBlanks_chars]
    exact inner.front_arrow? parameter _
  | spaced before inner after ih =>
    simp only [chars, List.append_assoc, skipOptional_gap]
    exact ih _

end Phrase

end DocQuery.Predicate
