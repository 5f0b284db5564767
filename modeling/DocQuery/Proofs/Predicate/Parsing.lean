/-
  DocQuery.Proofs.Predicate.Parsing — a predicate's tokens are read as its expression.

  What is read whole up to the end or a closing parenthesis `Reads`: an operand does, and two operands
  with an operator between them (`Termed.reads_infix`). In parentheses it is an operand again
  (`Reads.parens`). `Phrase.reads` puts these together by induction, with the number of levels that
  are needed, and `Phrase.readExpr` is the whole text.
-/

import DocQuery.Proofs.Predicate.Operands
import DocQuery.Proofs.Predicate.Scanning

namespace DocQuery.Predicate

open Grammar Tokens

variable {ts rest : Tokens} {tokens : List Token} {e : Expr}

/-! ## The end of an expression -/

/-- Nothing follows, or a closing parenthesis. -/
inductive Closes : Tokens → Prop
  | nil : Closes []
  | paren {spaced : Bool} {r : Tokens} : Closes (⟨.symbol ")", spaced⟩ :: r)

theorem Closes.stops (h : Closes rest) : Stops False rest := by
  cases h with
  | nil => exact .nil
  | paren => exact .symbol (by decide)

theorem Closes.ends (h : Closes rest) (strength : Strength) : Ends strength rest := by
  have hnone : Operation.next? rest = none := by
    cases h <;> rfl
  intro op s r hnext
  rw [hnone] at hnext
  cases hnext

/-! ## The beginning of an expression -/

/-- The tokens open with none of these words. -/
def Avoids (words : List String) (tokens : List Token) : Prop :=
  ∃ t more, tokens = t :: more ∧ ∀ w, t = .word w → Text.upper w ∉ words

theorem Avoids.keyword {words : List String} (h : Avoids words tokens) (hts : ts.map (·.token) = tokens) {w : String}
    {r : Tokens} (hk : keyword? (ts ++ rest) = some (w, r)) : w ∉ words := by
  obtain ⟨t, more, rfl, hw⟩ := h
  obtain ⟨⟨_, spaced⟩, r, rfl, rfl, -⟩ := List.map_eq_cons_iff.mp hts
  rename_i t
  cases t with
  | word v =>
    cases hk
    exact hw v rfl
  | quoted _ => cases hk
  | literal _ => cases hk
  | symbol _ => cases hk

theorem Avoids.oneOf {words : List String} (h : Avoids words tokens) (hts : ts.map (·.token) = tokens) :
    oneOf? words (ts ++ rest) = none := by
  unfold oneOf?
  cases hk : keyword? (ts ++ rest) with
  | none => rfl
  | some found => simp [h.keyword hts hk]

theorem Avoids.opensQuery (h : Avoids queryWords tokens) (hts : ts.map (·.token) = tokens) :
    opensQuery (ts ++ rest) = false := by
  have hnone : ∀ k ∈ queryWords, afterKeywords? [k] (ts ++ rest) = none := by
    intro k hk
    unfold afterKeywords?
    cases hw : keyword? (ts ++ rest) with
    | none => rfl
    | some found =>
      have hne : found.1 ≠ k := fun he => h.keyword hts hw (he ▸ hk)
      simp [hne]
  simp [Predicate.opensQuery, opensWith, hnone "SELECT" (by decide), hnone "WITH" (by decide)]

/-! ## Whole expressions -/

/-- The tokens are read as this expression, up to the end or a closing parenthesis, by every reader
with as many levels as are needed. -/
def Reads (need : Nat) (tokens : List Token) (e : Expr) : Prop :=
  ∀ levels ts rest, ts.map (·.token) = tokens → Closes rest →
    (readers levels).expr .weakest (ts ++ rest) = within need levels (e, rest)

theorem Termed.reads {above : Nat} (h : Termed above tokens e) : Reads (above + 1) tokens e :=
  fun levels _ _ hts hrest => h.expr hts hrest.stops (hrest.ends _) (hrest.ends _) levels

/-- What stands in parentheses is one level above them. -/
theorem Reads.parens {need : Nat} (h : Reads need tokens e) (hopens : Avoids queryWords tokens) :
    Termed need (.symbol "(" :: (tokens ++ [.symbol ")"])) (.nested e) := by
  intro levels ts rest hts hstops hends
  obtain ⟨⟨_, spaced⟩, more, rfl, rfl, hmore⟩ := List.map_eq_cons_iff.mp hts
  obtain ⟨inside, last, rfl, hinside, hlast⟩ := List.map_eq_append_iff.mp hmore
  obtain ⟨⟨_, spacedLast⟩, r, rfl, rfl, hr⟩ := List.map_eq_cons_iff.mp hlast
  obtain rfl := List.map_eq_nil_iff.mp hr
  refine term_symbol (by decide) rfl hstops spaced fun interval => ?_
  have hread := h levels inside (⟨.symbol ")", spacedLast⟩ :: rest) hinside .paren
  have hquery : opensQuery (inside ++ ⟨.symbol ")", spacedLast⟩ :: rest) = false := hopens.opensQuery hinside
  show parenthesized (readers levels) (inside ++ [⟨.symbol ")", spacedLast⟩] ++ rest) = _
  rw [List.append_assoc, List.singleton_append]
  have hlength : (inside ++ ⟨.symbol ")", spacedLast⟩ :: rest).length = (inside ++ rest).length + 1 := by
    simp only [List.length_append, List.length_cons]
    omega
  simp only [parenthesized, hquery, Bool.false_eq_true, if_false, commaList, hlength, separated, Inner.weakest, hread]
  unfold within
  split <;> rfl

/-- An operator with an operand on each side: the one on the right is one level above. -/
theorem Termed.reads_infix {a b : Nat} {left right : List Token} {l r : Expr} (hl : Termed a left l)
    (hr : Termed b right r) (hquantifier : Avoids quantifiers right) {t : Token} {op : Operation} {s : Strength}
    {symbol : String} {quantifiable : Bool} {node : Expr → Expr → Expr}
    (hnext : ∀ spaced ts, Operation.next? (⟨t, spaced⟩ :: ts) = some (op, s, ts))
    (hstops : ∀ spaced ts, Stops False (⟨t, spaced⟩ :: ts)) (hpos : 0 < s) (hpower : s ≤ .power)
    (happlied : ∀ inner e ts, applied inner op s e ts = rightSide inner s symbol quantifiable (node e) e ts) :
    Reads (max (a + 1) (b + 2)) (left ++ t :: right) (node l r) := by
  intro levels ts rest hts hrest
  obtain ⟨before, more, rfl, hbefore, hmore⟩ := List.map_eq_append_iff.mp hts
  obtain ⟨⟨_, spaced⟩, after, rfl, rfl, hafter⟩ := List.map_eq_cons_iff.mp hmore
  rename_i t
  have hends : Ends .power (⟨t, spaced⟩ :: (after ++ rest)) := by
    intro op s r h
    rw [hnext] at h
    cases h
    exact hpower
  cases levels with
  | zero => rw [within_of_lt (by omega)]; rfl
  | succ levels =>
    have hterm := hl levels before (⟨t, spaced⟩ :: (after ++ rest)) hbefore (hstops spaced _) hends
    have hside := hr.expr hafter hrest.stops (hrest.ends _) (hrest.ends s) levels
    have happly : applied (readers levels) op s l (after ++ rest) = within (b + 1) levels (node l r, rest) := by
      rw [happlied, rightSide, hquantifier.oneOf hafter]
      simp only [hside, map_within]
    rw [List.append_assoc, List.cons_append]
    show level (readers levels) .weakest _ = _
    rw [level_eq, hterm]
    by_cases ha : a ≤ levels
    · rw [within_of_le ha, Option.bind_some]
      have hweak : ¬ Strength.weakest ≥ s := Nat.not_le_of_gt hpos
      simp only [List.length_cons, operations, hnext, if_neg hweak, happly]
      by_cases hb : b + 1 ≤ levels
      · rw [within_of_le hb, within_of_le (by omega)]
        exact operations_ends (hrest.ends _) _ _ _
      · rw [within_of_lt (by omega), within_of_lt (by omega)]
        rfl
    · rw [within_of_lt (by omega), Option.bind_none, within_of_lt (by omega)]

/-- What follows IS in a null test. -/
theorem tested_null (inner : Inner) (negation : Option (Cased "NOT")) (null : Cased "NULL")
    (hts : ts.map (·.token) = (negation.elim [] fun n => [.word n.word]) ++ [.word null.word]) :
    tested inner e (ts ++ rest) = some (if negation.isSome then .isNotNull e else .isNull e, rest) := by
  have hnull : ∀ spaced, afterKeywords? ["NULL"] (⟨.word null.word, spaced⟩ :: rest) = some rest := by
    intro spaced
    simp [afterKeywords?, keyword?, null.upper_eq]
  cases negation with
  | none =>
    obtain ⟨⟨_, a⟩, r, rfl, rfl, hr⟩ := List.map_eq_cons_iff.mp hts
    obtain rfl := List.map_eq_nil_iff.mp hr
    have hskip : skip ["NOT"] (⟨.word null.word, a⟩ :: rest) = (false, ⟨.word null.word, a⟩ :: rest) := by
      simp [skip, afterKeywords?, keyword?, null.upper_eq]
    simp only [tested, List.singleton_append, hskip, hnull]
    rfl
  | some n =>
    obtain ⟨⟨_, a⟩, more, rfl, rfl, hmore⟩ := List.map_eq_cons_iff.mp hts
    obtain ⟨⟨_, b⟩, r, rfl, rfl, hr⟩ := List.map_eq_cons_iff.mp hmore
    obtain rfl := List.map_eq_nil_iff.mp hr
    have hskip : skip ["NOT"] (⟨.word n.word, a⟩ :: ⟨.word null.word, b⟩ :: rest) =
        (true, ⟨.word null.word, b⟩ :: rest) := by
      simp [skip, afterKeywords?, keyword?, n.upper_eq]
    simp only [tested, List.cons_append, List.nil_append, hskip, hnull]
    rfl

/-- A null test of an operand. -/
theorem Termed.reads_nullTest {above : Nat} (h : Termed above tokens e) (is : Cased "IS")
    (negation : Option (Cased "NOT")) (null : Cased "NULL") :
    Reads (above + 1) (tokens ++ .word is.word :: ((negation.elim [] fun n => [.word n.word]) ++ [.word null.word]))
      (if negation.isSome then .isNotNull e else .isNull e) := by
  intro levels ts rest hts hrest
  obtain ⟨before, behind, rfl, hbefore, hbehind⟩ := List.map_eq_append_iff.mp hts
  obtain ⟨⟨_, a⟩, more, rfl, rfl, hmore⟩ := List.map_eq_cons_iff.mp hbehind
  have hnext : ∀ ts, Operation.next? (⟨.word is.word, a⟩ :: ts) = some (.is, .test, ts) := by
    intro ts
    simp only [Operation.next?, Operation.ofKeyword?, keyword?, is.upper_eq]
  have hstops : Stops False (⟨.word is.word, a⟩ :: (more ++ rest)) := .word (by rw [is.upper_eq]; decide)
  have hends : Ends .power (⟨.word is.word, a⟩ :: (more ++ rest)) := by
    intro op s r h
    rw [hnext] at h
    cases h
    decide
  cases levels with
  | zero => rw [within_of_lt (by omega)]; rfl
  | succ levels =>
    have hterm := h levels before (⟨.word is.word, a⟩ :: (more ++ rest)) hbefore hstops hends
    rw [List.append_assoc, List.cons_append]
    show level (readers levels) .weakest _ = _
    rw [level_eq, hterm, within_succ]
    by_cases ha : above ≤ levels
    · have hweak : ¬ Strength.weakest ≥ Strength.test := by decide
      have happly : applied (readers levels) .is .test e (more ++ rest) =
          some (if negation.isSome then .isNotNull e else .isNull e, rest) := tested_null _ negation null hmore
      rw [within_of_le ha, within_of_le ha, Option.bind_some]
      simp only [List.length_cons, operations, hnext, if_neg hweak, happly]
      exact operations_ends (hrest.ends _) _ _ _
    · rw [within_of_lt (by omega), within_of_lt (by omega), Option.bind_none]

/-! ## Predicates -/

theorem next?_sign (c : Comparison) (style : Style) (spaced : Bool) (ts : Tokens) :
    Operation.next? (⟨signToken c style, spaced⟩ :: ts) = some (.comparison c, .comparison, ts) := by
  cases c <;> cases style <;> rfl

theorem stops_sign (c : Comparison) (style : Style) (spaced : Bool) (ts : Tokens) :
    Stops False (⟨signToken c style, spaced⟩ :: ts) := by
  cases c <;> cases style <;> exact .symbol (by decide)

/-- How strongly a connective binds. -/
def Joint.strength : Connective → Strength
  | .and => .and
  | .or => .or

theorem Joint.next? {c : Connective} (joint : Joint c) (spaced : Bool) (ts : Tokens) :
    Operation.next? (⟨joint.token, spaced⟩ :: ts) = some (.connective c, strength c, ts) := by
  cases joint with
  | word w =>
    cases c <;> simp only [token, Operation.next?, Operation.ofKeyword?, keyword?, w.upper_eq] <;> rfl
  | sign => cases c <;> rfl

theorem Joint.stops {c : Connective} (joint : Joint c) (spaced : Bool) (ts : Tokens) :
    Stops False (⟨joint.token, spaced⟩ :: ts) := by
  cases joint with
  | word w =>
    refine .word ?_
    rw [w.upper_eq]
    cases c <;> decide
  | sign =>
    refine .word ?_
    cases c <;> decide

theorem Accessor.avoids (a : Accessor) {words : List String} (h : ∀ i : Identifier, Text.upper i.name ∉ words) :
    Avoids words a.tokens := by
  refine ⟨.word a.first.name, _, rfl, ?_⟩
  rintro w ⟨rfl⟩
  exact h a.first.identifier

theorem Constant.avoids (c : Constant) {words : List String} (h : ∀ k ∈ literalWords, k ∉ words) :
    Avoids words c.tokens := by
  cases c with
  | null w =>
    refine ⟨_, _, rfl, ?_⟩
    rintro v ⟨rfl⟩
    rw [w.upper_eq]
    exact h _ (by decide)
  | boolean b w =>
    refine ⟨_, _, rfl, ?_⟩
    rintro v ⟨rfl⟩
    rw [w.upper_eq]
    cases b <;> exact h _ (by decide)
  | integer n hn =>
    by_cases hneg : n < 0
    · simp only [tokens, if_pos hneg]
      exact ⟨_, _, rfl, fun w hw => by cases hw⟩
    · simp only [tokens, if_neg hneg]
      exact ⟨_, _, rfl, fun w hw => by cases hw⟩
  | text t quotes => exact ⟨_, _, rfl, fun w hw => by cases hw⟩

theorem Avoids.append {words : List String} (h : Avoids words tokens) (more : List Token) : Avoids words (tokens ++ more) := by
  obtain ⟨t, r, rfl, hw⟩ := h
  exact ⟨t, r ++ more, rfl, hw⟩

theorem avoids_symbol (words : List String) (s : String) (more : List Token) : Avoids words (.symbol s :: more) :=
  ⟨_, _, rfl, fun w hw => by cases hw⟩

variable (parameter : Option Identifier)

theorem Phrase.avoids (p : Phrase) : Avoids queryWords (p.tokens parameter) := by
  have hname : ∀ i : Identifier, Text.upper i.name ∉ queryWords := fun i => i.free_cases.2.1
  induction p with
  | comparison c =>
    unfold tokens
    by_cases hf : c.fieldFirst = true
    · simp only [if_pos hf]
      exact ((c.field.under parameter).avoids hname).append _
    · simp only [if_neg hf]
      exact (c.constant.avoids (by decide)).append _
  | nullTest field before is after negation null =>
    exact (((field.under parameter).avoids hname).append _).append _
  | connective joint left before after right _ _ => exact avoids_symbol _ _ _
  | parens inner _ => exact avoids_symbol _ _ _
  | spaced before inner after ih => exact ih

theorem Comparing.reads (c : Comparing) :
    Reads ((Phrase.comparison c).levels parameter) ((Phrase.comparison c).tokens parameter)
      ((Phrase.comparison c).expr parameter) := by
  have hfield := (c.field.under parameter).termed
  have hconstant := c.constant.termed
  have hnext := next?_sign c.written c.style
  have hstops := stops_sign c.written c.style
  have happlied : ∀ inner e ts, applied inner (.comparison c.written) .comparison e ts =
      rightSide inner .comparison c.written.symbol true (.comparison c.written e ·) e ts := fun _ _ _ => rfl
  have hlevels : c.constant.levels = (if c.constant.isNegative then 1 else 0) + 1 := by
    unfold Constant.levels
    split <;> rfl
  by_cases hf : c.fieldFirst = true
  · have hquantifier : Avoids quantifiers c.constant.tokens := c.constant.avoids (by decide)
    simp only [Phrase.levels, Phrase.tokens, Phrase.expr, if_pos hf, hlevels, Accessor.levels]
    exact hfield.reads_infix hconstant hquantifier hnext hstops (by decide) (by decide) happlied
  · have hquantifier : Avoids quantifiers (c.field.under parameter).tokens :=
      (c.field.under parameter).avoids fun i => i.free_cases.2.2.2.2
    simp only [Phrase.levels, Phrase.tokens, Phrase.expr, if_neg hf, hlevels, Accessor.levels]
    exact hconstant.reads_infix hfield hquantifier hnext hstops (by decide) (by decide) happlied

/-- By induction on the predicate. -/
theorem Phrase.reads (p : Phrase) : Reads (p.levels parameter) (p.tokens parameter) (p.expr parameter) := by
  induction p with
  | comparison c => exact c.reads parameter
  | nullTest field before is after negation null =>
    have h := (field.under parameter).termed.reads_nullTest is (negation.map (·.1)) null
    simp only [levels, tokens, expr, List.append_assoc, List.cons_append]
    cases negation with
    | none => exact h
    | some n => exact h
  | @connective c joint left before after right ihl ihr =>
    have hleft := ihl.parens (left.avoids parameter)
    have hright := ihr.parens (right.avoids parameter)
    have hquantifier : Avoids quantifiers (.symbol "(" :: (right.tokens parameter ++ [.symbol ")"])) :=
      avoids_symbol _ _ _
    have happlied : ∀ inner e ts, applied inner (.connective c) (Joint.strength c) e ts =
        rightSide inner (Joint.strength c) c.keyword false (.connective c e ·) e ts := fun _ _ _ => rfl
    have h := hleft.reads_infix hright hquantifier joint.next? joint.stops (by cases c <;> decide)
      (by cases c <;> decide) happlied
    simpa only [levels, tokens, expr, List.append_assoc, List.cons_append, List.nil_append] using h
  | parens inner ih =>
    have h := (ih.parens (inner.avoids parameter)).reads
    simpa only [levels, tokens, expr, List.append_assoc, List.cons_append] using h
  | spaced before inner after ih => exact ih

/-! ## Whole texts -/

/-- A text is read as its tokens are if there are levels enough, and not at all otherwise. -/
theorem readExpr_of_reads {s : List Char} {need : Nat}
    (hlexemes : ∃ ts, Lexer.lexemes? s = some ts ∧ ts.map (·.token) = tokens) (h : Reads need tokens e) :
    readExpr s = if need ≤ maxLevels then .ok e else .error .unreadable := by
  obtain ⟨ts, hlexemes, hts⟩ := hlexemes
  have hread := h maxLevels ts [] hts .nil
  rw [List.append_nil] at hread
  have hexpression : expression maxLevels .weakest ts = within need maxLevels (e, []) := hread
  simp only [readExpr, hlexemes, Option.bind_some, hexpression]
  unfold within
  by_cases hl : need ≤ maxLevels
  · simp only [if_pos hl]
  · simp only [if_neg hl]

theorem Phrase.readExpr (p : Phrase) :
    readExpr (normalize (p.chars parameter)) =
      if p.levels parameter ≤ maxLevels then .ok (p.expr parameter) else .error .unreadable :=
  readExpr_of_reads (p.lexemes parameter) (p.reads parameter)

/-- What is read of a text is its head and the expression in its body. -/
theorem readBody_of_readExpr {text : String} {head : Option String} {body : List Char} {need : Nat}
    (hsplit : Lambda.split text.toList = (head, body)) (hblank : body.all Text.isBlank = false)
    (hread : readExpr (normalize body) = if need ≤ maxLevels then .ok e else .error .unreadable) :
    readBody text = if need ≤ maxLevels then .ok (head, e) else .error .unreadable := by
  unfold readBody
  rw [hsplit]
  simp only [hblank, Bool.false_eq_true, if_false, hread]
  by_cases hl : need ≤ maxLevels
  · simp only [if_pos hl]
    rfl
  · simp only [if_neg hl]
    rfl

end DocQuery.Predicate
