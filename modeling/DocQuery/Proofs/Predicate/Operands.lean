/-
  DocQuery.Proofs.Predicate.Operands — fields and constants are read as operands.

  A word that opens nothing but a name is no literal after a type (`typedLiteral?_word`) and no form
  of its own (`form?_eq_none`), so it is read as that name, and points carry on to members
  (`term_path`). An operand that is read whole from any level that is deep enough, with the rest left
  over, is `Termed`; fields and constants are (`Accessor.termed`, `Constant.termed`).
-/

import DocQuery.Proofs.Predicate.Spelling

namespace DocQuery.Predicate

open Grammar Tokens

/-! ## Levels -/

/-- What is read if as many levels are there as it needs. -/
def within {α : Type} (need levels : Nat) (x : α) : Option α := if need ≤ levels then some x else none

theorem within_of_le {α : Type} {need levels : Nat} (h : need ≤ levels) (x : α) : within need levels x = some x :=
  if_pos h

theorem within_of_lt {α : Type} {need levels : Nat} (h : levels < need) (x : α) : within need levels x = none :=
  if_neg (by omega)

theorem within_zero {α : Type} (levels : Nat) (x : α) : within 0 levels x = some x := within_of_le (by omega) x

theorem map_within {α β : Type} (f : α → β) (need levels : Nat) (x : α) :
    (within need levels x).map f = within need levels (f x) := by
  unfold within
  split <;> rfl

/-- One level more on both sides. -/
theorem within_succ {α : Type} (need levels : Nat) (x : α) : within (need + 1) (levels + 1) x = within need levels x := by
  simp only [within, Nat.add_le_add_iff_right]

/-! ## What may stand behind an operand -/

/-- What stands at the head neither calls the operand before it nor goes into it, and gives it no
collation. Points lead on to members if they are allowed. -/
inductive Stops (points : Prop) : Tokens → Prop
  | nil : Stops points []
  | point {spaced : Bool} {r : Tokens} (h : points) : Stops points (⟨.symbol ".", spaced⟩ :: r)
  | symbol {s : String} {spaced : Bool} {r : Tokens} (h : s ∉ ["(", "[", "."]) : Stops points (⟨.symbol s, spaced⟩ :: r)
  | word {w : String} {spaced : Bool} {r : Tokens} (h : Text.upper w ≠ "COLLATE") : Stops points (⟨.word w, spaced⟩ :: r)

theorem Stops.weaken {points : Prop} {ts : Tokens} (h : Stops False ts) : Stops points ts := by
  cases h with
  | nil => exact .nil
  | point h => exact h.elim
  | symbol h => exact .symbol h
  | word h => exact .word h

section
variable {points : Prop} {ts : Tokens}

theorem Stops.opening (h : Stops points ts) : afterSymbol? "(" ts = none := by
  cases h with
  | symbol h => simp_all [afterSymbol?]
  | _ => rfl

theorem Stops.bracket (h : Stops points ts) : afterSymbol? "[" ts = none := by
  cases h with
  | symbol h => simp_all [afterSymbol?]
  | _ => rfl

theorem Stops.point_eq_none (h : Stops False ts) : afterSymbol? "." ts = none := by
  cases h with
  | symbol h => simp_all [afterSymbol?]
  | point h => exact h.elim
  | _ => rfl

theorem Stops.introduced (h : Stops points ts) : introduced? ts = none := by
  cases h <;> rfl

theorem Stops.collated (h : Stops points ts) (e : Expr) : collated (some (e, ts)) = some (e, ts) := by
  have hnone : afterKeywords? ["COLLATE"] ts = none := by
    cases h with
    | word h => simp [afterKeywords?, keyword?, h]
    | _ => rfl
  simp only [Grammar.collated, hnone, bind, Option.bind, pure]

end

/-! ## Words that open names -/

variable {w : String} {ts rest : Tokens}

theorem form?_eq_none (h : Text.upper w ∉ formWords) (inner : Inner) (interval : Tokens → TextReading) (ts : Tokens) :
    Grammar.form? inner interval w (Text.upper w) ts = none := by
  have hw : ∀ k ∈ formWords, Text.upper w ≠ k := fun k hk he => h (he ▸ hk)
  simp only [formWords, List.mem_append, not_or] at h
  obtain ⟨⟨⟨hforms, hsession⟩, hclock⟩, hshape⟩ := h
  unfold Grammar.form?
  split <;> first
    | exact absurd ‹_› (hw _ (by decide))
    | simp only [List.contains_eq_mem, hsession, hclock, hshape, decide_false, Bool.false_eq_true, if_false]

theorem special_eq_none (h : Text.upper w ∉ typeWords) (ts : Tokens) : DataType.special (Text.upper w) ts = none := by
  have hw : ∀ k ∈ typeWords, Text.upper w ≠ k := fun k hk he => h (he ▸ hk)
  unfold DataType.special
  split <;> first
    | rfl
    | exact absurd ‹_› (hw _ (by decide))

theorem dataForm?_eq_none (h : Text.upper w ∉ typeWords) (spaced : Bool) (ts : Tokens) :
    DataType.form? (⟨.word w, spaced⟩ :: ts) = none := by
  refine List.findSome?_eq_none_iff.mpr fun form hform => ?_
  have hwords : form.words ≠ [] := by
    have : ∀ form ∈ DataType.forms, form.words ≠ [] := by decide
    exact this form hform
  obtain ⟨k, ks, hk⟩ := List.exists_cons_of_ne_nil hwords
  have hne : Text.upper w ≠ k := by
    rintro rfl
    refine h (List.mem_append_right _ (List.mem_flatMap.mpr ⟨form, hform, ?_⟩))
    rw [hk]
    exact List.mem_cons_self
  simp [hk, afterKeywords?, keyword?, hne]

/-! ## Names and members -/

/-- Points and names. -/
abbrev memberTokens (gs : List Segment) : List Token := gs.flatMap fun g => [.symbol ".", .word g.name]

theorem of_memberTokens {g : Segment} {gs : List Segment} (h : ts.map (·.token) = memberTokens (g :: gs)) :
    ∃ a b r, ts = ⟨.symbol ".", a⟩ :: ⟨.word g.name, b⟩ :: r ∧ r.map (·.token) = memberTokens gs := by
  obtain ⟨⟨_, a⟩, more, rfl, rfl, hmore⟩ := List.map_eq_cons_iff.mp h
  obtain ⟨⟨_, b⟩, r, rfl, rfl, hr⟩ := List.map_eq_cons_iff.mp hmore
  exact ⟨a, b, r, rfl, hr⟩

theorem stops_members {gs : List Segment} (h : ts.map (·.token) = memberTokens gs) (hrest : Stops False rest) :
    Stops True (ts ++ rest) := by
  cases gs with
  | nil =>
    obtain rfl := List.map_eq_nil_iff.mp h
    exact hrest.weaken
  | cons g gs =>
    obtain ⟨a, b, r, rfl, -⟩ := of_memberTokens h
    exact .point trivial

theorem separated_members {gs : List Segment} (h : ts.map (·.token) = memberTokens gs) (hrest : Stops False rest)
    (w : String) (spaced : Bool) {fuel : Nat} (hfuel : (ts ++ rest).length < fuel) :
    ∃ names, separated "." identifier? fuel (⟨.word w, spaced⟩ :: (ts ++ rest)) = some (names, rest) := by
  induction gs generalizing ts w spaced fuel with
  | nil =>
    obtain rfl := List.map_eq_nil_iff.mp h
    cases fuel with
    | zero => omega
    | succ fuel => exact ⟨[w], by simp [separated, identifier?, hrest.point_eq_none]⟩
  | cons g gs ih =>
    obtain ⟨a, b, r, rfl, hr⟩ := of_memberTokens h
    cases fuel with
    | zero => omega
    | succ fuel =>
      simp only [List.cons_append, List.length_cons] at hfuel
      obtain ⟨names, hnames⟩ := ih hr g.name b (by omega : (r ++ rest).length < fuel)
      exact ⟨w :: names, by simp [separated, identifier?, afterSymbol?, hnames]⟩

theorem named?_members {gs : List Segment} (h : ts.map (·.token) = memberTokens gs) (hrest : Stops False rest)
    (w : String) (spaced : Bool) :
    ∃ name, DataType.named? (⟨.word w, spaced⟩ :: (ts ++ rest)) = some (name, rest) := by
  obtain ⟨names, hnames⟩ := separated_members h hrest w spaced (Nat.lt_succ_self _)
  refine ⟨String.intercalate "." names, ?_⟩
  simp only [DataType.named?, qualifiedName?, List.length_cons, hnames, Option.map_some, hrest.opening, bind,
    Option.bind, pure]

/-- A name with its members is a type's name at most, and no literal stands after that. -/
theorem typedLiteral?_word {gs : List Segment} (hw : Text.upper w ∉ typeWords)
    (h : ts.map (·.token) = memberTokens gs) (hrest : Stops False rest) (interval : Tokens → TextReading) (spaced : Bool) :
    typedLiteral? interval (⟨.word w, spaced⟩ :: (ts ++ rest)) = none := by
  obtain ⟨name, hname⟩ := named?_members h hrest w spaced
  have hinterval : (Text.upper w == "INTERVAL") = false := by
    refine beq_eq_false_iff_ne.mpr fun he => hw (he ▸ ?_)
    decide
  have harray : (Text.upper w == "ARRAY") = false := by
    refine beq_eq_false_iff_ne.mpr fun he => hw (he ▸ ?_)
    decide
  have hbase : ∀ element, DataType.base? element (⟨.word w, spaced⟩ :: (ts ++ rest)) = some ⟨name, .named, false, rest⟩ := by
    intro element
    simp only [DataType.base?, hinterval, harray, Bool.false_eq_true, if_false, special_eq_none hw, DataType.simple?,
      dataForm?_eq_none hw, hname, Option.map_some]
  have hbrackets : DataType.brackets? rest.length rest = some ("", rest) := by
    cases rest.length with
    | zero => rfl
    | succ n => simp only [DataType.brackets?, hrest.bracket]
  have hread : DataType.read? (⟨.word w, spaced⟩ :: (ts ++ rest)) = some ⟨name ++ "", .named, false, rest⟩ := by
    simp only [DataType.read?, DataType.readFrom?, hbase, hbrackets, bind, Option.bind, pure]
    rfl
  simp only [typedLiteral?, hread, bind, Option.bind]

theorem typedLiteral?_literal (interval : Tokens → TextReading) (l : Literal) (spaced : Bool) (ts : Tokens) :
    typedLiteral? interval (⟨.literal l, spaced⟩ :: ts) = none := rfl

theorem typedLiteral?_symbol (interval : Tokens → TextReading) (s : String) (spaced : Bool) (ts : Tokens) :
    typedLiteral? interval (⟨.symbol s, spaced⟩ :: ts) = none := rfl

/-! ## Operands -/

theorem operand_eq (inner : Inner) (h : ∀ interval, typedLiteral? interval ts = none) :
    operand inner ts = plainOperand inner (Form.interval (operandFrom inner ts.length)) ts := by
  unfold operand
  rw [operandFrom, h]
  rfl

theorem literal?_word_eq_none (h : Text.upper w ∉ literalWords) (spaced : Bool) (ts : Tokens) :
    literal? (⟨.word w, spaced⟩ :: ts) = none := by
  have hw : ∀ k ∈ literalWords, Text.upper w ≠ k := fun k hk he => h (he ▸ hk)
  rw [literal?]
  split <;> first
    | exact absurd ‹_› (hw _ (by decide))
    | rfl

theorem Identifier.free_cases (i : Identifier) :
    Text.upper i.name ∉ literalWords ∧ Text.upper i.name ∉ queryWords ∧ Text.upper i.name ∉ formWords ∧
      Text.upper i.name ∉ typeWords ∧ Text.upper i.name ∉ quantifiers := by
  have hfree : ∀ words : List String, words ⊆ operandWords → Text.upper i.name ∉ words :=
    fun words hsub hm => i.free (hsub hm)
  refine ⟨hfree _ ?_, hfree _ ?_, hfree _ ?_, hfree _ ?_, hfree _ ?_⟩ <;>
    (intro k hk; simp only [operandWords, List.mem_append, hk, true_or, or_true])

theorem operand_name (i : Identifier) {gs : List Segment} (h : ts.map (·.token) = memberTokens gs)
    (hrest : Stops False rest) (inner : Inner) (spaced : Bool) :
    operand inner (⟨.word i.name, spaced⟩ :: (ts ++ rest)) = some (.name i.name none, ts ++ rest) := by
  obtain ⟨hliteral, -, hform, htype, -⟩ := i.free_cases
  have hstops := stops_members h hrest
  have hnamed : ∀ interval, named inner interval i.name none (ts ++ rest) = some (.name i.name none, ts ++ rest) := by
    intro interval
    simp only [named, hstops.opening, hstops.introduced]
  rw [operand_eq inner fun interval => typedLiteral?_word htype h hrest interval spaced]
  simp only [plainOperand, literal?_word_eq_none hliteral, word, form?_eq_none hform, hnamed, hstops.collated]

/-! ## Operands with their members -/

/-- What follows binds no stronger than this. -/
def Ends (strength : Strength) (ts : Tokens) : Prop :=
  ∀ op s r, Operation.next? ts = some (op, s, r) → s ≤ strength

theorem Ends.mono {a b : Strength} (h : Ends a ts) (hab : a ≤ b) : Ends b ts :=
  fun op s r hn => Nat.le_trans (h op s r hn) hab

/-- An operand and what points and brackets lead to. -/
def term (inner : Inner) (ts : Tokens) : Reading := do
  let (e, ts) ← operand inner ts
  accesses inner ts.length e ts

theorem level_eq (inner : Inner) (strength : Strength) (ts : Tokens) :
    level inner strength ts = (term inner ts).bind fun (e, ts) => operations inner strength ts.length e ts := by
  simp only [level, term, bind, Option.bind_assoc]

theorem operations_ends {strength : Strength} (h : Ends strength ts) (inner : Inner) (fuel : Nat) (e : Expr) :
    operations inner strength fuel e ts = some (e, ts) := by
  cases fuel with
  | zero => rfl
  | succ fuel =>
    rw [operations]
    split
    · rfl
    · rename_i op s r hnext
      rw [if_pos (h op s r hnext)]

theorem accesses_stops (h : Stops False ts) (inner : Inner) (fuel : Nat) {e : Expr} (he : e.settle = e) :
    accesses inner fuel e ts = some (e, ts) := by
  cases fuel with
  | zero => rw [accesses, he]
  | succ fuel => simp only [accesses, h.point_eq_none, h.bracket, he]

/-- The tokens are read as this expression by every reader with so many levels above its own. -/
def Termed (above : Nat) (tokens : List Token) (e : Expr) : Prop :=
  ∀ levels ts rest, ts.map (·.token) = tokens → Stops False rest → Ends .power rest →
    term (readers levels) (ts ++ rest) = within above levels (e, rest)

/-- An operand is all that is read if what follows binds weaker than what asks for it. -/
theorem Termed.expr {above : Nat} {tokens : List Token} {e : Expr} (h : Termed above tokens e)
    (hts : ts.map (·.token) = tokens) (hstops : Stops False rest) (hpower : Ends .power rest) {strength : Strength}
    (hends : Ends strength rest) (levels : Nat) :
    (readers levels).expr strength (ts ++ rest) = within (above + 1) levels (e, rest) := by
  cases levels with
  | zero => rfl
  | succ levels =>
    show level (readers levels) strength (ts ++ rest) = _
    rw [level_eq, h levels ts rest hts hstops hpower, within_succ]
    by_cases hl : above ≤ levels
    · rw [within_of_le hl, Option.bind_some]
      exact operations_ends hends _ _ _
    · rw [within_of_lt (by omega), Option.bind_none]

/-! ## Fields -/

/-- The chain of members of a base. -/
def chain (base : Expr) (gs : List Segment) : Expr := gs.foldl (fun e g => .member e (.name g.name none)) base

theorem settle_chain {base : Expr} (h : base.settle = base) (gs : List Segment) : (chain base gs).settle = chain base gs := by
  induction gs generalizing base with
  | nil => exact h
  | cons g gs ih => exact ih (rfl : (Expr.member base (.name g.name none)).settle = _)

/-- What is read behind a point from left to right goes on from what stands before the point. -/
theorem graft_chain (base e : Expr) (gs : List Segment) : base.graft (chain e gs) = chain (base.graft e) gs := by
  induction gs generalizing e with
  | nil => rfl
  | cons g gs ih => exact ih (.member e (.name g.name none))

theorem accesses_member (inner : Inner) (fuel : Nat) (e : Expr) (w : String) (a b : Bool) (ts : Tokens) :
    accesses inner (fuel + 1) e (⟨.symbol ".", a⟩ :: ⟨.word w, b⟩ :: ts) =
      (memberOf inner e (⟨.word w, b⟩ :: ts)).bind fun (e, ts) => accesses inner fuel e ts := rfl

/-- By induction on the names behind the first one: each is read one level above the one before. -/
theorem term_path {gs : List Segment} (i : Identifier) (h : ts.map (·.token) = memberTokens gs)
    (hrest : Stops False rest) (hends : Ends .power rest) (levels : Nat) (spaced : Bool) :
    term (readers levels) (⟨.word i.name, spaced⟩ :: (ts ++ rest)) =
      within gs.length levels (chain (.name i.name none) gs, rest) := by
  induction gs generalizing ts i levels spaced with
  | nil =>
    have hname := operand_name i h hrest (readers levels) spaced
    obtain rfl := List.map_eq_nil_iff.mp h
    rw [List.nil_append] at hname ⊢
    simp only [term, hname, bind, Option.bind, List.length_nil]
    rw [accesses_stops hrest _ _ rfl, within_zero]
    rfl
  | cons g gs ih =>
    have hname := operand_name i h hrest (readers levels) spaced
    obtain ⟨a, b, r, rfl, hr⟩ := of_memberTokens h
    have hmember : (readers levels).expr .access (⟨.word g.name, b⟩ :: (r ++ rest)) =
        within (gs.length + 1) levels (chain (.name g.name none) gs, rest) := by
      cases levels with
      | zero => rfl
      | succ levels =>
        show level (readers levels) .access _ = _
        rw [level_eq, Segment.name, ih g.identifier hr levels b, within_succ]
        by_cases hl : gs.length ≤ levels
        · rw [within_of_le hl, Option.bind_some]
          exact operations_ends (hends.mono (by decide)) _ _ _
        · rw [within_of_lt (by omega), Option.bind_none]
    have hgraft : memberOf (readers levels) (.name i.name none) (⟨.word g.name, b⟩ :: (r ++ rest)) =
        within (gs.length + 1) levels (chain (.name i.name none) (g :: gs), rest) := by
      rw [memberOf]
      · rw [hmember, map_within]
        simp only [graft_chain]
        rfl
      · intro t spaced r he
        cases he
    have hsettle : (chain (.name i.name none) (g :: gs)).settle = chain (.name i.name none) (g :: gs) :=
      settle_chain rfl (g :: gs)
    rw [List.cons_append, List.cons_append] at hname ⊢
    simp only [term, hname, bind, Option.bind_some, List.length_cons]
    rw [accesses_member, hgraft]
    by_cases hl : gs.length + 1 ≤ levels
    · rw [within_of_le hl, Option.bind_some]
      exact accesses_stops hrest _ _ hsettle
    · rw [within_of_lt (by omega), Option.bind_none]

theorem Accessor.termed (a : Accessor) : Termed a.others.length a.tokens a.expr := by
  intro levels ts rest h hstops hends
  obtain ⟨⟨_, spaced⟩, r, rfl, rfl, hr⟩ := List.map_eq_cons_iff.mp h
  exact term_path a.first.identifier hr hstops hends levels spaced

/-! ## Constants -/

theorem term_of_operand {inner : Inner} {e : Expr} (h : operand inner ts = some (e, rest)) (hrest : Stops False rest)
    (he : e.settle = e) : term inner ts = some (e, rest) := by
  simp only [term, h, bind, Option.bind_some]
  exact accesses_stops hrest inner _ he

/-- A keyword that stands for a constant. -/
theorem termed_keyword {l : Literal} {w : String} (hw : Text.upper w ∉ typeWords)
    (hl : ∀ spaced ts, literal? (⟨.word w, spaced⟩ :: ts) = some (l, ts)) : Termed 0 [.word w] (.literal l) := by
  intro levels ts rest h hstops _
  obtain ⟨⟨_, spaced⟩, r, rfl, rfl, hr⟩ := List.map_eq_cons_iff.mp h
  obtain rfl := List.map_eq_nil_iff.mp hr
  have htyped : ∀ interval, typedLiteral? interval (⟨.word w, spaced⟩ :: rest) = none :=
    fun interval => @typedLiteral?_word w [] rest [] hw rfl hstops interval spaced
  rw [within_zero]
  refine term_of_operand ?_ hstops rfl
  rw [List.singleton_append, operand_eq _ htyped]
  simp only [plainOperand, hl, hstops.collated]

theorem termed_literal (l : Literal) : Termed 0 [.literal l] (.literal l) := by
  intro levels ts rest h hstops _
  obtain ⟨⟨_, spaced⟩, r, rfl, rfl, hr⟩ := List.map_eq_cons_iff.mp h
  obtain rfl := List.map_eq_nil_iff.mp hr
  rw [within_zero]
  refine term_of_operand ?_ hstops rfl
  rw [List.singleton_append, operand_eq _ fun interval => typedLiteral?_literal interval l spaced rest]
  exact hstops.collated _

/-- What a symbol opens is read by the reader for that symbol. -/
theorem term_symbol {s : String} (hs : s ≠ ":") {levels above : Nat} {e : Expr} (he : e.settle = e)
    (hrest : Stops False rest) (spaced : Bool)
    (hread : ∀ interval, symbolOperand (readers levels) interval s ts = within above levels (e, rest)) :
    term (readers levels) (⟨.symbol s, spaced⟩ :: ts) = within above levels (e, rest) := by
  have hliteral : literal? (⟨.symbol s, spaced⟩ :: ts) = none := by
    simp only [literal?, beq_eq_false_iff_ne.mpr hs, Bool.false_eq_true, if_false]
  have hoperand : operand (readers levels) (⟨.symbol s, spaced⟩ :: ts) = collated (within above levels (e, rest)) := by
    rw [operand_eq _ fun interval => typedLiteral?_symbol interval s spaced ts]
    simp only [plainOperand, hliteral, hread]
  by_cases hl : above ≤ levels
  · rw [within_of_le hl] at hoperand ⊢
    exact term_of_operand (hoperand.trans (hrest.collated e)) hrest he
  · rw [within_of_lt (by omega)] at hoperand ⊢
    simp only [term, hoperand]
    rfl

/-- The operand after a minus sign is one level above it. -/
theorem Termed.minus {above : Nat} {tokens : List Token} {e : Expr} (h : Termed above tokens e) :
    Termed (above + 1) (.symbol "-" :: tokens) (.negative e) := by
  intro levels ts rest hts hstops hends
  obtain ⟨⟨_, spaced⟩, r, rfl, rfl, hr⟩ := List.map_eq_cons_iff.mp hts
  refine term_symbol (by decide) rfl hstops spaced fun interval => ?_
  show ((readers levels).expr .power (r ++ rest)).map _ = _
  rw [h.expr hr hstops hends hends levels, map_within]

theorem Constant.termed (c : Constant) : Termed (if c.isNegative then 1 else 0) c.tokens c.expr := by
  cases c with
  | null w =>
    have htype : Text.upper w.word ∉ typeWords := by
      rw [w.upper_eq]
      decide
    refine termed_keyword htype fun spaced ts => ?_
    rw [literal?, w.upper_eq]
    rfl
  | boolean b w =>
    have htype : Text.upper w.word ∉ typeWords := by
      rw [w.upper_eq]
      cases b <;> decide
    refine termed_keyword htype fun spaced ts => ?_
    rw [literal?, w.upper_eq]
    cases b <;> rfl
  | integer n hn =>
    by_cases hneg : n < 0
    · simp only [isNegative, decide_eq_true hneg, if_true, tokens, if_pos hneg, expr]
      exact (termed_literal (number n)).minus
    · simp only [isNegative, decide_eq_false hneg, Bool.false_eq_true, if_false, tokens, if_neg hneg, expr]
      exact termed_literal (number n)
  | text t quotes => exact termed_literal (.text t)

end DocQuery.Predicate
