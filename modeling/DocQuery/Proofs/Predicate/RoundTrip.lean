/-
  DocQuery.Proofs.Predicate.RoundTrip — what a predicate text asks for is what it was written from.

  Every spelling is read back as its query if the grammar has as many levels as it takes, and is
  unreadable otherwise (`Query.ofText_text`). Every query of comparisons, null tests and connectives
  has a spelling (`Query.Writable.spelled`).
-/

import DocQuery.Proofs.Predicate.Heading
import DocQuery.Proofs.Predicate.Meaning
import DocQuery.Proofs.Predicate.Parsing

namespace DocQuery

open Predicate

namespace Predicate

/-- A text whose body is a predicate is read as its expression. -/
theorem Phrase.readBody_of_split {text : String} {parameter : Option Identifier} {p : Phrase}
    (h : Lambda.split text.toList = (parameter.map (·.name), p.chars parameter)) :
    readBody text =
      if p.levels parameter ≤ Grammar.maxLevels then .ok (parameter.map (·.name), p.expr parameter)
      else .error .unreadable :=
  readBody_of_readExpr h (p.not_allBlank parameter) (p.readExpr parameter)

/-- The head and the body of a spelling. -/
theorem Spelling.readBody_text (s : Spelling) :
    readBody s.text =
      if s.levels ≤ Grammar.maxLevels then .ok (s.parameter.map (·.name), s.body.expr s.parameter)
      else .error .unreadable := by
  obtain ⟨head, body⟩ := s
  cases head with
  | none =>
    refine @Phrase.readBody_of_split _ none body ?_
    have hhead := body.head?_eq_none none []
    rw [List.append_nil] at hhead
    simp only [text, String.toList_ofList]
    show Lambda.split (body.chars none) = _
    rw [Lambda.split, hhead]
    rfl
  | some head =>
    -- The blanks behind the arrow go with the head, so it is the body without them that is read.
    have hsplit : Lambda.split (head.chars ++ body.chars (some head.parameter)) =
        (some head.parameter.name, body.front.chars (some head.parameter)) := by
      have hskip := body.skipBlanks_chars (some head.parameter) []
      rw [List.append_nil, List.append_nil] at hskip
      rw [Lambda.split, head.head?_eq, hskip]
    have hread := @Phrase.readBody_of_split (Spelling.text ⟨some head, body⟩) (some head.parameter) body.front
      (by simp only [text, String.toList_ofList]; exact hsplit)
    rw [body.front_levels, body.front_expr] at hread
    exact hread

end Predicate

/-- A spelling is read back as its query exactly if the grammar has as many levels as it takes. -/
theorem Query.ofText_text (bindings : List (String × Value)) (s : Spelling) :
    Query.ofText ⟨none, bindings, Rule.all⟩ s.text =
      if s.levels ≤ Grammar.maxLevels then .ok s.query else .error .unreadable := by
  have hbody := s.readBody_text
  have hquery : (s.body.expr s.parameter).toQuery
      ((⟨none, bindings, Rule.all⟩ : Setting).withHead (s.parameter.map (·.name))) = .ok s.query :=
    s.body.toQuery_eq (by cases s.parameter <;> rfl) rfl
  unfold Query.ofText
  rw [hbody]
  by_cases hl : s.levels ≤ Grammar.maxLevels
  · rw [if_pos hl, if_pos hl]
    exact hquery
  · rw [if_neg hl, if_neg hl]
    rfl

/-! ## Queries that have a spelling -/

/-- Comparisons of fields with constants, null tests, and connectives of those. -/
inductive Query.Writable : Query → Prop
  | comparison (c : Comparison) (field : Accessor) (constant : Constant) (h : constant.value ≠ .null) :
      Writable (.unary field.path (.comparison c) constant.value)
  | isNull (field : Accessor) : Writable (.isNull field.path)
  | isNotNull (field : Accessor) : Writable (.isNotNull field.path)
  | binary (c : Connective) {left right : Query} : Writable left → Writable right → Writable (.binary c left right)

namespace Predicate

def Space.single : Space := ⟨⟨[' '], List.forall_mem_singleton.mpr rfl⟩, by decide⟩

/-- With a space on both sides of the operator. -/
def Comparing.plain (c : Comparison) (field : Accessor) (constant : Constant) (h : constant.value ≠ .null) :
    Comparing where
  comparison := c
  field := field
  constant := constant
  style := .sql
  fieldFirst := true
  before := Space.single.toGap
  after := Space.single.toGap
  orderless := fun e => absurd e h
  apart := fun _ _ _ => by decide

end Predicate

/-- Every such query has a spelling, behind any head and without one. -/
theorem Query.Writable.spelled {q : Query} (h : q.Writable) (head : Option Head) :
    ∃ s : Spelling, s.head = head ∧ s.query = q := by
  obtain ⟨p, hp⟩ : ∃ p : Phrase, p.query = q := by
    induction h with
    | comparison c field constant hv =>
      refine ⟨.comparison (.plain c field constant hv), ?_⟩
      cases constant with
      | null w => exact absurd rfl hv
      | _ => rfl
    | isNull field => exact ⟨.nullTest field .single ⟨"IS", rfl⟩ .single none ⟨"NULL", rfl⟩, rfl⟩
    | isNotNull field =>
      exact ⟨.nullTest field .single ⟨"IS", rfl⟩ .single (some (⟨"NOT", rfl⟩, .single)) ⟨"NULL", rfl⟩, rfl⟩
    | binary c hl hr ihl ihr =>
      obtain ⟨left, rfl⟩ := ihl
      obtain ⟨right, rfl⟩ := ihr
      exact ⟨.connective (c := c) .sign left Space.single.toGap Space.single.toGap right, rfl⟩
  exact ⟨⟨head, p⟩, rfl, hp⟩

/-! ## Too many parentheses -/

namespace Predicate

def Identifier.title : Identifier := ⟨"Title", rfl, by decide⟩

/-- A title asked for in this many pairs of parentheses. -/
def Phrase.wrapped : Nat → Phrase
  | 0 => .comparison (.plain .equalTo ⟨⟨.title, []⟩, []⟩ (.text "x" .sql) nofun)
  | n + 1 => .parens (wrapped n)

theorem Phrase.wrapped_query (n : Nat) : (wrapped n).query = .unary "Title" (.comparison .equalTo) (.text "x") := by
  induction n with
  | zero => rfl
  | succ n ih => exact ih

/-- The sides of the comparison take two levels, and each pair of parentheses one. -/
theorem Phrase.wrapped_levels (n : Nat) : (wrapped n).levels none = n + 2 := by
  induction n with
  | zero => rfl
  | succ n ih => exact congrArg (· + 1) ih

theorem Phrase.wrapped_chars (n : Nat) :
    (wrapped n).chars none = List.replicate n '(' ++ "Title = 'x'".toList ++ List.replicate n ')' := by
  induction n with
  | zero => rfl
  | succ n ih =>
    rw [wrapped, chars, ih, List.replicate_succ, List.replicate_succ']
    simp only [List.cons_append, List.append_assoc]

end Predicate

/-- A hundred pairs of parentheses are too many. -/
theorem Query.ofText_wrapped :
    Query.ofText ⟨none, [], Rule.all⟩
        (String.ofList (List.replicate 100 '(' ++ "Title = 'x'".toList ++ List.replicate 100 ')')) = .error .unreadable ∧
      (Spelling.mk none (.wrapped 100)).text =
        String.ofList (List.replicate 100 '(' ++ "Title = 'x'".toList ++ List.replicate 100 ')') ∧
      (Spelling.mk none (.wrapped 100)).query = .unary "Title" (.comparison .equalTo) (.text "x") := by
  have htext : (Spelling.mk none (.wrapped 100)).text =
      String.ofList (List.replicate 100 '(' ++ "Title = 'x'".toList ++ List.replicate 100 ')') := by
    rw [← Phrase.wrapped_chars]
    rfl
  have hlevels : ¬ (Spelling.mk none (.wrapped 100)).levels ≤ Grammar.maxLevels := by
    have h : (Spelling.mk none (.wrapped 100)).levels = 100 + 2 := Phrase.wrapped_levels 100
    rw [h]
    decide
  have hbody := (Spelling.mk none (.wrapped 100)).readBody_text
  rw [if_neg hlevels, htext] at hbody
  refine ⟨?_, htext, Phrase.wrapped_query 100⟩
  unfold Query.ofText
  rw [hbody]
  rfl

end DocQuery
