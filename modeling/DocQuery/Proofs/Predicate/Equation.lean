/-
  DocQuery.Proofs.Predicate.Equation — a field set equal to a constant, however the constant is written.

  An `Operand` is a text that stands for a value behind a sign of equality: it is read as its tokens in front of
  any text that lets it end, its tokens are an operand, and that is a constant of its value. An `Equation` is
  everything else that is written, a lambda's head included. Together they ask for the field to equal the value,
  if the field's path is not too deep to be read (`Equation.ofText_eq`).
-/

import DocQuery.Proofs.Predicate.RoundTrip
import DocQuery.Proofs.Predicate.Translation

namespace DocQuery.Predicate

/-- A constant as it is written, with its tokens, its expression and the levels above it that reading takes. -/
structure Operand where
  chars : List Char
  tokens : List Token
  expr : Expr
  above : Nat
  value : Value
  begins : Begins chars
  /-- A sign of equality before the operand stays what it is. -/
  endsSign : ∀ style s, EndsSign .equalTo style (normalize (chars ++ s))
  lexed : ∀ {s : List Char} {more : List Token}, EndsOperand (normalize s) → Lexed (normalize s) more →
    Lexed (normalize (chars ++ s)) (tokens ++ more)
  termed : Termed above tokens expr
  avoids : Avoids Grammar.quantifiers tokens
  shallow : above + 2 ≤ Grammar.maxLevels
  constant_eq : ∀ setting, expr.constant setting = .ok value
  ne_null : value ≠ .null

/-- What is written around an operand to set a field equal to it. -/
structure Equation where
  head : Option Head
  field : Accessor
  before : Gap
  style : Style
  after : Gap

namespace Equation

variable (q : Equation) (o : Operand)

def parameter : Option Identifier := q.head.map (·.parameter)

/-- The field behind the document's name. -/
def accessor : Accessor := q.field.under q.parameter

def body (operand : List Char) : List Char :=
  q.accessor.chars ++ (q.before.chars ++ (sign .equalTo q.style).toList ++ q.after.chars ++ operand)

def text (operand : List Char) : String := String.ofList (q.head.elim [] Head.chars ++ q.body operand)

def expr : Expr := .comparison .equalTo q.accessor.expr o.expr

theorem lexemes :
    ∃ ts, Lexer.lexemes? (normalize (q.body o.chars)) = some ts ∧
      ts.map (·.token) = q.accessor.tokens ++ signToken .equalTo q.style :: o.tokens := by
  have hoperand := o.lexed (s := []) endsOperand_nil lexed_nil
  obtain ⟨hsign, hends⟩ := Lexed.between .equalTo q.style q.before q.after (fun _ => o.endsSign q.style []) hoperand
  have hbody := q.accessor.lexed hends.endsWord hsign
  rw [List.append_nil, List.append_nil] at hbody
  exact hbody.lexemes

theorem reads :
    Reads (max (q.accessor.others.length + 1) (o.above + 2))
      (q.accessor.tokens ++ signToken .equalTo q.style :: o.tokens) (q.expr o) :=
  q.accessor.termed.reads_infix o.termed o.avoids (next?_sign .equalTo q.style) (stops_sign .equalTo q.style)
    (by decide) (by decide) fun _ _ _ => rfl

theorem readExpr_body :
    readExpr (normalize (q.body o.chars)) =
      if q.accessor.levels ≤ Grammar.maxLevels then .ok (q.expr o) else .error .unreadable := by
  have hshallow := o.shallow
  have hlevels : max (q.accessor.others.length + 1) (o.above + 2) ≤ Grammar.maxLevels ↔
      q.accessor.levels ≤ Grammar.maxLevels := by
    rw [Accessor.levels]
    omega
  rw [readExpr_of_reads (q.lexemes o) (q.reads o)]
  simp only [hlevels]

theorem begins (operand : List Char) : Begins (q.body operand) := q.accessor.begins.append _

theorem split_text :
    Lambda.split (q.text o.chars).toList = (q.parameter.map (·.name), q.body o.chars) := by
  rw [text, String.toList_ofList, Lambda.split]
  cases hhead : q.head with
  | none =>
    -- Behind the first name of the field comes a point, a bracket, or the sign, which is no arrow.
    have harrow : arrow? (q.body o.chars) = none := by
      have hsign := noArrow_sign .equalTo q.style (o.begins.gap q.after)
      simpa only [body, List.append_assoc] using q.accessor.arrow?_eq_none (hsign.gap q.before)
    have hnone : Lambda.head? (q.body o.chars) = none := by
      rw [head?_eq_arrow?, (q.begins o.chars).skipOptional_eq, harrow]
    simp only [Option.elim, List.nil_append, hnone, parameter, hhead, Option.map_none]
  | some head =>
    simp only [Option.elim, head.head?_eq, (q.begins o.chars).skipBlanks_eq, parameter, hhead, Option.map_some]

theorem readBody_text :
    readBody (q.text o.chars) =
      if q.accessor.levels ≤ Grammar.maxLevels then .ok (q.parameter.map (·.name), q.expr o)
      else .error .unreadable := by
  obtain ⟨c, r, hcr, hc, -⟩ := q.begins o.chars
  have hblank : (q.body o.chars).all Text.isBlank = false := by
    rw [hcr, List.all_cons, hc, Bool.false_and]
  exact readBody_of_readExpr (q.split_text o) hblank (q.readExpr_body o)

theorem toQuery_expr {setting : Setting} (hp : setting.parameter = q.parameter.map (·.name))
    (hrules : setting.rules = Rule.all) :
    (q.expr o).toQuery setting = .ok (.unary q.field.path (.comparison .equalTo) o.value) := by
  have hrule : setting.rules.contains .comparisons = true := by
    rw [hrules]
    rfl
  have hleaf : Expr.leaf setting .equalTo q.accessor.expr o.expr =
      .ok (.unary q.field.path (.comparison .equalTo) o.value) :=
    Expr.leaf_eq_ok_iff.mpr ⟨_, _, q.field.fieldPath_eq hp, q.field.path_checked, o.constant_eq setting,
      .inl ⟨o.ne_null, rfl⟩⟩
  simp only [expr, Expr.toQuery, hrule, if_true, Expr.compared, q.accessor.expr_isField, hleaf]

/-- The field equals the operand's value, unless the names of its path are too many levels for the grammar. -/
theorem ofText_eq (bindings : List (String × Value)) :
    Query.ofText ⟨none, bindings, Rule.all⟩ (q.text o.chars) =
      if q.accessor.levels ≤ Grammar.maxLevels then .ok (.unary q.field.path (.comparison .equalTo) o.value)
      else .error .unreadable := by
  have hquery : (q.expr o).toQuery
      ((⟨none, bindings, Rule.all⟩ : Setting).withHead (q.parameter.map (·.name))) =
        .ok (.unary q.field.path (.comparison .equalTo) o.value) :=
    q.toQuery_expr o (by cases q.parameter <;> rfl) rfl
  unfold Query.ofText
  rw [q.readBody_text o]
  by_cases hl : q.accessor.levels ≤ Grammar.maxLevels
  · rw [if_pos hl, if_pos hl]
    exact hquery
  · rw [if_neg hl, if_neg hl]
    rfl

end Equation

end DocQuery.Predicate
