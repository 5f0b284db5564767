/-
  DocQuery.Proofs.Predicate.Bindings — what of its bindings a predicate sees.

  A placeholder is looked up by its name, so settings that give every name the same value read every text alike
  (`ofText_agree`). Bindings that are given one after the other are such a setting: of a name's bindings the last
  one counts (`known_reverse`), and that is all there is to it (`Known.agree`).
-/

import DocQuery.Predicate.Text

namespace DocQuery.Predicate

namespace Setting

/-- Settings that tell no text apart. -/
structure Agree (s t : Setting) : Prop where
  parameter : s.parameter = t.parameter
  rules : s.rules = t.rules
  lookup : ∀ name, s.bindings.lookup name = t.bindings.lookup name

theorem Agree.withHead {s t : Setting} (h : s.Agree t) (head : Option String) :
    (s.withHead head).Agree (t.withHead head) where
  parameter := by
    show (head <|> s.parameter) = (head <|> t.parameter)
    rw [h.parameter]
  rules := h.rules
  lookup := h.lookup

/-- A setting with a parameter, all rules, and bindings given one after the other. -/
structure Known (parameter : Option String) (bindings : List (String × Value)) (s : Setting) : Prop where
  parameter : s.parameter = parameter
  rules : s.rules = Rule.all
  last : ∀ front back name v, bindings = front ++ (name, v) :: back → name ∉ back.map Prod.fst →
    s.bindings.lookup name = some v
  unbound : ∀ name, name ∉ bindings.map Prod.fst → s.bindings.lookup name = none

variable {parameter : Option String} {bindings : List (String × Value)} {s t : Setting}

theorem lookup_eq_none {name : String} {bindings : List (String × Value)} (h : name ∉ bindings.map Prod.fst) :
    bindings.lookup name = none := by
  rw [List.lookup_eq_none_iff]
  intro p hp
  exact bne_iff_ne.mpr fun e => h (e ▸ List.mem_map_of_mem hp)

/-- The value of a name is what its last binding says. -/
theorem Known.lookup_eq (h : Known parameter bindings s) (name : String) :
    s.bindings.lookup name = bindings.reverse.lookup name := by
  cases hlast : bindings.reverse.lookup name with
  | none =>
    refine h.unbound name fun hm => ?_
    obtain ⟨p, hp, rfl⟩ := List.mem_map.mp hm
    have hne := List.lookup_eq_none_iff.mp hlast p (List.mem_reverse.mpr hp)
    exact bne_iff_ne.mp hne rfl
  | some v =>
    obtain ⟨back, front, hsplit, hback⟩ := List.lookup_eq_some_iff.mp hlast
    refine h.last front.reverse back.reverse name v ?_ ?_
    · rw [← List.reverse_reverse bindings, hsplit]
      simp
    · intro hm
      obtain ⟨p, hp, hname⟩ := List.mem_map.mp hm
      exact bne_iff_ne.mp (hback p (List.mem_reverse.mp hp)) hname.symm

theorem Known.agree (h : Known parameter bindings s) (h' : Known parameter bindings t) : s.Agree t where
  parameter := h.parameter.trans h'.parameter.symm
  rules := h.rules.trans h'.rules.symm
  lookup := by
    intro name
    rw [h.lookup_eq, h'.lookup_eq]

theorem known_reverse (parameter : Option String) (bindings : List (String × Value)) :
    Known parameter bindings ⟨parameter, bindings.reverse, Rule.all⟩ where
  parameter := rfl
  rules := rfl
  last := by
    intro front back name v hsplit hback
    have hnone : back.reverse.lookup name = none :=
      lookup_eq_none fun hm => hback (by rwa [List.map_reverse, List.mem_reverse] at hm)
    -- Reversed, what comes after the last binding comes first and does not have the name.
    rw [hsplit, List.reverse_append, List.reverse_cons, List.append_assoc, List.lookup_append, hnone]
    simp
  unbound := by
    intro name h
    exact lookup_eq_none fun hm => h (by rwa [List.map_reverse, List.mem_reverse] at hm)

end Setting

/-! ## Readings -/

namespace Expr

variable {s t : Setting}

theorem fieldPath_agree (h : s.Agree t) (e : Expr) : e.fieldPath s = e.fieldPath t := by
  unfold fieldPath
  rw [h.parameter]

theorem literalValue_agree (h : s.Agree t) (l : Literal) : literalValue s l = literalValue t l := by
  cases l with
  | placeholder p =>
    simp only [literalValue, h.lookup]
  | _ => rfl

theorem constant_agree (h : s.Agree t) (e : Expr) : e.constant s = e.constant t := by
  induction e with
  | literal l => exact literalValue_agree h l
  | nested inner ih => exact ih
  | negative operand ih =>
    unfold constant
    rw [ih]
  | _ => rfl

theorem leaf_agree (h : s.Agree t) (c : Comparison) (field value : Expr) :
    leaf s c field value = leaf t c field value := by
  unfold leaf
  rw [fieldPath_agree h, constant_agree h]

theorem compared_agree (h : s.Agree t) (c : Comparison) (left right : Expr) :
    compared s c left right = compared t c left right := by
  unfold compared
  rw [leaf_agree h, leaf_agree h]

theorem toQuery_agree (h : s.Agree t) (e : Expr) : e.toQuery s = e.toQuery t := by
  induction e with
  | nested inner ih =>
    unfold toQuery
    rw [h.rules, ih]
  | connective c left right ihl ihr =>
    unfold toQuery
    rw [h.rules, ihl, ihr]
  | isNull operand =>
    unfold toQuery
    rw [h.rules, fieldPath_agree h]
  | isNotNull operand =>
    unfold toQuery
    rw [h.rules, fieldPath_agree h]
  | comparison c left right =>
    unfold toQuery
    rw [h.rules, compared_agree h]
  | _ => rfl

end Expr

theorem ofText_agree {s t : Setting} (h : s.Agree t) (text : String) : Query.ofText s text = Query.ofText t text := by
  unfold Query.ofText
  refine congrArg (readBody text).bind (funext fun body => ?_)
  exact Expr.toQuery_agree (h.withHead body.1) body.2

end DocQuery.Predicate
