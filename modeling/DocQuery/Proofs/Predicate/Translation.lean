/-
  DocQuery.Proofs.Predicate.Translation — which expressions ask for a query, and for which one.

  Said without the reader: a field accessor is a chain of names below the document (`Accesses`), a constant is
  a literal with a value, parentheses and minus signs apart (`Denotes`), and a null test or a comparison of
  the one with the other asks for a leaf (`Asks`). An expression translates to the query that has a leaf in the
  place of each of these and is connected alike (`Translates`). Every expression that translates is read as its
  query, and no other is read (`toQuery_exactly`). The least of the integers has no negative: with a sign in front it
  is no constant, or, where `overflow` is granted, one of which nothing is said.
-/

import DocQuery.Predicate.Text
import DocQuery.Proofs.Outcome
import DocQuery.Proofs.Statement.Leaf

namespace DocQuery.Predicate.Expr

/-! ## What expressions ask for -/

/-- The expression is a chain of these names, in which subscripts are numbers. -/
inductive Names : Expr → List String → Prop
  | name (text : String) (quote : Option Char) : Names (.name text quote) [text]
  | member {base part : Expr} {front back : List String} :
      Names base front → Names part back → Names (.member base part) (front ++ back)
  | index {base : Expr} {names : List String} (digits : String) (long : Bool) :
      Names base names → Names (.index base (.literal (.number digits long))) names

/-- Below the document are all the names, or those after the document's own, if that is in front. -/
inductive Below (parameter : Option String) : List String → List String → Prop
  | plain {names : List String} : (∀ p, parameter = some p → names.head? ≠ some p) → Below parameter names names
  | parameter {p : String} {names : List String} : parameter = some p → names ≠ [] → Below parameter (p :: names) names

/-- The expression is an accessor of the field at this path, which is not blank. -/
def Accesses (parameter : Option String) (e : Expr) (path : String) : Prop :=
  ∃ names below, Names e names ∧ Below parameter names below ∧ path = Path.dotted below ∧ Text.allBlank path = false

/-- The literal stands for this value. -/
inductive Stands (bindings : List (String × Value)) : Literal → Value → Prop
  | integer {digits : String} {n : Int64} (long : Bool) :
      Decimal.int64? digits = some n → Stands bindings (.number digits long) (.integer n)
  | float {digits : String} {x : Float} (long : Bool) :
      Decimal.int64? digits = none → Decimal.float? digits = some x → Stands bindings (.number digits long) (.float x)
  | text (s : String) : Stands bindings (.text s) (.text s)
  | boolean (b : Bool) : Stands bindings (.boolean b) (.boolean b)
  | null : Stands bindings .null .null
  | bound {placeholder : String} {v : Value} :
      bindings.lookup (bindingName placeholder) = some v → Stands bindings (.placeholder placeholder) v

section
variable (overflow : Prop) (parameter : Option String) (bindings : List (String × Value))

/-- The expression is a constant of this value. -/
inductive Denotes : Expr → Value → Prop
  | literal {l : Literal} {v : Value} : Stands bindings l v → Denotes (.literal l) v
  | nested {inner : Expr} {v : Value} : Denotes inner v → Denotes (.nested inner) v
  | negativeInteger {operand : Expr} {n : Int64} :
      Denotes operand (.integer n) → n ≠ Int64.minValue → Denotes (.negative operand) (.integer (-n))
  | negativeFloat {operand : Expr} {x : Float} : Denotes operand (.float x) → Denotes (.negative operand) (.float (-x))
  | overflow {operand : Expr} {v : Value} :
      overflow → Denotes operand (.integer Int64.minValue) → Denotes (.negative operand) v

/-- A field compared with a constant asks for this leaf: with null only whether it is the same. -/
inductive Compares : Comparison → Expr → Expr → Query → Prop
  | value {c : Comparison} {field constant : Expr} {path : String} {v : Value} :
      Accesses parameter field path → Denotes overflow bindings constant v → v ≠ .null →
      Compares c field constant (.unary path (.comparison c) v)
  | null {field constant : Expr} {path : String} :
      Accesses parameter field path → Denotes overflow bindings constant .null → Compares .equalTo field constant (.isNull path)
  | notNull {field constant : Expr} {path : String} :
      Accesses parameter field path → Denotes overflow bindings constant .null →
      Compares .notEqualTo field constant (.isNotNull path)

/-- The expression asks for this leaf. The field may stand on either side. -/
inductive Asks : Expr → Query → Prop
  | isNull {field : Expr} {path : String} : Accesses parameter field path → Asks (.isNull field) (.isNull path)
  | isNotNull {field : Expr} {path : String} : Accesses parameter field path → Asks (.isNotNull field) (.isNotNull path)
  | fieldLeft {c : Comparison} {left right : Expr} {q : Query} :
      Compares overflow parameter bindings c left right q → Asks (.comparison c left right) q
  | fieldRight {c : Comparison} {left right : Expr} {q : Query} :
      Compares overflow parameter bindings c.mirrored right left q → Asks (.comparison c left right) q

/-- The expression without its parentheses has the shape of this query, leaf for leaf. -/
inductive Translates : Expr → Query → Prop
  | leaf {e : Expr} {q : Query} : Asks overflow parameter bindings e q → Translates e q
  | nested {inner : Expr} {q : Query} : Translates inner q → Translates (.nested inner) q
  | connective {c : Connective} {left right : Expr} {p q : Query} :
      Translates left p → Translates right q → Translates (.connective c left right) (.binary c p q)

end

/-- The parts that stand between connectives and parentheses, from left to right. -/
def parts : Expr → List Expr
  | nested inner => inner.parts
  | connective _ left right => left.parts ++ right.parts
  | e => [e]

/-! ## Fields -/

theorem segments_eq_ok_iff {e : Expr} {names : List String} : e.segments = .ok names ↔ Names e names := by
  constructor
  · intro h
    induction e generalizing names with
    | name text quote =>
      cases h
      exact .name text quote
    | member base part ihb ihp =>
      obtain ⟨front, hfront, h⟩ := Except.bind_eq_ok.mp h
      obtain ⟨back, hback, h⟩ := Except.bind_eq_ok.mp h
      cases h
      exact .member (ihb hfront) (ihp hback)
    | index base subscript ih _ =>
      obtain ⟨front, hfront, h⟩ := Except.bind_eq_ok.mp h
      unfold isNumber at h
      split at h
      · cases h
        exact .index _ _ (ih hfront)
      · cases h
    | slice base bounds ih =>
      obtain ⟨front, -, h⟩ := Except.bind_eq_ok.mp h
      cases h
    | _ => cases h
  · intro h
    induction h with
    | name => rfl
    | member _ _ ihb ihp =>
      rw [segments, ihb, ihp]
      rfl
    | index digits long _ ih =>
      rw [segments, ih]
      rfl

theorem withoutParameter_eq_ok_iff {parameter : Option String} {names below : List String} :
    withoutParameter parameter names = .ok below ↔ Below parameter names below := by
  constructor
  · intro h
    unfold withoutParameter at h
    split at h
    · rename_i p first others
      split_ifs at h with hne hempty
      · cases h
        refine .plain fun p' hp' hhead => ?_
        cases hp'
        cases hhead
        simp at hne
      · cases h
        have hp : first = p := by simpa using hne
        exact hp ▸ .parameter rfl (by simpa using hempty)
    · rename_i hcases
      cases h
      refine .plain fun p hp hhead => ?_
      obtain ⟨others, rfl⟩ := List.head?_eq_some_iff.mp hhead
      exact hcases p p others hp rfl
  · intro h
    cases h with
    | plain hhead =>
      unfold withoutParameter
      split
      · rename_i p first others
        rw [if_pos (by simpa using hhead p rfl)]
      · rfl
    | parameter hp hne => simp [withoutParameter, hp, hne]

theorem fieldPath_eq_ok_iff {setting : Setting} {e : Expr} {path : String} :
    e.fieldPath setting = .ok path ∧ Query.checkField path = .ok () ↔ Accesses setting.parameter e path := by
  have hcheck : Query.checkField path = .ok () ↔ Text.allBlank path = false := by
    cases h : Text.allBlank path <;> simp [Query.checkField, h]
  rw [hcheck]
  constructor
  · rintro ⟨h, hblank⟩
    obtain ⟨names, hnames, h⟩ := Except.bind_eq_ok.mp h
    obtain ⟨below, hbelow, h⟩ := Except.bind_eq_ok.mp h
    cases h
    exact ⟨names, below, segments_eq_ok_iff.mp hnames, withoutParameter_eq_ok_iff.mp hbelow, rfl, hblank⟩
  · rintro ⟨names, below, hnames, hbelow, rfl, hblank⟩
    refine ⟨?_, hblank⟩
    rw [fieldPath, segments_eq_ok_iff.mpr hnames]
    show (withoutParameter setting.parameter names).bind _ = _
    rw [withoutParameter_eq_ok_iff.mpr hbelow]
    rfl

theorem Accesses.isField {parameter : Option String} {e : Expr} {path : String} (h : Accesses parameter e path) :
    e.isField = true := by
  obtain ⟨names, -, hnames, -⟩ := h
  cases hnames <;> rfl

/-! ## Constants -/

section
variable {bindings : List (String × Value)} {setting : Setting} {e : Expr} {v : Value}

theorem literalValue_eq_ok_iff {l : Literal} : literalValue setting l = .ok v ↔ Stands setting.bindings l v := by
  constructor
  · intro h
    cases l with
    | number digits long =>
      simp only [literalValue, numberValue] at h
      split at h
      · rename_i n hn
        cases h
        exact .integer long hn
      · rename_i hn
        split at h
        · rename_i x hx
          cases h
          exact .float long hn hx
        · cases h
    | text s => cases h; exact .text s
    | boolean b => cases h; exact .boolean b
    | null => cases h; exact .null
    | placeholder p =>
      simp only [literalValue] at h
      split at h
      · rename_i w hw
        cases h
        exact .bound hw
      · cases h
    | marked mark s => cases h
    | dollar tag s => cases h
  · intro h
    cases h with
    | integer long hn => simp only [literalValue, numberValue, hn]
    | float long hn hx => simp only [literalValue, numberValue, hn, hx]
    | text s => rfl
    | boolean b => rfl
    | null => rfl
    | bound hv => simp only [literalValue, hv]

theorem Denotes.constant_eq (h : Denotes False setting.bindings e v) : e.constant setting = .ok v := by
  induction h with
  | literal h => exact literalValue_eq_ok_iff.mpr h
  | nested _ ih => exact ih
  | negativeInteger _ _ ih =>
    rw [constant, ih]
    rfl
  | negativeFloat _ ih =>
    rw [constant, ih]
    rfl
  | overflow hfalse => exact hfalse.elim

theorem denotes_of_constant_eq (h : e.constant setting = .ok v) : Denotes True setting.bindings e v := by
  induction e generalizing v with
  | literal l => exact .literal (literalValue_eq_ok_iff.mp h)
  | nested inner ih => exact .nested (ih h)
  | negative operand ih =>
    obtain ⟨w, hw, h⟩ := Except.bind_eq_ok.mp h
    have hoperand := ih hw
    cases w with
    | integer n =>
      cases h
      by_cases hmin : n = Int64.minValue
      · exact .overflow trivial (hmin ▸ hoperand)
      · exact .negativeInteger hoperand hmin
    | float x =>
      cases h
      exact .negativeFloat hoperand
    | _ => cases h
  | _ => cases h

theorem Denotes.not_isField {overflow : Prop} (h : Denotes overflow bindings e v) : e.isField = false := by
  cases h <;> rfl

end

/-! ## Leaves -/

section
variable {setting : Setting} {c : Comparison} {left right field constant e : Expr} {q : Query}

theorem leaf_eq_ok_iff : leaf setting c field constant = .ok q ↔
    ∃ path v, field.fieldPath setting = .ok path ∧ Query.checkField path = .ok () ∧ constant.constant setting = .ok v ∧
      ((v ≠ .null ∧ q = .unary path (.comparison c) v) ∨ (v = .null ∧ c = .equalTo ∧ q = .isNull path) ∨
        (v = .null ∧ c = .notEqualTo ∧ q = .isNotNull path)) := by
  constructor
  · intro h
    obtain ⟨path, hpath, h⟩ := Except.bind_eq_ok.mp h
    obtain ⟨v, hv, h⟩ := Except.bind_eq_ok.mp h
    refine ⟨path, v, hpath, ?_⟩
    cases v with
    | null =>
      cases c with
      | equalTo =>
        obtain ⟨⟨⟩, hcheck, h⟩ := Except.bind_eq_ok.mp h
        cases h
        exact ⟨hcheck, hv, .inr (.inl ⟨rfl, rfl, rfl⟩)⟩
      | notEqualTo =>
        obtain ⟨⟨⟩, hcheck, h⟩ := Except.bind_eq_ok.mp h
        cases h
        exact ⟨hcheck, hv, .inr (.inr ⟨rfl, rfl, rfl⟩)⟩
      | _ => cases h
    | _ =>
      obtain ⟨⟨⟩, hcheck, h⟩ := Except.bind_eq_ok.mp h
      cases h
      exact ⟨hcheck, hv, .inl ⟨nofun, rfl⟩⟩
  · rintro ⟨path, v, hpath, hcheck, hv, h⟩
    unfold leaf
    rw [hpath, hv]
    show (if v.isNull then nullLeaf c path else Query.compare c path v) = _
    rcases h with ⟨hne, rfl⟩ | ⟨rfl, rfl, rfl⟩ | ⟨rfl, rfl, rfl⟩
    · have hnull : v.isNull = false := by
        cases v with
        | null => exact absurd rfl hne
        | _ => rfl
      simp only [hnull, Bool.false_eq_true, if_false, Query.compare, Query.checkedUnary, hcheck]
      rfl
    · simp only [Value.isNull, if_true, nullLeaf, Query.checkedIsNull, hcheck]
      rfl
    · simp only [Value.isNull, if_true, nullLeaf, Query.checkedIsNotNull, hcheck]
      rfl

theorem Compares.leaf_eq (h : Compares False setting.parameter setting.bindings c field constant q) :
    leaf setting c field constant = .ok q := by
  cases h with
  | value hfield hconstant hv =>
    obtain ⟨hpath, hcheck⟩ := fieldPath_eq_ok_iff.mpr hfield
    exact leaf_eq_ok_iff.mpr ⟨_, _, hpath, hcheck, hconstant.constant_eq, .inl ⟨hv, rfl⟩⟩
  | null hfield hconstant =>
    obtain ⟨hpath, hcheck⟩ := fieldPath_eq_ok_iff.mpr hfield
    exact leaf_eq_ok_iff.mpr ⟨_, _, hpath, hcheck, hconstant.constant_eq, .inr (.inl ⟨rfl, rfl, rfl⟩)⟩
  | notNull hfield hconstant =>
    obtain ⟨hpath, hcheck⟩ := fieldPath_eq_ok_iff.mpr hfield
    exact leaf_eq_ok_iff.mpr ⟨_, _, hpath, hcheck, hconstant.constant_eq, .inr (.inr ⟨rfl, rfl, rfl⟩)⟩

theorem compares_of_leaf_eq (h : leaf setting c field constant = .ok q) :
    Compares True setting.parameter setting.bindings c field constant q := by
  obtain ⟨path, v, hpath, hcheck, hv, hq⟩ := leaf_eq_ok_iff.mp h
  have hfield := fieldPath_eq_ok_iff.mp ⟨hpath, hcheck⟩
  have hconstant := denotes_of_constant_eq hv
  rcases hq with ⟨hne, rfl⟩ | ⟨rfl, rfl, rfl⟩ | ⟨rfl, rfl, rfl⟩
  · exact .value hfield hconstant hne
  · exact .null hfield hconstant
  · exact .notNull hfield hconstant

theorem Compares.sides {overflow : Prop} {parameter : Option String} {bindings : List (String × Value)}
    (h : Compares overflow parameter bindings c field constant q) : field.isField = true ∧ constant.isField = false := by
  cases h with
  | value hfield hconstant _ => exact ⟨hfield.isField, hconstant.not_isField⟩
  | null hfield hconstant => exact ⟨hfield.isField, hconstant.not_isField⟩
  | notNull hfield hconstant => exact ⟨hfield.isField, hconstant.not_isField⟩

/-- The side that is an accessor is the field, so the side that is looked at first does not matter. -/
theorem compared_eq (h : Compares False setting.parameter setting.bindings c left right q ∨
    Compares False setting.parameter setting.bindings c.mirrored right left q) : compared setting c left right = .ok q := by
  rcases h with h | h
  · rw [compared, if_pos h.sides.1, h.leaf_eq]
  · rw [compared, h.sides.2, if_neg Bool.false_ne_true, if_pos h.sides.1, h.leaf_eq]

theorem asks_of_compared_eq (h : compared setting c left right = .ok q) :
    Asks True setting.parameter setting.bindings (.comparison c left right) q := by
  unfold compared at h
  split_ifs at h
  · exact .fieldLeft (compares_of_leaf_eq h)
  · exact .fieldRight (compares_of_leaf_eq h)

end

/-! ## Expressions -/

section
variable {setting : Setting} (hrules : ∀ rule, setting.rules.contains rule = true) {e : Expr} {q : Query}
include hrules

theorem Asks.toQuery_eq (h : Asks False setting.parameter setting.bindings e q) : e.toQuery setting = .ok q := by
  cases h with
  | isNull hfield =>
    obtain ⟨hpath, hcheck⟩ := fieldPath_eq_ok_iff.mpr hfield
    simp only [toQuery, hrules, if_true, hpath]
    show Query.checkedIsNull _ = _
    simp only [Query.checkedIsNull, hcheck]
    rfl
  | isNotNull hfield =>
    obtain ⟨hpath, hcheck⟩ := fieldPath_eq_ok_iff.mpr hfield
    simp only [toQuery, hrules, if_true, hpath]
    show Query.checkedIsNotNull _ = _
    simp only [Query.checkedIsNotNull, hcheck]
    rfl
  | fieldLeft h => simp only [toQuery, hrules, if_true, compared_eq (.inl h)]
  | fieldRight h => simp only [toQuery, hrules, if_true, compared_eq (.inr h)]

theorem Translates.toQuery_eq (h : Translates False setting.parameter setting.bindings e q) :
    e.toQuery setting = .ok q := by
  induction h with
  | leaf h => exact h.toQuery_eq hrules
  | nested _ ih => simp only [toQuery, hrules, if_true, ih]
  | connective _ _ ihl ihr =>
    simp only [toQuery, hrules, if_true, ihl, ihr]
    rfl

theorem translates_of_toQuery_eq (h : e.toQuery setting = .ok q) :
    Translates True setting.parameter setting.bindings e q := by
  induction e generalizing q with
  | nested inner ih =>
    simp only [toQuery, hrules, if_true] at h
    exact .nested (ih h)
  | connective c left right ihl ihr =>
    simp only [toQuery, hrules, if_true] at h
    obtain ⟨l, hl, h⟩ := Except.bind_eq_ok.mp h
    obtain ⟨r, hr, h⟩ := Except.bind_eq_ok.mp h
    cases h
    exact .connective (ihl hl) (ihr hr)
  | comparison c left right _ _ =>
    simp only [toQuery, hrules, if_true] at h
    exact .leaf (asks_of_compared_eq h)
  | isNull operand _ =>
    simp only [toQuery, hrules, if_true] at h
    obtain ⟨path, hpath, h⟩ := Except.bind_eq_ok.mp h
    obtain ⟨⟨⟩, hcheck, h⟩ := Except.bind_eq_ok.mp h
    cases h
    exact .leaf (.isNull (fieldPath_eq_ok_iff.mp ⟨hpath, hcheck⟩))
  | isNotNull operand _ =>
    simp only [toQuery, hrules, if_true] at h
    obtain ⟨path, hpath, h⟩ := Except.bind_eq_ok.mp h
    obtain ⟨⟨⟩, hcheck, h⟩ := Except.bind_eq_ok.mp h
    cases h
    exact .leaf (.isNotNull (fieldPath_eq_ok_iff.mp ⟨hpath, hcheck⟩))
  | _ => cases h

end

section
variable {overflow : Prop} {parameter : Option String} {bindings : List (String × Value)} {e : Expr} {q : Query}

/-- The leaf of the query that an expression asks for. -/
def AsksLeaf (overflow : Prop) (parameter : Option String) (bindings : List (String × Value)) (e : Expr)
    (l : Query.Leaf) : Prop :=
  ∃ q, Asks overflow parameter bindings e q ∧ q.leaves = [l]

theorem Compares.leaves {c : Comparison} {field constant : Expr}
    (h : Compares overflow parameter bindings c field constant q) : ∃ l, q.leaves = [l] := by
  cases h with
  | value => exact ⟨_, rfl⟩
  | null => exact ⟨_, rfl⟩
  | notNull => exact ⟨_, rfl⟩

theorem Asks.single (h : Asks overflow parameter bindings e q) : e.parts = [e] ∧ ∃ l, q.leaves = [l] := by
  cases h with
  | isNull => exact ⟨rfl, _, rfl⟩
  | isNotNull => exact ⟨rfl, _, rfl⟩
  | fieldLeft h => exact ⟨rfl, h.leaves⟩
  | fieldRight h => exact ⟨rfl, h.leaves⟩

/-- The leaves are those that the parts ask for, one of each and in their order. -/
theorem Translates.leaves (h : Translates overflow parameter bindings e q) :
    List.Forall₂ (AsksLeaf overflow parameter bindings) e.parts q.leaves := by
  induction h with
  | leaf h =>
    obtain ⟨hparts, l, hl⟩ := h.single
    rw [hparts, hl]
    exact .cons ⟨_, h, hl⟩ .nil
  | nested _ ih => exact ih
  | connective _ _ ihl ihr => exact List.rel_append ihl ihr

end

/-- With every rule in force, exactly the expressions that translate are read, each as the query it translates
to, whose leaves are what the parts of the expression ask for, in their order. An expression may be read besides
that would translate if a sign before the least of the integers came to some value. -/
theorem toQuery_exactly (parameter : Option String) (bindings : List (String × Value)) (e : Expr) :
    (∀ q, Translates False parameter bindings e q →
      e.toQuery ⟨parameter, bindings, Rule.all⟩ = .ok q ∧
        List.Forall₂ (AsksLeaf False parameter bindings) e.parts q.leaves) ∧
    ∀ q, e.toQuery ⟨parameter, bindings, Rule.all⟩ = .ok q → Translates True parameter bindings e q := by
  have hrules : ∀ rule, (⟨parameter, bindings, Rule.all⟩ : Setting).rules.contains rule = true := by
    intro rule
    cases rule <;> rfl
  exact ⟨fun q h => ⟨Translates.toQuery_eq hrules h, h.leaves⟩, fun q h => translates_of_toQuery_eq hrules h⟩

/-- With the field on the right the comparison is turned round. -/
theorem mixed_translated :
    ∃ e, readBody "p => (0 < p.Score AND p.Title IS NOT NULL) OR p.Tag = :tag" = .ok (some "p", e) ∧
      e.toQuery ⟨some "p", [("tag", .text "x")], Rule.all⟩ = .ok (.binary .or
        (.binary .and (.unary "Score" (.comparison .greaterThan) (.integer 0)) (.isNotNull "Title"))
        (.unary "Tag" (.comparison .equalTo) (.text "x"))) := by
  have hfield : ∀ name, Text.allBlank name = false →
      Accesses (some "p") (.member (.name "p" none) (.name name none)) name := fun name hname =>
    ⟨["p", name], [name], .member (.name _ _) (.name _ _), .parameter rfl (by simp), by simp [Path.dotted], hname⟩
  have htag : Denotes False [("tag", .text "x")] (.literal (.placeholder ":tag")) (.text "x") := .literal (.bound rfl)
  refine ⟨.connective .or
    (.nested (.connective .and
      (.comparison .lessThan (.literal (.number "0" false)) (.member (.name "p" none) (.name "Score" none)))
      (.isNotNull (.member (.name "p" none) (.name "Title" none)))))
    (.comparison .equalTo (.member (.name "p" none) (.name "Tag" none)) (.literal (.placeholder ":tag"))),
    by decide +kernel, ((toQuery_exactly _ _ _).1 _ ?_).1⟩
  refine .connective (.nested (.connective (.leaf (.fieldRight ?_)) (.leaf (.isNotNull ?_)))) (.leaf (.fieldLeft ?_))
  · exact .value (hfield "Score" rfl) (.literal (.integer false rfl)) nofun
  · exact hfield "Title" rfl
  · exact .value (hfield "Tag" rfl) htag nofun

/-- A number may be written that has no value. -/
theorem grouped_digits_refused :
    readBody "F = 1_000" = .ok (none, .comparison .equalTo (.name "F" none) (.literal (.number "1_000" false))) ∧
      Accesses none (.name "F" none) "F" ∧ Query.ofText .empty "F = 1_000" = .error (.number "1_000") := by
  exact ⟨by rfl, ⟨["F"], ["F"], .name "F" none, .plain nofun, rfl, rfl⟩, by rfl⟩

end DocQuery.Predicate.Expr
