/-
  DocQuery.Proofs.Predicate.Meaning — a predicate's expression asks for its query.

  Fields lose the document's name and nothing else (`Accessor.fieldPath_eq`), constants are what they
  were written from (`Constant.constant_eq`), and the sides of a comparison come back in order
  (`Comparing.toQuery_eq`). `Phrase.toQuery_eq` is the induction.
-/

import DocQuery.Proofs.Predicate.Normalizing
import DocQuery.Proofs.Predicate.Operands

namespace DocQuery.Predicate

/-! ## Fields -/

theorem segments_chain {base : Expr} {names : List String} (h : base.segments = .ok names) (gs : List Segment) :
    (chain base gs).segments = .ok (names ++ gs.map (·.name)) := by
  induction gs generalizing base names with
  | nil => rw [List.map_nil, List.append_nil]; exact h
  | cons g gs ih =>
    have hmember : (Expr.member base (.name g.name none)).segments = .ok (names ++ [g.name]) := by
      rw [Expr.segments, h]
      rfl
    rw [List.map_cons, List.append_cons]
    exact ih hmember

section
variable {parameter : Option Identifier} {setting : Setting} (hp : setting.parameter = parameter.map (·.name))
include hp

theorem Accessor.fieldPath_eq (a : Accessor) : (a.under parameter).expr.fieldPath setting = .ok a.path := by
  cases parameter with
  | none =>
    have hsegments : (a.under none).expr.segments = .ok (a.first.name :: a.others.map (·.name)) :=
      segments_chain (rfl : (Expr.name a.first.name none).segments = .ok [a.first.name]) a.others
    rw [Expr.fieldPath, hsegments, hp]
    rfl
  | some p =>
    have hsegments : (a.under (some p)).expr.segments = .ok (p.name :: a.first.name :: a.others.map (·.name)) :=
      segments_chain (rfl : (Expr.name p.name none).segments = .ok [p.name]) (a.first :: a.others)
    rw [Expr.fieldPath, hsegments, hp]
    show (Expr.withoutParameter (some p.name) (p.name :: a.first.name :: a.others.map (·.name))).bind _ = _
    simp only [Expr.withoutParameter, bne_self_eq_false, Bool.false_eq_true, if_false, List.isEmpty_cons]
    rfl

end

theorem Accessor.expr_isField (a : Accessor) : a.expr.isField = true := by
  have h : ∀ (gs : List Segment) (base : Expr), base.isField = true → (chain base gs).isField = true := by
    intro gs
    induction gs with
    | nil => exact fun _ h => h
    | cons g gs ih => exact fun base _ => ih (.member base (.name g.name none)) rfl
  exact h a.others _ rfl

theorem Accessor.path_checked (a : Accessor) : Query.checkField a.path = .ok () := by
  obtain ⟨c, r, hcr, hc⟩ := a.first.identifier.wordlike.opens
  have hfirst : c ∈ a.first.name.toList := by
    rw [show a.first.name.toList = c :: r from hcr]
    exact List.mem_cons_self
  have hmem : c ∈ a.path.toList := by
    rw [path, Path.toList_dotted, List.map_cons]
    cases (a.others.map (·.name)).map String.toList with
    | nil => simpa [List.intercalate] using hfirst
    | cons l ls => simp [List.intercalate, hfirst]
  have hblank : Text.allBlank a.path = false := by
    refine List.all_eq_false.mpr ⟨c, hmem, ?_⟩
    simp [Name.not_blank_of_isPart (Name.isPart_of_isStart hc)]
  simp only [Query.checkField, hblank, Bool.false_eq_true, if_false]

/-! ## Constants -/

theorem int64?_toDigits {n : Nat} (h : n ≤ 9223372036854775807) :
    Decimal.int64? (String.ofList (Nat.toDigits 10 n)) = some (Int64.ofInt n) := by
  have hsigned : Decimal.signed (Nat.toDigits 10 n) = (false, Nat.toDigits 10 n) := by
    obtain ⟨d, r, hdr, hd, -⟩ := Decimal.toDigits_cons n
    rw [hdr]
    exact Decimal.signed_digit hd r
  have hnatural : Decimal.natural? (Nat.toDigits 10 n) = some n := by
    have hall : (Nat.toDigits 10 n).all Char.isDigit = true := List.all_eq_true.mpr (Decimal.digits_isDigit n)
    simp [Decimal.natural?, hall, Decimal.ofDigits_toDigits]
  have hfits : Decimal.fitsInt64 n = true := by
    simp only [Decimal.fitsInt64, Bool.and_eq_true, decide_eq_true_eq]
    omega
  simp only [Decimal.int64?, Decimal.integer?, String.toList_ofList, hsigned, hnatural, Option.map_some,
    Decimal.applySign, Bool.false_eq_true, if_false, hfits, if_true]

theorem natAbs_le {n : Int64} (h : n ≠ Int64.minValue) : n.toInt.natAbs ≤ 9223372036854775807 := by
  have hne : n.toInt ≠ -2 ^ 63 := by
    rw [← Int64.toInt_minValue]
    exact fun e => h (Int64.toInt_inj.mp e)
  have hlow := n.le_toInt
  have hhigh := n.toInt_lt
  omega

theorem Constant.constant_eq (c : Constant) (setting : Setting) : c.expr.constant setting = .ok c.value := by
  cases c with
  | null w => rfl
  | boolean b w => rfl
  | integer n hn =>
    have hnumber : (Expr.literal (number n)).constant setting = .ok (.integer (Int64.ofInt n.toInt.natAbs)) := by
      simp only [Expr.constant, number, Expr.literalValue, Expr.numberValue, digits, int64?_toDigits (natAbs_le hn)]
    by_cases hneg : n < 0
    · have habs : -Int64.ofInt n.toInt.natAbs = n := by
        have hlt : n.toInt < 0 := Int64.lt_iff_toInt_lt.mp hneg
        rw [← Int64.ofInt_neg, Int.ofNat_natAbs_of_nonpos (by omega), Int.neg_neg, Int64.ofInt_toInt]
      simp only [expr, if_pos hneg, value]
      rw [Expr.constant, hnumber]
      show Expr.negated (.integer (Int64.ofInt n.toInt.natAbs)) = _
      rw [Expr.negated, habs]
    · have habs : Int64.ofInt n.toInt.natAbs = n := by
        have hle : 0 ≤ n.toInt := by
          have := mt Int64.lt_iff_toInt_lt.mpr hneg
          simpa using this
        rw [Int.natAbs_of_nonneg hle, Int64.ofInt_toInt]
      simp only [expr, if_neg hneg, value]
      rw [hnumber, habs]
  | text t quotes => rfl

theorem Constant.expr_not_isField (c : Constant) : c.expr.isField = false := by
  cases c with
  | null w => rfl
  | boolean b w => rfl
  | integer n hn => by_cases hneg : n < 0 <;> simp [expr, hneg, Expr.isField]
  | text t quotes => rfl

/-! ## Predicates -/

section
variable {parameter : Option Identifier} {setting : Setting} (hp : setting.parameter = parameter.map (·.name))
include hp

theorem leaf_eq (c : Comparing) :
    Expr.leaf setting c.comparison (c.field.under parameter).expr c.constant.expr = .ok c.query := by
  have hpath := c.field.fieldPath_eq hp
  have hvalue := c.constant.constant_eq setting
  have hcheck := c.field.path_checked
  have horder := c.orderless
  unfold Expr.leaf Comparing.query
  rw [hpath, hvalue]
  show (if c.constant.value.isNull then Expr.nullLeaf c.comparison c.field.path
    else Query.compare c.comparison c.field.path c.constant.value) = _
  cases hv : c.constant.value with
  | null =>
    rcases horder hv with he | he
    · simp only [he, Value.isNull, if_true, Expr.nullLeaf, Query.checkedIsNull, hcheck]
      rfl
    · simp only [he, Value.isNull, if_true, Expr.nullLeaf, Query.checkedIsNotNull, hcheck]
      rfl
  | _ =>
    simp only [Value.isNull, Bool.false_eq_true, if_false, Query.compare, Query.checkedUnary, hcheck]
    rfl

/-- On whichever side the field stands, the comparison is the one with the field on the left. -/
theorem Comparing.toQuery_eq (hrule : setting.rules.contains .comparisons = true) (c : Comparing) :
    ((Phrase.comparison c).expr parameter).toQuery setting = .ok c.query := by
  have hleaf := leaf_eq hp c
  have hfield : (c.field.under parameter).expr.isField = true := (c.field.under parameter).expr_isField
  by_cases hf : c.fieldFirst = true
  · have hwritten : c.written = c.comparison := if_pos hf
    simp only [Phrase.expr, if_pos hf, Expr.toQuery, hrule, if_true, Expr.compared, hfield, hwritten, hleaf]
  · have hwritten : c.written.mirrored = c.comparison := by
      rw [written, if_neg hf, Comparison.mirrored_mirrored]
    simp only [Phrase.expr, if_neg hf, Expr.toQuery, hrule, if_true, Expr.compared, hfield, c.constant.expr_not_isField,
      Bool.false_eq_true, if_false, hwritten, hleaf]

/-- By induction on the predicate. -/
theorem Phrase.toQuery_eq (hrules : setting.rules = Rule.all) (p : Phrase) :
    (p.expr parameter).toQuery setting = .ok p.query := by
  have hall : ∀ rule, setting.rules.contains rule = true := by
    intro rule
    rw [hrules]
    cases rule <;> rfl
  induction p with
  | comparison c => exact c.toQuery_eq hp (hall _)
  | nullTest field before is after negation null =>
    have hpath := field.fieldPath_eq hp
    have hcheck := field.path_checked
    cases negation with
    | none =>
      show (Expr.isNull (field.under parameter).expr).toQuery setting = .ok (.isNull field.path)
      simp only [Expr.toQuery, hall, if_true, hpath]
      show Query.checkedIsNull field.path = _
      simp only [Query.checkedIsNull, hcheck]
      rfl
    | some n =>
      show (Expr.isNotNull (field.under parameter).expr).toQuery setting = .ok (.isNotNull field.path)
      simp only [Expr.toQuery, hall, if_true, hpath]
      show Query.checkedIsNotNull field.path = _
      simp only [Query.checkedIsNotNull, hcheck]
      rfl
  | connective joint left before after right ihl ihr =>
    simp only [expr, query, Expr.toQuery, hall, if_true, ihl, ihr]
    rfl
  | parens inner ih => simp only [expr, query, Expr.toQuery, hall, if_true, ih]
  | spaced before inner after ih => exact ih

end

end DocQuery.Predicate
