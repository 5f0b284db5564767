/-
  DocQuery.Proofs.Store.Partition — the tests of a field agree with each other.

  A null test looks at what a document has at a path as it stands. A comparison looks at it as a value of the
  field's type and holds it against the constant, which has been made one of that type as well. Neither side
  becomes nothing on the way, instants apart, so a comparison is unknown exactly where the null test is true
  (`cell_divides`). Elsewhere the engine puts any two cells in order. So a document is told apart by exactly one
  of four tests, and each of the other four says no more than these (`tests_partition`).

  A cell is nothing for a missing member, for a null, and for the undefined double. No text is read as that
  double (`stored_defined`), so the null test is true of the first two alone. The reserved name is no path: a
  member of that name is not what the test of it looks at (`reserved_unseen`).
-/

import DocQuery.Proofs.Double.Numbers
import DocQuery.Proofs.Json.Reading
import DocQuery.Proofs.Store.Membership

namespace DocQuery

open DocQuery.Path Statement

/-! ## Undefined doubles -/

namespace Json

/-- No member of the document is the undefined double. -/
def Defined (doc : Json) : Prop := ∀ names x, follow names doc = some (.float x) → x.isNaN = false

/-- A value without members that is no double. -/
theorem Defined.plain {j : Json} (hfloat : ∀ x, j ≠ .float x) (hmember : ∀ name rest, follow (name :: rest) j = none) :
    j.Defined := by
  intro names x hx
  cases names with
  | nil => exact absurd (Option.some.inj hx) (hfloat x)
  | cons name rest =>
    rw [hmember] at hx
    cases hx

theorem Defined.float {x : Float} (h : x.isNaN = false) : (Json.float x).Defined := by
  intro names y hy
  cases names with
  | nil =>
    cases hy
    exact h
  | cons => cases hy

theorem Defined.object {members : List (String × Json)} (h : ∀ m ∈ members, m.2.Defined) :
    (Json.object members).Defined := by
  intro names x hx
  cases names with
  | nil => cases hx
  | cons name rest =>
    obtain ⟨m, hm, hx⟩ := exists_member_of_follow hx
    exact h m hm rest x hx

theorem nearest_defined (t : NumberText) : t.nearest.Defined := by
  unfold NumberText.nearest
  split
  · exact .plain nofun fun _ _ => rfl
  · exact .float (Double.toFloat_number t.numeral)

/-- However a stored text is written, it is read without an undefined double. -/
theorem stored_defined {text : String} {doc : Json} (h : readWith? .stored text = some doc) : doc.Defined := by
  refine readWith?_gives ⟨?null, ?bool, ?string, ?number, ?array, ?object⟩ h
  case null => exact .plain nofun fun _ _ => rfl
  case bool => exact fun _ => .plain nofun fun _ _ => rfl
  case string => exact fun _ => .plain nofun fun _ _ => rfl
  case number =>
    intro t j hj
    cases hj
    exact nearest_defined t
  case array => exact fun _ _ => .plain nofun fun _ _ => rfl
  case object => exact fun _ => Defined.object

end Json

theorem Cell.ofFloat_not_null {x : Float} (h : x.isNaN = false) : (Cell.ofFloat x).isNull = false := by
  unfold Cell.ofFloat
  rw [h]
  rfl

namespace Statement

/-- The cell of a path is nothing where a document has nothing or a null. -/
theorem cellAt_isNull {r : ResolvedPath} {doc : Json} (hdoc : doc.Defined) :
    (cellAt r doc).isNull = true ↔ Json.follow r.names doc = none ∨ Json.follow r.names doc = some .null := by
  unfold cellAt
  cases hfollow : Json.follow r.names doc with
  | none => simp [Cell.isNull]
  | some j =>
    cases j with
    | null => simp [Json.cell, Cell.isNull]
    | int n =>
      by_cases hn : Decimal.fitsInt64 n = true <;> simp [Json.cell, hn, Cell.isNull]
    | float x => simp [Json.cell, Cell.ofFloat_not_null (hdoc r.names x hfollow)]
    | _ => simp [Json.cell, Cell.isNull]

end Statement

/-! ## Values -/

/-- Neither null nor the undefined double. -/
def Value.IsDefined : Value → Prop
  | .null => False
  | .float x => x.isNaN = false
  | _ => True

namespace Value.IsDefined

variable {v : Value} (h : v.IsDefined)

include h

theorem not_null : v.isNull = false := by
  cases v with
  | null => cases h
  | _ => rfl

theorem cell_not_null : (Cell.ofValue v).isNull = false := by
  cases v with
  | null => cases h
  | float x => exact Cell.ofFloat_not_null h
  | _ => rfl

/-- A defined value stays one when it is made one of the field's type. -/
theorem coerce (type : Scalar) : (Statement.coerce v type).IsDefined := by
  cases v with
  | null => cases h
  | integer n =>
    cases type with
    | float => exact Double.ofInt_number n.toInt
    | _ => exact h
  | float x => cases type <;> exact h
  | text s =>
    cases type with
    | datetime =>
      show (asInstant (.text s)).IsDefined
      unfold asInstant
      dsimp only
      split <;> trivial
    | guid =>
      show (asGuid (.text s)).IsDefined
      unfold asGuid
      dsimp only
      split <;> trivial
    | _ => exact h
  | _ => cases type <;> exact h

end Value.IsDefined

namespace Statement

/-! ## Tests -/

/-- What can be asked of a field with a constant at hand. -/
inductive FieldTest where
  | isNull
  | isNotNull
  | compare (c : Comparison)
  deriving DecidableEq

namespace FieldTest

def query (field : String) (v : Value) : FieldTest → Query
  | isNull => .isNull field
  | isNotNull => .isNotNull field
  | compare c => .unary field (.comparison c) v

/-- The leaf that the test is bound to. -/
def leaf (r : ResolvedPath) (type : Scalar) (v : Value) : FieldTest → Bound
  | isNull => .isNull false r
  | isNotNull => .isNull true r
  | compare c => .compare c r type (coerce v type)

/-- The test of a cell at a time. -/
def holds (now : Nat) (type : Scalar) (value cell : Cell) : FieldTest → Bool
  | isNull => cell.isNull
  | isNotNull => !cell.isNull
  | compare c => Cell.compares c (typed now type cell) value == some true

end FieldTest

/-- Of four tests exactly one is passed, and the others are put together from these. -/
structure Divides (passed : FieldTest → Prop) : Prop where
  once : ∃! t, t ∈ [.isNull, .compare .lessThan, .compare .equalTo, .compare .greaterThan] ∧ passed t
  present : passed .isNotNull ↔ ¬ passed .isNull
  atMost : passed (.compare .lessOrEqualTo) ↔ passed (.compare .lessThan) ∨ passed (.compare .equalTo)
  atLeast : passed (.compare .greaterOrEqualTo) ↔ passed (.compare .greaterThan) ∨ passed (.compare .equalTo)
  other : passed (.compare .notEqualTo) ↔ passed (.compare .lessThan) ∨ passed (.compare .greaterThan)

theorem Divides.congr {passed passed' : FieldTest → Prop} (h : ∀ t, passed t ↔ passed' t) (hd : Divides passed') :
    Divides passed := (funext fun t => propext (h t) : passed = passed') ▸ hd

/-- No type but that of instants takes a cell for nothing. -/
theorem typed_isNull {now : Nat} {type : Scalar} (htype : type ≠ .datetime) (cell : Cell) :
    (typed now type cell).isNull = cell.isNull := by
  cases type with
  | datetime => exact absurd rfl htype
  | _ => cases cell <;> rfl

/-- The tests divide the cells, one cell after another. -/
theorem cell_divides (now : Nat) {type : Scalar} (htype : type ≠ .datetime) {value : Cell}
    (hvalue : value.isNull = false) (cell : Cell) : Divides fun t => t.holds now type value cell = true := by
  have htyped : (typed now type cell).isNull = cell.isNull := typed_isNull htype cell
  cases hcell : cell.isNull with
  | true =>
    rw [hcell] at htyped
    have hunknown : ∀ c, Cell.compares c (typed now type cell) value = none := fun c => by simp [Cell.compares, htyped]
    refine ⟨⟨.isNull, ?_, ?_⟩, ?_, ?_, ?_, ?_⟩ <;> simp [FieldTest.holds, hcell, hunknown]
  | false =>
    rw [hcell] at htyped
    have hknown : ∀ c : Comparison,
        Cell.compares c (typed now type cell) value = some (c.admits ((typed now type cell).order value)) :=
      fun c => by simp [Cell.compares, htyped, hvalue]
    cases horder : (typed now type cell).order value with
    | lt =>
      refine ⟨⟨.compare .lessThan, ?_, ?_⟩, ?_, ?_, ?_, ?_⟩ <;>
        simp [FieldTest.holds, hcell, hknown, horder, Comparison.admits]
    | eq =>
      refine ⟨⟨.compare .equalTo, ?_, ?_⟩, ?_, ?_, ?_, ?_⟩ <;>
        simp [FieldTest.holds, hcell, hknown, horder, Comparison.admits]
    | gt =>
      refine ⟨⟨.compare .greaterThan, ?_, ?_⟩, ?_, ?_, ?_, ?_⟩ <;>
        simp [FieldTest.holds, hcell, hknown, horder, Comparison.admits]

/-! ## Queries -/

section queries

variable {schema : Schema} {field : String} {r : ResolvedPath} {type : Scalar} {v : Value}
  (hfield : target? schema field = .ok (.path r)) (hkind : r.terminal.kind ≠ .valueArray)
  (htype : r.terminal.element = .scalar type)

include hfield in
theorem nullTest_bound (negated : Bool) :
    bound schema ⟨field, .null negated⟩ = .ok (.isNull negated r) := by
  simp [bound, target?_not_blank hfield, hfield, Except.map, boundNull]

include hfield hkind htype

theorem test_bound (hv : v.IsDefined) (t : FieldTest) :
    boundRequest schema (some (t.query field v)) Sorting.none.keys = .ok (some (.leaf (t.leaf r type v)), []) := by
  cases t with
  | isNull | isNotNull =>
    simp only [FieldTest.query, boundRequest, boundTree, nullTest_bound hfield]
    rfl
  | compare c => exact comparison_bound hfield htype hv.not_null hkind c

variable (hplain : r.arrays = []) {store : Store} {table : Table} {relation : Store.Relation}
  (hrelation : store.relation table = .ok relation)
  (hread : ∀ row ∈ relation.rows, ∃ doc, Json.readWith? .stored row.document = some doc)

include hplain hrelation hread

/-- A test is answered by the rows whose cells pass it. -/
theorem query_test (hv : v.IsDefined) (t : FieldTest) : ∃ c rows,
    select schema .sqlite table (some (t.query field v)) .none .all = .ok c ∧ store.query c = .ok rows ∧
    ∀ row ∈ relation.rows, ∀ doc, Json.readWith? .stored row.document = some doc →
      (row ∈ rows ↔ t.holds store.clock type (opposite type (Cell.ofValue (coerce v type))) (cellAt r doc) = true) := by
  have hr := target?_unjoined hfield hplain
  have hpaths : ∀ r' ∈ (BoundTree.leaf (t.leaf r type v)).paths, r'.Unjoined := by
    intro r' hr'
    obtain rfl : r' = r := by cases t <;> exact List.mem_singleton.mp hr'
    exact hr
  have hadmits : store.Admits (requestCompiled .sqlite table .all (some (.leaf (t.leaf r type v)), [])) :=
    Store.admits_test (requestJoins_unjoined _ hpaths) (Nat.zero_le 2000) fun hmember => by
      cases t <;> exact absurd rfl hmember
  obtain ⟨rows, hrows, hmem⟩ := query_unjoined (.leaf (t.leaf r type v)) hpaths hrelation hread hadmits
  refine ⟨_, rows, select_of_bound (test_bound hfield hkind htype hv t) .sqlite table .all, hrows, ?_⟩
  intro row hrow doc hdoc
  rw [hmem row hrow doc hdoc]
  cases t with
  | isNull | isNotNull =>
    rw [BoundTree.truth, FieldTest.leaf, Bound.truth, Choice.cell, hr.read_eq]
    simp [FieldTest.holds, cellAt]
  | compare c =>
    rw [BoundTree.truth, FieldTest.leaf, Bound.truth, Choice.cell, hr.read_eq]
    exact beq_iff_eq.symm

/-- What a document has at a field passes exactly one of four tests with a value, whichever way the field is
spelled: there is nothing, or it is below the value, equal to it or above it. -/
theorem tests_partition (hdate : type ≠ .datetime) (hv : v.IsDefined) : ∃ answers : FieldTest → List Row,
    (∀ t, ∃ c, select schema .sqlite table (some (t.query field v)) .none .all = .ok c ∧
      store.query c = .ok (answers t)) ∧
    ∀ row ∈ relation.rows, ∀ doc, Json.readWith? .stored row.document = some doc →
      Divides (fun t => row ∈ answers t) ∧
      (row ∈ answers .isNull ↔ Json.follow r.names doc = none ∨ Json.follow r.names doc = some .null) := by
  choose compiled answers hselect hquery hmem using query_test hfield hkind htype hplain hrelation hread hv
  refine ⟨answers, fun t => ⟨compiled t, hselect t, hquery t⟩, ?_⟩
  intro row hrow doc hdoc
  have hvalue : (opposite type (Cell.ofValue (coerce v type))).isNull = false := by
    rw [Cell.opposite_isNull]
    exact (hv.coerce type).cell_not_null
  refine ⟨(cell_divides store.clock hdate hvalue (cellAt r doc)).congr fun t => hmem t row hrow doc hdoc, ?_⟩
  rw [hmem .isNull row hrow doc hdoc]
  exact cellAt_isNull (Json.stored_defined hdoc)

end queries

/-! ## Posts with and without a title -/

open Collection (quiet quiet_holds)

def titleOfPost : ResolvedPath := ⟨[], ⟨"Title", .scalar, .scalar .string⟩⟩

/-- Nothing is said of this one. -/
def bare : Row := rowOf 2 (.object [])

theorem bare_read : Json.readWith? .stored bare.document = some (.object []) := by rfl

theorem titled_title : target? titled "title" = .ok (.path titleOfPost) := by rfl

/-- A post with a title is told apart by one test, and one without any by the null test. -/
theorem titles_divided : target? titled "title" = .ok (.path titleOfPost) ∧
    (storeOf [quiet, bare]).relation posts = .ok ⟨⟨.main, "posts"⟩, [quiet, bare]⟩ ∧
    (Value.text "q").IsDefined ∧ ∃ answers : FieldTest → List Row,
    (∀ t, ∃ c, select titled .sqlite posts (some (t.query "title" (.text "q"))) .none .all = .ok c ∧
      (storeOf [quiet, bare]).query c = .ok (answers t)) ∧
    (∃! t, t ∈ [.isNull, .compare .lessThan, .compare .equalTo, .compare .greaterThan] ∧ quiet ∈ answers t) ∧
    bare ∈ answers .isNull := by
  have hread : ∀ row ∈ [quiet, bare], ∃ doc, Json.readWith? .stored row.document = some doc := by
    simp only [List.forall_mem_cons]
    exact ⟨⟨_, quiet_holds.text⟩, ⟨_, bare_read⟩, nofun⟩
  have hdefined : (Value.text "q").IsDefined := trivial
  obtain ⟨answers, hanswers, hdivided⟩ := tests_partition titled_title (by decide) rfl rfl
    (storeOf_relation [quiet, bare]) hread (by decide) hdefined
  refine ⟨titled_title, storeOf_relation _, hdefined, answers, hanswers, ?_, ?_⟩
  · exact (hdivided quiet (by simp) _ quiet_holds.text).1.once
  · exact (hdivided bare (by simp) _ bare_read).2.mpr (.inl rfl)

/-! ## The reserved name -/

/-- Posts with a text under the identity's name. -/
def reservedText : Schema := ⟨"Post", [⟨"Post", [⟨identityField, .scalar .string⟩]⟩]⟩

theorem bare_conforms : Json.Conforms reservedText (.object "Post") (.object []) := by
  refine .object (t := ⟨"Post", [⟨identityField, .scalar .string⟩]⟩) rfl ?_
  intro f hf j hj
  cases hj

/-- The declared member is missing, and the null test of its name says that it is not. -/
theorem reserved_unseen : reservedText.Built ∧ bare.Holds reservedText (.object []) ∧
    Path.resolve reservedText identityField = .ok ⟨[], ⟨identityField, .scalar, .scalar .string⟩⟩ ∧
    Json.follow [identityField] (.object []) = none ∧ ∃ c rows,
    select reservedText .sqlite posts (some (.isNull identityField)) .none .all = .ok c ∧
    (storeOf [bare]).query c = .ok rows ∧ bare ∉ rows := by
  have hbound : boundRequest reservedText (some (.isNull identityField)) Sorting.none.keys =
      .ok (some (.leaf (.identityNull false)), []) := by rfl
  obtain ⟨rows, hrows, hmem⟩ := query_unjoined (.leaf (.identityNull false)) (fun r hr => nomatch hr)
    (storeOf_relation [bare]) (fun row hrow => ⟨_, List.mem_singleton.mp hrow ▸ bare_read⟩)
    (Store.admits_test rfl (Nat.zero_le 2000) fun hmember => absurd rfl hmember)
  refine ⟨⟨"Post", reservedText.types, by decide +kernel⟩, ⟨bare_read, bare_conforms⟩, by rfl, rfl, _, rows,
    select_of_bound hbound .sqlite posts .all, hrows, ?_⟩
  rw [hmem bare (List.mem_singleton.mpr rfl) _ bare_read]
  exact nofun

end Statement

end DocQuery
