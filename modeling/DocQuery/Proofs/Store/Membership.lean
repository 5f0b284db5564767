/-
  DocQuery.Proofs.Store.Membership — containing a value, and not containing it.

  A membership test of an array that no object array encloses is answered row by row (`query_member`).
  A document contains a value when one of its members is equal to it; it is said not to contain it
  when none is and none is nothing. So both tests leave out a document with a member that is
  nothing and none that is equal, as an engine that compares with nothing has to; of every other document
  exactly one of the two is true (`contains_or_not`). A member is nothing where the array holds a null, or
  where null stands in the array's place (`untagged_missed`), and among datetimes where it names no time. A store
  that does not see members answers neither test.
-/

import DocQuery.Proofs.Store.Unjoined

namespace DocQuery

open DocQuery.Path Statement

/-! ## Members -/

namespace Cell

variable {v : Cell} {set : List Cell}

/-- One of the cells is equal to this one. -/
def Has (v : Cell) (set : List Cell) : Prop := ∃ w ∈ set, compares .equalTo v w = some true

/-- None of the cells is equal to this one, and one of them is nothing. -/
def Doubtful (v : Cell) (set : List Cell) : Prop := ¬ Has v set ∧ ∃ w ∈ set, w.isNull = true

theorem any_equal : (set.any fun w => compares .equalTo v w == some true) = true ↔ Has v set := by
  simp [Has]

theorem isIn_eq_true (hv : v.isNull = false) : isIn v set = some true ↔ Has v set := by
  rw [← any_equal]
  unfold isIn
  cases set with
  | nil => simp
  | cons w rest =>
    simp only [List.isEmpty_cons, Bool.false_eq_true, if_false, hv]
    by_cases h : ((w :: rest).any fun w => compares .equalTo v w == some true) = true
    · simp only [h, if_true]
    · simp only [h, Bool.false_eq_true, if_false, iff_false]
      split <;> simp

theorem not_isIn_eq_true (hv : v.isNull = false) :
    Truth.not (isIn v set) = some true ↔ ¬ Has v set ∧ ¬ ∃ w ∈ set, w.isNull = true := by
  rw [← any_equal, ← List.any_eq_true]
  unfold isIn
  cases set with
  | nil => simp [Truth.not]
  | cons w rest =>
    simp only [List.isEmpty_cons, Bool.false_eq_true, if_false, hv]
    by_cases h : ((w :: rest).any fun w => compares .equalTo v w == some true) = true
    · simp [h, Truth.not]
    · by_cases hn : (w :: rest).any isNull = true <;> simp [h, hn, Truth.not]

/-- Of a cell's two tests exactly one is true, and none where its members leave it in doubt. -/
theorem isIn_divides (hv : v.isNull = false) :
    (Doubtful v set → isIn v set ≠ some true ∧ Truth.not (isIn v set) ≠ some true) ∧
    (¬ Doubtful v set → Xor (isIn v set = some true) (Truth.not (isIn v set) = some true)) := by
  simp only [ne_eq, isIn_eq_true hv, not_isIn_eq_true hv]
  constructor
  · intro hdoubt
    obtain ⟨hnot, hnothing⟩ := hdoubt
    exact ⟨hnot, fun hlacks => hlacks.2 hnothing⟩
  · intro hsure
    by_cases h : Has v set
    · exact .inl ⟨h, fun hlacks => hlacks.1 h⟩
    · exact .inr ⟨⟨h, fun hnothing => hsure ⟨h, hnothing⟩⟩, h⟩

theorem opposite_isNull (type : Scalar) (v : Cell) : (opposite type v).isNull = v.isNull := by
  have hnumber : ∀ v : Cell, v.asNumber.isNull = v.isNull := by
    intro v
    cases v with
    | text s =>
      show ((number? s).getD (text s)).isNull = false
      unfold number?
      dsimp only
      split
      · rfl
      · cases Decimal.Numeral.read? (trimSpaces s.toList) <;> rfl
    | _ => rfl
  cases type <;> first | rfl | exact hnumber v

end Cell

namespace Statement

/-- The members that a document has at a path, as the type of the array's values; none where there is nothing. -/
def membersAt (now : Nat) (r : ResolvedPath) (type : Scalar) (doc : Json) : List Cell :=
  ((Json.follow r.names doc).elim [] Json.elements).map fun e => typed now type e.cell

/-! ## Membership tests -/

variable {schema : Schema} {field : String} {v : Value} {r : ResolvedPath} {type : Scalar}

/-- The two membership tests of a field. -/
def memberQuery (negated : Bool) (field : String) (v : Value) : Query :=
  .unary field (if negated then .notContains else .contains) v

/-- Both tests of a field bind alike. -/
theorem memberQuery_bound {c : Compiled} {d : Dialect} {table : Table} (hfield : target? schema field = .ok (.path r))
    (h : select schema d table (some (memberQuery false field v)) .none .all = .ok c) :
    ∃ type, r.terminal.element = .scalar type ∧ r.terminal.kind = .valueArray ∧ ∀ negated,
      boundRequest schema (some (memberQuery negated field v)) Sorting.none.keys =
        .ok (some (.leaf (.member negated r type (coerce v type))), []) := by
  obtain ⟨_, _, hrequest, -⟩ := select_request h
  obtain ⟨-, ⟨e, -⟩ | ⟨_, tree, e, -, htree⟩⟩ := boundRequest_ok hrequest
  · cases e
  cases e
  obtain ⟨b, hb, -⟩ := boundTree_leaf htree
  obtain ⟨target, htarget, hnull, hunary⟩ := bound_ok hb
  cases hfield.symm.trans htarget
  obtain ⟨type, htype, ⟨_, e, -⟩ | ⟨-, hkind, -⟩⟩ :=
    boundPath_ok (show boundPath (Text.trim field) .contains v r = .ok b from hunary)
  · cases e
  refine ⟨type, htype, hkind, ?_⟩
  intro negated
  have hblank := target?_not_blank hfield
  have hbound : bound schema ⟨field, .unary (if negated then .notContains else .contains) v⟩ =
      .ok (.member negated r type (coerce v type)) := by
    cases negated <;>
      simp [bound, hblank, hnull, hfield, Except.bind, boundUnary, boundPath, hkind, htype, scalar?, Except.map]
  simp only [boundRequest, memberQuery, boundTree, hbound]
  rfl

section queries

variable {store : Store} {table : Table} {relation : Store.Relation} (hplain : r.arrays = [])
  (hkind : r.terminal.kind = .valueArray) (hrelation : store.relation table = .ok relation)
  (hread : ∀ row ∈ relation.rows, ∃ doc, Json.readWith? .stored row.document = some doc)

/-- The statement of a membership test. -/
def memberCompiled (table : Table) (negated : Bool) (r : ResolvedPath) (type : Scalar) (v : Value) : Compiled :=
  requestCompiled .sqlite table .all (some (.leaf (.member negated r type v)), [])

/-- A store that does not see members refuses their test. -/
theorem query_member_refused (hunseen : ¬ store.SeesMembers) (type : Scalar) (negated : Bool) (v : Value) :
    store.query (memberCompiled table negated r type v) = .error .storage :=
  Store.query_refused fun hadmits => hunseen (hadmits.seen (Bool.or_true _))

include hplain hkind hrelation hread

/-- A membership test that no object array encloses is answered row by row. -/
theorem query_member (hseen : store.SeesMembers) (type : Scalar) (negated : Bool) (v : Value) : ∃ rows,
    store.query (memberCompiled table negated r type v) = .ok rows ∧
      ∀ row ∈ relation.rows, ∀ doc, Json.readWith? .stored row.document = some doc → (row ∈ rows ↔
        negateIf negated (Cell.isIn (opposite type (Cell.ofValue v)) (membersAt store.clock r type doc)) = some true) := by
  have hr : r.Unjoined := ⟨hplain, by rw [hkind]; decide⟩
  have hpaths : ∀ r' ∈ (BoundTree.leaf (.member negated r type v)).paths, r'.Unjoined :=
    fun r' hr' => List.mem_singleton.mp hr' ▸ hr
  obtain ⟨rows, hrows, hmem⟩ := query_unjoined (.leaf (.member negated r type v)) hpaths hrelation hread
    (Store.admits_test (requestJoins_unjoined _ hpaths) (Nat.zero_le 2000) fun _ => hseen)
  refine ⟨rows, hrows, ?_⟩
  intro row hrow doc hdoc
  rw [hmem row hrow doc hdoc, BoundTree.truth, Bound.truth, hr.visible, Choice.members, hr.read_eq]
  rfl

end queries

/-- Of a document that reads as JSON exactly one of the tests is true, whether it contains a value or
does not, unless its members leave that in doubt; then neither is. A store that does not see members refuses both. -/
theorem contains_or_not {table : Table} (hfield : target? schema field = .ok (.path r)) (hplain : r.arrays = [])
    {c : Compiled} (hc : select schema .sqlite table (some (.unary field .contains v)) .none .all = .ok c)
    (hvalue : ∀ p ∈ c.parameters, (Cell.ofValue p).isNull = false) {store : Store} {relation : Store.Relation}
    (hrelation : store.relation table = .ok relation)
    (hread : ∀ row ∈ relation.rows, ∃ doc, Json.readWith? .stored row.document = some doc) :
    ∃ type c', r.terminal.element = .scalar type ∧
      select schema .sqlite table (some (.unary field .notContains v)) .none .all = .ok c' ∧
      (¬ store.SeesMembers → store.query c = .error .storage ∧ store.query c' = .error .storage) ∧
      (store.SeesMembers → ∃ having lacking, store.query c = .ok having ∧ store.query c' = .ok lacking ∧
        ∀ row ∈ relation.rows, ∀ doc, Json.readWith? .stored row.document = some doc →
          let value := opposite type (Cell.ofValue (coerce v type))
          let members := membersAt store.clock r type doc
          (row ∈ having ↔ value.Has members) ∧
          (value.Doubtful members → row ∉ having ∧ row ∉ lacking) ∧
          (¬ value.Doubtful members → Xor (row ∈ having) (row ∈ lacking))) := by
  obtain ⟨type, htype, hkind, hbound⟩ := memberQuery_bound (v := v) hfield hc
  have hselect := fun negated => select_of_bound (hbound negated) .sqlite table .all
  cases (hselect false).symm.trans hc
  refine ⟨type, _, htype, hselect true, fun hunseen =>
    ⟨query_member_refused hunseen type false _, query_member_refused hunseen type true _⟩, fun hseen => ?_⟩
  obtain ⟨having, hhaving, hin⟩ := query_member hplain hkind hrelation hread hseen type false (coerce v type)
  obtain ⟨lacking, hlacking, hout⟩ := query_member hplain hkind hrelation hread hseen type true (coerce v type)
  refine ⟨having, lacking, hhaving, hlacking, ?_⟩
  intro row hrow doc hdoc value members
  have hnull : value.isNull = false := by
    show (opposite type (Cell.ofValue (coerce v type))).isNull = false
    rw [Cell.opposite_isNull]
    exact hvalue (coerce v type) (List.mem_singleton.mpr rfl)
  rw [hin row hrow doc hdoc, hout row hrow doc hdoc]
  exact ⟨Cell.isIn_eq_true hnull, Cell.isIn_divides hnull⟩

/-! ## Posts with tags -/

def taggable : Schema := ⟨"Post", [⟨"Post", [⟨"Tags", .array (.scalar .string)⟩]⟩]⟩

def tagsOfPost : ResolvedPath := ⟨[], ⟨"Tags", .valueArray, .scalar .string⟩⟩

def taggedWith (tags : List Json) : Json := .object [("Tags", .array tags)]

theorem taggable_tags : target? taggable "Tags" = .ok (.path tagsOfPost) := by rfl

theorem memberQuery_tag (negated : Bool) :
    boundRequest taggable (some (memberQuery negated "Tags" (.text "a"))) Sorting.none.keys =
      .ok (some (.leaf (.member negated tagsOfPost .string (.text "a"))), []) := by
  cases negated <;> rfl

/-- A post with another tag is one that does not contain the tag. -/
theorem tagged_lacks : ∃ c c' having lacking,
    select taggable .sqlite posts (some (.unary "Tags" .contains (.text "a"))) .none .all = .ok c ∧
    select taggable .sqlite posts (some (.unary "Tags" .notContains (.text "a"))) .none .all = .ok c' ∧
    (storeOf [rowOf 1 (taggedWith [.string "b"])]).query c = .ok having ∧
    (storeOf [rowOf 1 (taggedWith [.string "b"])]).query c' = .ok lacking ∧
    rowOf 1 (taggedWith [.string "b"]) ∉ having ∧ rowOf 1 (taggedWith [.string "b"]) ∈ lacking := by
  have hdoc : Json.readWith? .stored (rowOf 1 (taggedWith [.string "b"])).document =
      some (taggedWith [.string "b"]) := by rfl
  have hc := select_of_bound (memberQuery_tag false) .sqlite posts .all
  obtain ⟨type, c', htype, hc', -, hanswered⟩ := contains_or_not taggable_tags rfl hc
    (by intro p hp; rw [List.mem_singleton.mp hp]; rfl) (storeOf_relation [rowOf 1 (taggedWith [.string "b"])])
    (fun row hrow => ⟨_, List.mem_singleton.mp hrow ▸ hdoc⟩)
  cases htype
  obtain ⟨having, lacking, hhaving, hlacking, hrows⟩ := hanswered (by decide +kernel)
  obtain ⟨hhas, -, hsure⟩ := hrows _ (List.mem_singleton.mpr rfl) _ hdoc
  have hnot : ¬ (Cell.text "a").Has [.text "b"] := by
    intro h
    obtain ⟨w, hw, he⟩ := h
    rw [List.mem_singleton.mp hw] at he
    revert he
    decide
  have hsound : ¬ (Cell.text "a").Doubtful [.text "b"] := by
    intro h
    obtain ⟨w, hw, hnull⟩ := h.2
    rw [List.mem_singleton.mp hw] at hnull
    cases hnull
  refine ⟨_, c', having, lacking, hc, hc', hhaving, hlacking, fun h => hnot (hhas.mp h), ?_⟩
  rcases hsure hsound with ⟨h, -⟩ | ⟨h, -⟩
  · exact absurd (hhas.mp h) hnot
  · exact h

/-- A post with a null for its tag is found neither for containing a tag nor for not containing it. -/
theorem untagged_missed : taggable.Built ∧ target? taggable "Tags" = .ok (.path tagsOfPost) ∧ tagsOfPost.arrays = [] ∧
    Json.readWith? .stored (rowOf 1 (taggedWith [.null])).document = some (taggedWith [.null]) ∧
    ∃ c c' having lacking,
    select taggable .sqlite posts (some (.unary "Tags" .contains (.text "a"))) .none .all = .ok c ∧
    select taggable .sqlite posts (some (.unary "Tags" .notContains (.text "a"))) .none .all = .ok c' ∧
    c.parameters = [.text "a"] ∧ (storeOf [rowOf 1 (taggedWith [.null])]).query c = .ok having ∧
    (storeOf [rowOf 1 (taggedWith [.null])]).query c' = .ok lacking ∧
    rowOf 1 (taggedWith [.null]) ∉ having ∧ rowOf 1 (taggedWith [.null]) ∉ lacking := by
  have hselect := fun negated => select_of_bound (memberQuery_tag negated) .sqlite posts .all
  have hdoc : Json.readWith? .stored (rowOf 1 (taggedWith [.null])).document = some (taggedWith [.null]) := by rfl
  have hquery := fun negated => query_member (r := tagsOfPost) rfl rfl
    (storeOf_relation [rowOf 1 (taggedWith [.null])]) (fun row hrow => ⟨_, List.mem_singleton.mp hrow ▸ hdoc⟩)
    (by decide +kernel) .string negated (.text "a")
  obtain ⟨having, hhaving, hin⟩ := hquery false
  obtain ⟨lacking, hlacking, hout⟩ := hquery true
  refine ⟨⟨"Post", taggable.types, by decide +kernel⟩, taggable_tags, rfl, hdoc, _, _, having, lacking, hselect false,
    hselect true, rfl, hhaving, hlacking, ?_, ?_⟩
  · rw [hin _ (List.mem_singleton.mpr rfl) _ hdoc]
    decide
  · rw [hout _ (List.mem_singleton.mpr rfl) _ hdoc]
    decide

end Statement

end DocQuery
