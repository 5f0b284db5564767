/-
  DocQuery.Proofs.Store.Unjoined — queries whose paths pass no object array.

  Such a path is read from the document by its names (`Unjoined.read_eq`), so no array is joined and each row
  stands for itself: a row is among the answer exactly when the query is true of its document
  (`query_unjoined`). All rows have to read as JSON, as the engine gives up on a row that does not. A
  comparison then compares what the names lead to (`query_compare`) with the value, which was taken for one
  of the field's type (`comparison_bound`).
-/

import Mathlib.Data.List.TakeWhile
import DocQuery.Proofs.Collection.Counting

namespace DocQuery

open DocQuery.Path Statement

namespace ResolvedPath

variable {r : ResolvedPath}

theorem after_unjoined {p : Position} {nodes : List Node} (h : crossingsFrom p nodes = []) :
    (p.after nodes).place = ⟨p.place.source, p.place.path ++ nodes.map (·.name)⟩ := by
  induction nodes generalizing p with
  | nil => simp
  | cons n rest ih =>
    by_cases hn : n.kind = .objectArray
    · rw [crossingsFrom_array hn] at h
      cases h
    · rw [crossingsFrom_member hn] at h
      rw [Position.after_cons, ih h, Position.next_member hn]
      simp

/-- A path through no object array is read from the document by its names. -/
theorem place_unjoined (h : r.arrays = []) : r.place = ⟨.document, r.names⟩ := by
  have hafter := after_unjoined h
  unfold place names nodes Position.member
  rw [hafter]
  simp [Position.start]

/-- The path passes no object array and ends on none. -/
structure Unjoined (r : ResolvedPath) : Prop where
  plain : r.arrays = []
  ends : r.terminal.kind ≠ .objectArray

namespace Unjoined

variable (h : r.Unjoined)

include h

theorem read_eq (ch : Choice) (doc : Json) : ch.read doc r = Json.follow r.names doc := by
  rw [ch.read_eq doc h.ends, Choice.valueAt, place_unjoined h.plain]

theorem visible : shadowed r = false := by
  unfold shadowed
  rw [place_unjoined h.plain]
  rfl

theorem shows {row : Row} {doc : Json} (hdoc : Json.readWith? .stored row.document = some doc) (ch : Choice) :
    (⟨row, []⟩ : Joined).Shows doc ch r := by
  unfold Joined.Shows
  rw [h.read_eq, place_unjoined h.plain]
  unfold Joined.find Joined.source Joined.parse
  simp only [hdoc]
  rfl

end Unjoined

end ResolvedPath

namespace Statement

/-- What a document has at a path; nothing where there is nothing. -/
def cellAt (r : ResolvedPath) (doc : Json) : Cell := (Json.follow r.names doc).elim .null Json.cell

section queries

variable (tree : BoundTree) (hplain : ∀ r ∈ tree.paths, r.Unjoined)

include hplain

theorem selects_unjoined {now : Nat} {row : Row} {doc : Json} (hdoc : Json.readWith? .stored row.document = some doc) :
    selects now (tree.values.map Cell.ofValue) (some (tree.condition 0)) ⟨row, []⟩ =
      .ok (tree.truth now shadowed row doc (fun _ => .null) == some true) := by
  exact BoundTree.holds_eq (supplied_all tree.values) fun r hr => (hplain r hr).shows hdoc fun _ => .null

theorem requestJoins_unjoined : requestJoins (some tree) [] = [] := by
  apply List.eq_nil_iff_forall_not_mem.mpr
  intro j hj
  obtain ⟨r, hr, c, hc, -⟩ := requestJoins_sound hj
  have hr : r ∈ tree.paths := by simpa [requestPaths] using hr
  rw [(hplain r hr).plain] at hc
  cases hc

/-- A query whose paths pass no object array is answered row by row, if the store admits it. -/
theorem query_unjoined {store : Store} {table : Table} {relation : Store.Relation}
    (hrelation : store.relation table = .ok relation)
    (hread : ∀ row ∈ relation.rows, ∃ doc, Json.readWith? .stored row.document = some doc)
    (hadmits : store.Admits (requestCompiled .sqlite table .all (some tree, []))) : ∃ rows,
    store.query (requestCompiled .sqlite table .all (some tree, [])) = .ok rows ∧
      ∀ row ∈ relation.rows, ∀ doc, Json.readWith? .stored row.document = some doc →
        (row ∈ rows ↔ tree.truth store.clock shadowed row doc (fun _ => .null) = some true) := by
  have hselects : ∀ row ∈ relation.rows, ∃ b,
      selects store.clock (tree.values.map Cell.ofValue) (some (tree.condition 0)) ⟨row, []⟩ = .ok b := by
    intro row hrow
    obtain ⟨doc, hdoc⟩ := hread row hrow
    exact ⟨_, selects_unjoined tree hplain hdoc⟩
  obtain ⟨found, left, hrows, -, hleft, hfound⟩ :=
    rows_unjoined (s := (requestCompiled .sqlite table .all (some tree, [])).statement) (requestJoins_unjoined tree hplain)
      rfl (fun _ ho => nomatch ho) hselects
  refine ⟨left.map (·.row), ?_, ?_⟩
  · rw [Store.query_admitted hadmits hrelation]
    exact hrows
  · intro row hrow doc hdoc
    rw [((hleft.map _).trans hfound).mem_iff, List.mem_filter, and_iff_right hrow, kept]
    show (selects store.clock (tree.values.map Cell.ofValue) (some (tree.condition 0)) _).toOption.getD false = true ↔ _
    rw [selects_unjoined tree hplain hdoc]
    exact beq_iff_eq

end queries

/-- A comparison of a field compares what the document has there. -/
theorem query_compare {r : ResolvedPath} (hr : r.Unjoined) {store : Store} {table : Table} {relation : Store.Relation}
    (hrelation : store.relation table = .ok relation)
    (hread : ∀ row ∈ relation.rows, ∃ doc, Json.readWith? .stored row.document = some doc) (c : Comparison)
    (type : Scalar) (v : Value) : ∃ rows,
    store.query (requestCompiled .sqlite table .all (some (.leaf (.compare c r type v)), [])) = .ok rows ∧
      ∀ row ∈ relation.rows, ∀ doc, Json.readWith? .stored row.document = some doc →
        (row ∈ rows ↔ Cell.compares c (typed store.clock type (cellAt r doc)) (opposite type (Cell.ofValue v)) = some true) := by
  have hplain : ∀ r' ∈ (BoundTree.leaf (.compare c r type v)).paths, r'.Unjoined :=
    fun r' hr' => List.mem_singleton.mp hr' ▸ hr
  obtain ⟨rows, hrows, hmem⟩ := query_unjoined (.leaf (.compare c r type v)) hplain hrelation hread
    (Store.admits_test (requestJoins_unjoined _ hplain) (Nat.zero_le 2000) fun hmember => absurd rfl hmember)
  refine ⟨rows, hrows, ?_⟩
  intro row hrow doc hdoc
  rw [hmem row hrow doc hdoc, BoundTree.truth, Bound.truth, Choice.cell, hr.read_eq, cellAt]

/-! ## Queries of one field -/

/-- A field that means anything is not blank. -/
theorem target?_not_blank {schema : Schema} {field : String} {target : Target} (h : target? schema field = .ok target) :
    Text.allBlank field = false := by
  cases hblank : Text.allBlank field with
  | false => rfl
  | true =>
    have hall : ∀ c ∈ field.toList, Text.isBlank c = true := List.all_eq_true.mp hblank
    have htrim : Text.trim field = "" := by
      simp [Text.trim, Text.trimChars, List.dropWhile_eq_nil_iff.mpr hall]
    rw [target?, htrim] at h
    cases h

section leaves

variable {schema : Schema} {field : String} {r : ResolvedPath} {type : Scalar} {v : Value}
  (hfield : target? schema field = .ok (.path r))

include hfield

theorem target?_unjoined (hplain : r.arrays = []) : r.Unjoined := ⟨hplain, (resolve_declared (target?_path hfield)).2⟩

variable (htype : r.terminal.element = .scalar type) (hvalue : v.isNull = false)

include htype hvalue

/-- A comparison of a scalar field is compiled with the value as one of the field's type. -/
theorem comparison_bound (hkind : r.terminal.kind ≠ .valueArray) (c : Comparison) :
    boundRequest schema (some (.unary field (.comparison c) v)) Sorting.none.keys =
      .ok (some (.leaf (.compare c r type (coerce v type))), []) := by
  have hbound : bound schema ⟨field, .unary (.comparison c) v⟩ = .ok (.compare c r type (coerce v type)) := by
    simp [bound, target?_not_blank hfield, hvalue, hfield, Except.bind, boundUnary, boundPath, hkind, htype, scalar?,
      Except.map]
  simp only [boundRequest, boundTree, hbound]
  rfl

theorem membership_bound (hkind : r.terminal.kind = .valueArray) :
    boundRequest schema (some (.unary field .contains v)) Sorting.none.keys =
      .ok (some (.leaf (.member false r type (coerce v type))), []) := by
  have hbound : bound schema ⟨field, .unary .contains v⟩ = .ok (.member false r type (coerce v type)) := by
    simp [bound, target?_not_blank hfield, hvalue, hfield, Except.bind, boundUnary, boundPath, hkind, htype, scalar?,
      Except.map]
  simp only [boundRequest, boundTree, hbound]
  rfl

end leaves

end Statement

end DocQuery
