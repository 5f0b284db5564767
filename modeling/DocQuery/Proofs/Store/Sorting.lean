/-
  DocQuery.Proofs.Store.Sorting — rows in the order of their sort keys.

  What a document has under a sort key is a value of the field's type or missing (`SortValue`). The missing
  value is less than all others; integers and doubles go by size, false before true, texts by their bytes. The
  engine sorts by cells instead. Cells of values of one type compare as the values' ranks (`order_rank`), so
  its comparison of rows is total and transitive (`compareValues_trans`), and it says less where the values do
  (`before_iff`). Keys that cross no array pick no rows and group none (`selects_plain`, `sortArrays_plain`).
  With the identity among them no two rows are alike, and sorted rows stand in strict lexicographic order of
  their values, a key's direction turning it round (`rows_before`).
-/

import DocQuery.Proofs.Double.Order
import DocQuery.Proofs.Store.Unjoined
import DocQuery.Proofs.Text.Order

namespace DocQuery

open DocQuery.Path Statement

/-- What a document has under a sort key. -/
inductive SortValue where
  | missing
  | int (n : Int)
  | float (x : Float)
  | bool (b : Bool)
  | text (s : String)

namespace SortValue

/-- The missing value is less than all others, and texts go by their bytes. -/
def Less : SortValue → SortValue → Prop
  | missing, missing => False
  | missing, _ => True
  | int m, int n => m < n
  | float x, float y => x < y
  | bool a, bool b => a < b
  | text s, text t => Text.bytes s < Text.bytes t
  | _, _ => False

/-- The value of a field of this type. An integer in a field of doubles is one of these; nothing there, null
and an undefined number count as missing. -/
def ofJson : Scalar → Option Json → SortValue
  | .int, some (.int n) => int n
  | .float, some (.int n) => float (Float.ofInt n)
  | .float, some (.float x) => if x.isNaN then missing else float x
  | .bool, some (.bool b) => bool b
  | .string, some (.string s) => text s
  | _, _ => missing

/-! ## Ranks -/

/-- The value is missing or of this type, and a number if it is a double. -/
inductive IsOf : Scalar → SortValue → Prop
  | missing {type : Scalar} : IsOf type missing
  | int (n : Int) : IsOf .int (int n)
  | float {x : Float} : x.isNaN = false → IsOf .float (float x)
  | bool (b : Bool) : IsOf .bool (bool b)
  | text (s : String) : IsOf .string (text s)

theorem ofJson_isOf (type : Scalar) (j : Option Json) : IsOf type (ofJson type j) := by
  unfold ofJson
  split
  case h_1 n => exact .int n
  case h_2 n => exact .float (Double.ofInt_number n)
  case h_3 x =>
    split
    · exact .missing
    · rename_i hx
      exact .float (Bool.eq_false_of_not_eq_true hx)
  case h_4 b => exact .bool b
  case h_5 s => exact .text s
  case h_6 => exact .missing

/-- The engine's cell of the value. -/
def cell : SortValue → Cell
  | missing => .null
  | int n => .integer n
  | float x => .real x
  | bool b => .integer (if b then 1 else 0)
  | text s => .text s

/-- Where a value stands among those of its type. -/
def rank : SortValue → ℕ ×ₗ (ℤ ×ₗ ℤ ×ₗ ℤ) ×ₗ String
  | missing => toLex (0, toLex (toLex (0, toLex (0, 0)), ""))
  | int n => toLex (1, toLex (toLex (n, toLex (0, 0)), ""))
  | float x => toLex (1, toLex (Double.rank x, ""))
  | bool b => toLex (1, toLex (toLex (if b then 1 else 0, toLex (0, 0)), ""))
  | text s => toLex (1, toLex (toLex (0, toLex (0, 0)), s))

variable {now : Nat} {type : Scalar} {v w : SortValue}

theorem compareTexts_compare (s t : String) : Cell.compareTexts s t = compare s t := by
  rw [compareTexts_eq, LinearOrder.compare_eq_compareOfLessAndEq, compareOfLessAndEq]

/-- Cells of values of one type compare as the values' ranks. -/
theorem order_rank (hv : IsOf type v) (hw : IsOf type w) : v.cell.order w.cell = compare v.rank w.rank := by
  cases hv with
  | missing => cases hw <;> rfl
  | int m =>
    cases hw with
    | missing => rfl
    | int n => simp [cell, rank, Cell.order, Prod.Lex.compare_def, compareLex, compareOn]
  | float hx =>
    cases hw with
    | missing => rfl
    | float hy =>
      simp [cell, rank, Cell.order, Double.compareFloats_rank hx hy, Prod.Lex.compare_def, compareLex, compareOn]
  | bool a =>
    cases hw with
    | missing => rfl
    | bool b => cases a <;> cases b <;> rfl
  | text s =>
    cases hw with
    | missing => rfl
    | text t => simp [cell, rank, Cell.order, compareTexts_compare, Prod.Lex.compare_def, compareLex, compareOn]

theorem less_iff_order (hv : IsOf type v) (hw : IsOf type w) : v.Less w ↔ v.cell.order w.cell = .lt := by
  cases hv with
  | missing => cases hw <;> simp [Less, cell, Cell.order]
  | int m =>
    cases hw with
    | missing => simp [Less, cell, Cell.order]
    | int n => exact compare_lt_iff_lt.symm
  | @float x hx =>
    cases hw with
    | missing => simp [Less, cell, Cell.order]
    | @float y hy =>
      show x < y ↔ Cell.compareFloats x y = .lt
      unfold Cell.compareFloats
      split
      · simp [*]
      · split <;> simp [*]
  | bool a =>
    cases hw with
    | missing => simp [Less, cell, Cell.order]
    | bool b =>
      show a < b ↔ compare (if a then (1 : Int) else 0) (if b then 1 else 0) = .lt
      cases a <;> cases b <;> decide
  | text s =>
    cases hw with
    | missing => simp [Less, cell, Cell.order]
    | text t =>
      show Text.bytes s < Text.bytes t ↔ Cell.compareTexts s t = .lt
      rw [Text.bytes_lt_iff, compareTexts_compare, compare_lt_iff_lt]

/-! ## Cells of documents -/

/-- Fields of these types are sorted by their values. -/
def Sortable : Scalar → Prop
  | .string => True
  | .int => True
  | .float => True
  | .bool => True
  | _ => False

/-- A field's cell, taken for its type, is that of its value. -/
theorem typed_cell (htype : Sortable type) {j : Json} (hj : Json.isOf type j = true)
    (hfits : ∀ n, j = .int n → Decimal.fitsInt64 n = true) : typed now type j.cell = (ofJson type (some j)).cell := by
  cases type with
  | datetime => cases htype
  | guid => cases htype
  | string => cases j <;> first | rfl | cases hj
  | bool => cases j <;> first | rfl | cases hj
  | int =>
    cases j with
    | int n => rw [Json.cell, if_pos (hfits n rfl)]; rfl
    | _ => first | rfl | cases hj
  | float =>
    cases j with
    | int n => rw [Json.cell, if_pos (hfits n rfl)]; rfl
    | float x =>
      show (Cell.ofFloat x).castReal = (if x.isNaN then missing else float x).cell
      unfold Cell.ofFloat
      split <;> rfl
    | _ => first | rfl | cases hj

end SortValue

namespace Json

/-- The integers in the document are of 64 bits. -/
def FitsInt64 (doc : Json) : Prop := ∀ names n, follow names doc = some (.int n) → Decimal.fitsInt64 n = true

theorem FitsInt64.int {n : Int} (h : Decimal.fitsInt64 n = true) : (Json.int n).FitsInt64 := by
  intro names m hm
  cases names with
  | nil => cases hm; exact h
  | cons => cases hm

theorem FitsInt64.object {members : List (String × Json)} (h : ∀ m ∈ members, m.2.FitsInt64) :
    (Json.object members).FitsInt64 := by
  intro names n hn
  cases names with
  | nil => cases hn
  | cons name rest =>
    obtain ⟨m, hm, hn⟩ := exists_member_of_follow hn
    exact h m hm rest n hn

end Json

namespace Statement.BoundKey

def direction : BoundKey → Direction
  | identity direction => direction
  | field _ _ direction => direction

def type : BoundKey → Scalar
  | identity _ => .string
  | field _ type _ => type

/-- What an identity and its document have under the key. -/
def value : BoundKey → Guid × Json → SortValue
  | identity _, (id, _) => .text id.text
  | field r type _, (_, doc) => .ofJson type (Json.follow r.names doc)

theorem value_isOf (k : BoundKey) (e : Guid × Json) : (k.value e).IsOf k.type := by
  cases k with
  | identity direction => exact .text e.1.text
  | field r type direction => exact SortValue.ofJson_isOf type _

/-- The key puts the first before the second. -/
def Puts (k : BoundKey) (a b : Guid × Json) : Prop :=
  match k.direction with
  | .ascending => (k.value a).Less (k.value b)
  | .descending => (k.value b).Less (k.value a)

end Statement.BoundKey

namespace Statement

/-- The first comes before the second by the first key that tells them apart. -/
def Before : List BoundKey → Guid × Json → Guid × Json → Prop
  | [], _, _ => False
  | k :: rest, a, b => k.Puts a b ∨ (¬ k.Puts a b ∧ ¬ k.Puts b a) ∧ Before rest a b

/-- The engine's comparison by one key. -/
def BoundKey.compare (k : BoundKey) (a b : Guid × Json) : Ordering :=
  directed k.direction ((k.value a).cell.order (k.value b).cell)

/-- The engine's comparison by keys, the first of them first. -/
def compareValues : List BoundKey → Guid × Json → Guid × Json → Ordering
  | [] => fun _ _ => .eq
  | k :: rest => compareLex k.compare (compareValues rest)

theorem compareKeys_values (keys : List BoundKey) (a b : Guid × Json) :
    compareKeys (keys.map BoundKey.order) (keys.map fun k => (k.value a).cell) (keys.map fun k => (k.value b).cell) =
      compareValues keys a b := by
  induction keys with
  | nil => rfl
  | cons k rest ih =>
    have hdirection : k.order.direction = k.direction := by cases k <;> rfl
    simp only [List.map_cons, compareKeys, compareValues, compareLex, BoundKey.compare, ih, hdirection]

theorem BoundKey.compare_ascending {k : BoundKey} (hk : k.direction = .ascending) (a b : Guid × Json) :
    k.compare a b = Ord.compare (k.value a).rank (k.value b).rank := by
  rw [BoundKey.compare, hk]
  exact SortValue.order_rank (k.value_isOf a) (k.value_isOf b)

theorem BoundKey.compare_descending {k : BoundKey} (hk : k.direction = .descending) (a b : Guid × Json) :
    k.compare a b = Ord.compare (k.value b).rank (k.value a).rank := by
  rw [BoundKey.compare, hk, SortValue.order_rank (k.value_isOf a) (k.value_isOf b)]
  exact Std.OrientedOrd.eq_swap.symm

instance (k : BoundKey) : Std.TransCmp k.compare := by
  cases hk : k.direction with
  | ascending =>
    rw [funext₂ (BoundKey.compare_ascending hk)]
    exact inferInstanceAs (Std.TransCmp (compareOn fun e => (k.value e).rank))
  | descending =>
    rw [funext₂ (BoundKey.compare_descending hk)]
    exact (Std.TransCmp.opposite : Std.TransCmp fun a b => compareOn (fun e => (k.value e).rank) b a)

instance compareValues_trans : (keys : List BoundKey) → Std.TransCmp (compareValues keys)
  | [] => { eq_swap := rfl, isLE_trans := fun _ _ => rfl }
  | k :: rest =>
    have := compareValues_trans rest
    inferInstanceAs (Std.TransCmp (compareLex k.compare (compareValues rest)))

theorem BoundKey.puts_iff {k : BoundKey} {a b : Guid × Json} : k.Puts a b ↔ k.compare a b = .lt := by
  unfold Puts
  cases hk : k.direction with
  | ascending =>
    rw [compare_ascending hk, ← SortValue.order_rank (k.value_isOf a) (k.value_isOf b)]
    exact SortValue.less_iff_order (k.value_isOf a) (k.value_isOf b)
  | descending =>
    rw [compare_descending hk, ← SortValue.order_rank (k.value_isOf b) (k.value_isOf a)]
    exact SortValue.less_iff_order (k.value_isOf b) (k.value_isOf a)

theorem before_iff {keys : List BoundKey} {a b : Guid × Json} : Before keys a b ↔ compareValues keys a b = .lt := by
  induction keys with
  | nil => simp [Before, compareValues]
  | cons k rest ih =>
    have hswap : k.compare b a = (k.compare a b).swap := Std.OrientedCmp.eq_swap
    simp only [Before, BoundKey.puts_iff, ih, compareValues, compareLex, hswap]
    cases k.compare a b <;> simp

theorem compareValues_eq {keys : List BoundKey} {a b : Guid × Json} (h : compareValues keys a b = .eq) :
    ∀ k ∈ keys, k.compare a b = .eq := by
  induction keys with
  | nil => exact fun _ hk => nomatch hk
  | cons k rest ih =>
    obtain ⟨hk, hrest⟩ := Ordering.then_eq_eq.mp h
    exact List.forall_mem_cons.mpr ⟨hk, ih hrest⟩

theorem directed_eq_eq {direction : Direction} {o : Ordering} : directed direction o = .eq ↔ o = .eq := by
  cases direction with
  | ascending => exact Iff.rfl
  | descending => exact Ordering.swap_eq_eq

/-- Identities that are alike to their key are the same. -/
theorem compare_identity {direction : Direction} {a b : Guid × Json}
    (h : (BoundKey.identity direction).compare a b = .eq) : a.1 = b.1 := by
  have hkey : (BoundKey.identity direction).compare a b =
      directed direction (Cell.compareTexts a.1.text b.1.text) := rfl
  rw [hkey, directed_eq_eq, SortValue.compareTexts_compare] at h
  exact Guid.text_injective (compare_eq_iff_eq.mp h)

/-- With the identity among the keys, what does not come after another identity comes before it. -/
theorem before_of_isLE {keys : List BoundKey} {direction : Direction} (hid : .identity direction ∈ keys)
    {a b : Guid × Json} (hne : a.1 ≠ b.1) (h : (compareValues keys a b).isLE = true) : Before keys a b := by
  rw [before_iff]
  cases hcompare : compareValues keys a b with
  | lt => rfl
  | eq => exact absurd (compare_identity (compareValues_eq hcompare _ hid)) hne
  | gt => rw [hcompare] at h; cases h

/-! ## Sorted rows -/

/-- The row's identity with the document that its text is. -/
def entryOf (row : Row) : Guid × Json := (row.id, (Json.readWith? .stored row.document).getD .null)

theorem entryOf_holds {schema : Schema} {row : Row} {doc : Json} (h : row.Holds schema doc) :
    entryOf row = (row.id, doc) := by
  rw [entryOf, h.text]
  rfl

/-- Sorted rows go up by the keys' values, where the cells that are read off them are those of the values. -/
theorem sorted_isLE {now : Nat} {keys : List BoundKey} {rows left : List Joined}
    (hcells : ∀ x ∈ rows, ∀ k ∈ keys, k.order.cell now x = .ok (k.value (entryOf x.row)).cell)
    (h : sorted now (keys.map BoundKey.order) rows = .ok left) :
    left.Pairwise fun x y => (compareValues keys (entryOf x.row) (entryOf y.row)).isLE = true := by
  have hkeys : ∀ x ∈ rows, (keys.map BoundKey.order).mapM (Order.cell now x) =
      .ok (keys.map fun k => (k.value (entryOf x.row)).cell) := by
    intro x hx
    rw [List.mapM_map]
    exact Except.mapM_ok (hcells x hx)
  obtain rfl := Except.ok.inj ((sorted_eq hkeys).symm.trans h)
  have hle : ∀ x y : Joined, (compareKeys (keys.map BoundKey.order) (keys.map fun k => (k.value (entryOf x.row)).cell)
      (keys.map fun k => (k.value (entryOf y.row)).cell) != .gt) =
        (compareValues keys (entryOf x.row) (entryOf y.row)).isLE := by
    intro x y
    rw [compareKeys_values]
    cases compareValues keys (entryOf x.row) (entryOf y.row) <;> rfl
  simp only [hle]
  apply List.pairwise_mergeSort
  case trans => exact fun _ _ _ => Std.TransCmp.isLE_trans
  case total =>
    intro x y
    have hswap : compareValues keys (entryOf y.row) (entryOf x.row) =
        (compareValues keys (entryOf x.row) (entryOf y.row)).swap := Std.OrientedCmp.eq_swap
    rw [hswap]
    cases compareValues keys (entryOf x.row) (entryOf y.row) <;> rfl

/-! ## Sort keys of a schema -/

/-- The path leads to a scalar field that is sorted by its values, and passes no object array. -/
structure SortField (schema : Schema) (path : String) (r : ResolvedPath) (type : Scalar) : Prop where
  resolved : resolve schema path = .ok r
  plain : r.arrays = []
  scalar : r.terminal.kind = .scalar
  element : r.terminal.element = .scalar type
  sortable : SortValue.Sortable type

theorem SortField.unjoined {schema : Schema} {path : String} {r : ResolvedPath} {type : Scalar}
    (h : SortField schema path r type) : r.Unjoined :=
  ⟨h.plain, by rw [h.scalar]; exact nofun⟩

/-- What a document of the schema has in a field is of the field's type. -/
theorem SortField.isOf {schema : Schema} (hs : schema.Built) {path : String} {r : ResolvedPath} {type : Scalar}
    (h : SortField schema path r type) {doc v : Json} (hdoc : Json.Conforms schema (.object schema.root) doc)
    (hv : Json.follow r.names doc = some v) : Json.isOf type v = true := by
  obtain ⟨declared, htyped, hclass⟩ := place_typed hs h.resolved
  rw [h.scalar, h.element] at hclass
  have hdeclared : declared = .scalar type := by
    cases declared with
    | scalar => cases hclass; rfl
    | object => cases hclass
    | array e => cases e <;> cases hclass
  cases hdoc.follow (hdeclared ▸ htyped.typed) hv with
  | scalar hj => exact hj

/-- A bound key that sorts by values: the identity or such a field. -/
def BoundKey.Plain (schema : Schema) : BoundKey → Prop
  | identity _ => True
  | field r type _ => ∃ path, SortField schema path r type

variable {schema : Schema} {now : Nat} {t : Option BoundTree} {keys : List BoundKey}

/-- No array is joined for such keys, so an identity is a group. -/
theorem sortArrays_plain (hplain : ∀ k ∈ keys, k.Plain schema) : sortArrays keys = [] := by
  rw [sortArrays, List.flatMap_eq_nil_iff]
  intro r hr
  obtain ⟨k, hk, hpath⟩ := List.mem_filterMap.mp hr
  cases k with
  | identity => cases hpath
  | field r' type direction =>
    cases hpath
    obtain ⟨path, h⟩ := hplain _ hk
    exact h.plain

/-- Such keys pick no rows. -/
theorem selects_plain (hplain : ∀ k ∈ keys, k.Plain schema) {row : Row} {doc : Json} {ch : Choice} :
    Selects now shadowed t keys row doc ch ↔ Selects now shadowed t [] row doc ch := by
  have hfits : ∀ r ∈ keys.filterMap BoundKey.path?, ch.Fits doc r := by
    intro r hr
    have hnone : r.arrays = [] := List.flatMap_eq_nil_iff.mp (sortArrays_plain hplain) r hr
    rw [ch.fits_iff, hnone]
    exact fun _ hc => nomatch hc
  have hpaths : (∀ r ∈ requestPaths t keys, ch.Fits doc r) ↔ ∀ r ∈ requestPaths t [], ch.Fits doc r := by
    simp only [requestPaths, List.forall_mem_append, List.filterMap_nil, List.not_mem_nil, false_implies, implies_true,
      and_true]
    exact and_iff_left hfits
  exact ⟨fun h => ⟨hpaths.mp h.fits, h.holds⟩, fun h => ⟨hpaths.mpr h.fits, h.holds⟩⟩

/-- Under such keys the same rows come back, each of them once. -/
theorem Answers.perm {keys' : List BoundKey} (hplain : ∀ k ∈ keys, k.Plain schema)
    (hplain' : ∀ k ∈ keys', k.Plain schema) {table rows rows' : List Row} (hdocs : Documents schema table)
    (h : Answers now shadowed schema t keys table rows) (h' : Answers now shadowed schema t keys' table rows') :
    rows.Perm rows' := by
  have hnodup := h.nodup hdocs (sortArrays_plain hplain)
  have hnodup' := h'.nodup hdocs (sortArrays_plain hplain')
  refine (List.perm_ext_iff_of_nodup hnodup hnodup').mpr fun row => ?_
  by_cases hrow : row ∈ table
  · obtain ⟨doc, hdoc⟩ := hdocs.holds row hrow
    rw [h.selected row hrow doc hdoc, h'.selected row hrow doc hdoc]
    simp only [selects_plain hplain, selects_plain hplain']
  · exact iff_of_false (fun hmem => hrow (h.stored row hmem)) fun hmem => hrow (h'.stored row hmem)

section rows

variable (hs : schema.Built) (hr : AllResolved schema (requestPaths t keys)) (hplain : ∀ k ∈ keys, k.Plain schema)
  {table : List Row} (hints : ∀ row ∈ table, ∀ doc, row.Holds schema doc → doc.FitsInt64)

include hs hr hplain hints

/-- The cells that keys read off a found row are those of its document's values. -/
theorem Found.key_cell {x : Joined} (h : Found now schema t keys table x) {k : BoundKey} (hk : k ∈ keys) :
    k.order.cell now x = .ok (k.value (entryOf x.row)).cell := by
  obtain ⟨row, hrow, doc, ch, hdoc, hsel, rfl⟩ := h
  rw [choiceRow_row, entryOf_holds hdoc]
  cases k with
  | identity direction =>
    show Except.ok (Cell.text (choiceRow t keys row ch).row.id.text) = _
    rw [choiceRow_row]
    rfl
  | field r type direction =>
    obtain ⟨path, hfield⟩ := hplain _ hk
    have hmem : r ∈ requestPaths t keys :=
      List.mem_append_right _ (List.mem_filterMap.mpr ⟨_, hk, rfl⟩)
    have hcell := (choiceRow_shows hs hr hdoc hsel.fits r hmem).cell
    show ((choiceRow t keys row ch).cell r.place).bind (fun v => .ok (typed now type v)) = _
    rw [hcell, Choice.cell, hfield.unjoined.read_eq]
    show Except.ok (typed now type ((Json.follow r.names doc).elim .null Json.cell)) =
      Except.ok (SortValue.ofJson type (Json.follow r.names doc)).cell
    congr 1
    cases hv : Json.follow r.names doc with
    | none => cases type <;> rfl
    | some v =>
      apply SortValue.typed_cell hfield.sortable (hfield.isOf hs hdoc.conforms hv)
      rintro n rfl
      exact hints row hrow doc hdoc r.names n hv

/-- The rows of a request with the identity among its keys stand in strict order of the keys. -/
theorem rows_before (hdocs : Documents schema table) {direction : Direction} (hid : .identity direction ∈ keys)
    {d : Dialect} {name : Table} {rows : List Row} (hrows : (requestCompiled d name .all (t, keys)).statement.rows
      now (Store.cells (requestCompiled d name .all (t, keys))) table = .ok rows) :
    rows.Pairwise fun a b => Before keys (entryOf a) (entryOf b) := by
  obtain ⟨one, left, hleft, hone, hsorted, hperm⟩ := rows_request hs hr now hdocs d name
  obtain rfl := Except.ok.inj (hleft.symm.trans hrows)
  have hisLE := sorted_isLE (fun x hx k hk => (hone.sound x hx).key_cell hs hr hplain hints hk) hsorted
  -- An identity is a group, and of each group one row is left.
  have htexts : ∀ x : Joined, Statement.textsOf (requestJoins t keys) x = [x.row.id.text] := fun x =>
    textsOf_ungrouped (s := (requestCompiled d name .all (t, keys)).statement)
      (requestJoins_ungrouped (sortArrays_plain hplain)) x
  have hids : left.Pairwise fun x y => x.row.id ≠ y.row.id := by
    apply (List.pairwise_map.mp (hone.perm hperm).nodup).imp
    intro x y hne e
    apply hne
    rw [htexts, htexts, e]
  rw [List.pairwise_map]
  exact hisLE.imp₂ (fun x y hle hne => before_of_isLE hid hne hle) hids

end rows

end Statement

end DocQuery
