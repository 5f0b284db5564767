/-
  DocQuery.Proofs.Collection.Lookup — asking for an identity.

  An identity is asked for by `get?`, or by a query on the reserved field with any spelling of it. The value is
  turned into the identity's own text and no array is joined, so the query is answered by the row of that
  identity alone, and its opposite by all other rows (`find_identified`). In a store that operations reach a
  table has each identity once, so the row is the one that `get?` reads (`find_equal`).

  Documents are read after the rows have been chosen, and one that cannot be read refuses the whole result. So
  the other rows are found if each of them can be got, and otherwise there is the error of the one that cannot
  (`find_other`). What nests too deep is written all the same, and hides the rows beside it (`chain_hidden`).
-/

import DocQuery.Proofs.Collection.FiniteMap
import DocQuery.Proofs.Collection.Paging
import DocQuery.Proofs.Store.Guids

namespace DocQuery

open Statement

/-! ## Texts of identities -/

/-- An identity's text is that of no other. -/
theorem Guid.order_text (g h : Guid) : ((Cell.text g.text).order (.text h.text) == .eq) = (g == h) := by
  show (Cell.compareTexts g.text h.text == .eq) = _
  rw [compareTexts_eq]
  by_cases e : g = h
  · subst e
    simp
  · have htext : g.text ≠ h.text := fun ht => e (Guid.text_injective ht)
    rcases lt_or_gt_of_ne htext with hlt | hgt
    · simp [hlt, e]
    · simp [not_lt_of_gt hgt, htext, e]

theorem Cell.compares_equal_guid (g h : Guid) :
    Cell.compares .equalTo (.text g.text) (.text h.text) = some (g == h) := congrArg some (g.order_text h)

theorem Cell.compares_other_guid (g h : Guid) :
    Cell.compares .notEqualTo (.text g.text) (.text h.text) = some (g != h) := by
  show some ((Cell.text g.text).order (.text h.text) != .eq) = some (g != h)
  rw [bne, bne, g.order_text h]

namespace Collection

/-! ## Rows by identity -/

section rows

variable {rows : List Row} (hids : (rows.map (·.id)).Nodup)

include hids

theorem find?_row {row : Row} (h : row ∈ rows) : rows.find? (·.id == row.id) = some row := by
  cases hfind : rows.find? (·.id == row.id) with
  | none => exact absurd (beq_iff_eq.mpr rfl) (List.find?_eq_none.mp hfind row h)
  | some row' =>
    have hmatch := List.find?_some hfind
    have hid : row'.id = row.id := beq_iff_eq.mp hmatch
    rw [List.inj_on_of_nodup_map hids (List.mem_of_find?_eq_some hfind) h hid]

/-- Of the rows at most one has the identity. -/
theorem filter_id (id : Guid) : rows.filter (·.id == id) = (rows.find? (·.id == id)).toList := by
  induction rows with
  | nil => rfl
  | cons row rest ih =>
    obtain ⟨hfresh, hrest⟩ := List.nodup_cons.mp hids
    by_cases hid : row.id = id
    · have hnone : rest.filter (·.id == id) = [] := by
        apply List.filter_eq_nil_iff.mpr
        intro row' hrow' h
        exact hfresh (List.mem_map.mpr ⟨row', hrow', (beq_iff_eq.mp h).trans hid.symm⟩)
      rw [List.filter_cons, List.find?_cons, beq_iff_eq.mpr hid, hnone]
      rfl
    · rw [List.filter_cons, List.find?_cons, beq_eq_false_iff_ne.mpr hid, ih hrest]
      rfl

end rows

theorem decodeRow_error {row : Row} {e : Error} (h : decodeRow row = .error e) : e = .serialization := by
  rcases Except.bind_eq_error.mp h with h | ⟨j, -, h⟩
  · unfold decode at h
    split at h <;> cases h
    rfl
  · cases h

theorem mapM_ids {rows : List Row} {found : List (Guid × Json)} (h : rows.mapM decodeRow = .ok found) :
    found.map (·.1) = rows.map (·.id) := by
  induction Except.mapM_forall₂.mp h with
  | nil => rfl
  | @cons row e rest more he hrest ih =>
    rw [List.map_cons, List.map_cons, decodeRow_id he, ih (Except.mapM_forall₂.mpr hrest)]

variable {c : Collection} {store : Store} {r : Store.Relation} (hr : store.relation c.table = .ok r)

include hr

/-- There is nothing to be got, or a row to be read. -/
theorem get?_cases (id : Guid) : c.get? store id = .ok none ∨ ∃ row ∈ r.rows, row.id = id := by
  cases hrow : r.rows.find? (·.id == id) with
  | none =>
    left
    rw [get?_eq hr, hrow]
    rfl
  | some row =>
    have hmatch := List.find?_some hrow
    exact .inr ⟨row, List.mem_of_find?_eq_some hrow, beq_iff_eq.mp hmatch⟩

variable (hids : (r.rows.map (·.id)).Nodup)

include hids

theorem get?_row {row : Row} (h : row ∈ r.rows) : c.get? store row.id = (decodeRow row).map fun e => some e.2 := by
  rw [get?_eq hr, find?_row hids h]
  show (decode row.document).map some = ((decode row.document).bind _).map _
  cases decode row.document <;> rfl

theorem get?_eq_some {id : Guid} {document : Json} : c.get? store id = .ok (some document) ↔
    ∃ row ∈ r.rows, decodeRow row = .ok (id, document) := by
  constructor
  · intro h
    rcases get?_cases hr id with hnone | ⟨row, hrow, rfl⟩
    · cases hnone.symm.trans h
    · rw [get?_row hr hids hrow] at h
      obtain ⟨⟨_, _⟩, he, e⟩ := Except.map_eq_ok.mp h
      cases e
      obtain rfl := decodeRow_id he
      exact ⟨row, hrow, he⟩
  · intro h
    obtain ⟨row, hrow, he⟩ := h
    obtain rfl : id = row.id := decodeRow_id he
    rw [get?_row hr hids hrow, he]
    rfl

theorem get?_eq_error {id : Guid} {e : Error} (h : c.get? store id = .error e) :
    ∃ row ∈ r.rows, row.id = id ∧ decodeRow row = .error e := by
  rcases get?_cases hr id with hnone | ⟨row, hrow, rfl⟩
  · cases hnone.symm.trans h
  · rw [get?_row hr hids hrow] at h
    exact ⟨row, hrow, rfl, Except.map_eq_error.mp h⟩

omit hids hr

/-! ## Queries on the reserved field -/

section queries

variable {field : String} (hfield : Text.trim field = identityField) {v : Value} {id : Guid}
  (hv : asGuid v = .guid id)

include hfield hv

theorem identity_bound (schema : Schema) (op : Comparison) :
    boundRequest schema (some (.unary field (.comparison op) v)) [] =
      .ok (some (.leaf (.identityCompare op (.guid id))), []) := by
  have htarget : target? schema field = .ok .identity := by rw [target?, if_pos (beq_iff_eq.mpr hfield)]
  have hbound : bound schema ⟨field, .unary (.comparison op) v⟩ = .ok (.identityCompare op (.guid id)) := by
    simp [bound, target?_not_blank htarget, asGuid_not_null hv, htarget, Except.bind, boundUnary, boundIdentity, hv]
  simp only [boundRequest, boundTree, hbound]
  rfl

theorem identity_made (op : Comparison) :
    Query.compare op field v = .ok (.unary field (.comparison op) v) := by
  have htarget : target? ⟨"", []⟩ field = .ok .identity := by rw [target?, if_pos (beq_iff_eq.mpr hfield)]
  simp [Query.compare, Query.checkedUnary, Query.checkField, target?_not_blank htarget, asGuid_not_null hv, bind,
    Except.bind, pure, Except.pure]

include hr

/-- A comparison of the identity chooses rows by their identities alone. -/
theorem find_identified {op : Comparison} {p : Guid → Bool}
    (hp : ∀ g : Guid, Cell.compares op (.text g.text) (.text id.text) = some (p g)) :
    ∃ rows : List Row, c.find store (some (.unary field (.comparison op) v)) .none .all = rows.mapM decodeRow ∧
      rows.Perm (r.rows.filter fun row => p row.id) := by
  have hb : boundRequest c.schema (some (.unary field (.comparison op) v)) (c.effectiveSorting .none).keys =
      .ok (some (.leaf (.identityCompare op (.guid id))), c.defaultKeys) := by
    rw [boundRequest_default, identity_bound hfield hv]
    rfl
  have hjoins : requestJoins (some (.leaf (.identityCompare op (.guid id)))) c.defaultKeys = [] :=
    requestJoins_default c _
  have hkeys : c.defaultKeys.length ≤ 2000 := c.defaultKeys_length.trans (by decide)
  have hadmits : store.Admits (c.compiledRows (some (.leaf (.identityCompare op (.guid id))))) :=
    Store.admits_test hjoins hkeys fun hmember => absurd rfl hmember
  have hselects : ∀ row : Row, selects store.clock [.text id.text] (some (.identityCompare op 1)) ⟨row, []⟩ =
      .ok (p row.id) := by
    intro row
    show Except.ok (Cell.compares op (.text row.id.text) (.text id.text)).isTrue = _
    rw [hp, Truth.isTrue_some]
  obtain ⟨found, left, hrows, -, hleft, hfound⟩ :=
    rows_unjoined (s := (c.compiledRows (some (.leaf (.identityCompare op (.guid id))))).statement) hjoins rfl
      (defaultKeys_byIdentity c) fun row (_ : row ∈ r.rows) => ⟨p row.id, hselects row⟩
  refine ⟨left.map (·.row), ?_, ((hleft.map _).trans hfound).trans (.of_eq (List.filter_congr fun row _ => ?_))⟩
  · rw [find_eq hb]
    exact congrArg (Except.bind · (·.mapM decodeRow)) ((Store.query_admitted hadmits hr).trans hrows)
  · show (selects store.clock [.text id.text] (some (.identityCompare op 1)) _).toOption.getD false = _
    rw [hselects]
    rfl

include hids

/-- What is found under an identity is what is got. -/
theorem find_equal : c.find store (some (.unary field (.comparison .equalTo) v)) .none .all =
    (c.get? store id).map fun document => (document.map (id, ·)).toList := by
  obtain ⟨rows, hfind, hperm⟩ := find_identified hr hfield hv fun g => Cell.compares_equal_guid g id
  rw [filter_id hids] at hperm
  rw [hfind, get?_eq hr]
  cases hrow : r.rows.find? (·.id == id) with
  | none =>
    rw [hrow] at hperm
    obtain rfl := hperm.eq_nil
    rfl
  | some row =>
    rw [hrow] at hperm
    obtain rfl := List.perm_singleton.mp hperm
    have hmatch := List.find?_some hrow
    obtain rfl : row.id = id := beq_iff_eq.mp hmatch
    show ((decodeRow row).bind _) = ((decode row.document).map some).map _
    unfold decodeRow
    cases decode row.document <;> rfl

/-- Asked for any other identity, the rows of all others are chosen. -/
theorem find_others : ∃ rows : List Row,
    c.find store (some (.unary field (.comparison .notEqualTo) v)) .none .all = rows.mapM decodeRow ∧
      (rows.map (·.id)).Nodup ∧ ∀ row, row ∈ rows ↔ row ∈ r.rows ∧ row.id ≠ id := by
  obtain ⟨rows, hfind, hperm⟩ := find_identified hr hfield hv fun g => Cell.compares_other_guid g id
  refine ⟨rows, hfind, ?_, fun row => ?_⟩
  · exact (hperm.map _).nodup_iff.mpr ((List.filter_sublist.map _).nodup hids)
  · rw [hperm.mem_iff, List.mem_filter, bne_iff_ne]

/-- The other rows are found if each of them can be got. -/
theorem find_other (hread : ∀ i, i ≠ id → ∃ document, c.get? store i = .ok document) : ∃ found,
    c.find store (some (.unary field (.comparison .notEqualTo) v)) .none .all = .ok found ∧
      (found.map (·.1)).Nodup ∧ ∀ i document, (i, document) ∈ found ↔ i ≠ id ∧ c.get? store i = .ok (some document) := by
  obtain ⟨rows, hfind, hnodup, hmem⟩ := find_others hr hids hfield hv
  have hdecode : ∀ row ∈ rows, ∃ e, decodeRow row = .ok e := by
    intro row hrow
    obtain ⟨hrow, hne⟩ := (hmem row).mp hrow
    obtain ⟨document, hget⟩ := hread row.id hne
    rw [get?_row hr hids hrow] at hget
    exact (Except.map_eq_ok.mp hget).imp fun _ h => h.1
  obtain ⟨found, hfound, -⟩ := mapM_decodeRow hnodup (fun _ h => h) hdecode
  refine ⟨found, hfind.trans hfound, (mapM_ids hfound).symm ▸ hnodup, fun i document => ?_⟩
  rw [Except.mem_mapM hfound, get?_eq_some hr hids]
  constructor
  · intro h
    obtain ⟨row, hrow, hdecoded⟩ := h
    obtain ⟨hrow, hne⟩ := (hmem row).mp hrow
    obtain rfl : i = row.id := decodeRow_id hdecoded
    exact ⟨hne, row, hrow, hdecoded⟩
  · intro h
    obtain ⟨hne, row, hrow, hdecoded⟩ := h
    obtain rfl : i = row.id := decodeRow_id hdecoded
    exact ⟨row, (hmem row).mpr ⟨hrow, hne⟩, hdecoded⟩

/-- One of the others that cannot be got refuses them all. -/
theorem find_other_error {i : Guid} (hne : i ≠ id) {e : Error} (hget : c.get? store i = .error e) :
    c.find store (some (.unary field (.comparison .notEqualTo) v)) .none .all = .error e := by
  obtain ⟨rows, hfind, -, hmem⟩ := find_others hr hids hfield hv
  obtain ⟨row, hrow, rfl, hdecode⟩ := get?_eq_error hr hids hget
  have hrow := (hmem row).mpr ⟨hrow, hne⟩
  rw [hfind]
  cases hfound : rows.mapM decodeRow with
  | ok found =>
    obtain ⟨e', he'⟩ := ((Except.mapM_eq_ok (row.id, .null)).mp hfound).1 row hrow
    cases hdecode.symm.trans he'
  | error e' =>
    obtain ⟨row', -, he'⟩ := Except.mapM_error hfound
    rw [decodeRow_error he', decodeRow_error hdecode]

end queries

/-- Finding by identity agrees with getting, whichever way the identity is spelled. All others are found as they
are got; if one of them cannot be got, they are refused as it is. -/
theorem find_by_identity {config : Store.Config} (hstore : Store.Reachable config store)
    (hr : store.relation c.table = .ok r) {field : String} (hfield : Text.trim field = identityField) {v : Value}
    {id : Guid} (hv : asGuid v = .guid id) : ∃ equal other,
    Query.compare .equalTo field v = .ok equal ∧ Query.compare .notEqualTo field v = .ok other ∧
    c.find store (some equal) .none .all =
      (c.get? store id).map (fun document => (document.map (id, ·)).toList) ∧
    ((∀ i, i ≠ id → ∃ document, c.get? store i = .ok document) → ∃ found,
      c.find store (some other) .none .all = .ok found ∧ (found.map (·.1)).Nodup ∧
        ∀ i document, (i, document) ∈ found ↔ i ≠ id ∧ c.get? store i = .ok (some document)) ∧
    (∀ i e, i ≠ id → c.get? store i = .error e → c.find store (some other) .none .all = .error e) := by
  have hids := hstore.ids_nodup hr
  exact ⟨_, _, identity_made hfield hv .equalTo, identity_made hfield hv .notEqualTo, find_equal hr hids hfield hv,
    find_other hr hids hfield hv, fun _ _ hne hget => find_other_error hr hids hfield hv hne hget⟩

/-! ## A chain of replies -/

def chained : Schema := ⟨"Post", [⟨"Post", [⟨"Reply", .object "Post"⟩]⟩]⟩

theorem chained_built : chained.Built := ⟨"Post", chained.types, by decide +kernel⟩

def chainedPosts : Collection := ⟨posts, chained, true⟩

/-- A post with a reply that has a reply, and so on. -/
def chain : Nat → Json
  | 0 => .object []
  | n + 1 => .object [("Reply", chain n)]

theorem chain_canonical (n : Nat) : (chain n).canonical = chain n := by
  induction n with
  | zero => rfl
  | succ n ih =>
    show Json.object [("Reply", (chain n).canonical)] = _
    rw [ih]
    rfl

/-- A reader that goes no deeper than the chain is long reads nothing. -/
theorem chain_unread (number : Json.NumberText → Option Json) {depth n : Nat} (h : depth ≤ n) :
    (chain n).reread number depth = none := by
  induction n generalizing depth with
  | zero =>
    obtain rfl := Nat.le_zero.mp h
    rfl
  | succ n ih =>
    cases depth with
    | zero => rfl
    | succ depth =>
      have hrest := ih (Nat.le_of_succ_le_succ h)
      show (((chain n).reread number depth).bind _).map _ = _
      rw [hrest]
      rfl

theorem decode_chain {n : Nat} (h : 127 ≤ n) : decode (encode (chain n)) = .error .serialization := by
  unfold decode encode
  rw [chain_canonical, Json.read?_eq, chain_unread _ h]

/-- A post nested as deep as no reader goes, and one without replies. -/
def chainRows : List Row := [⟨(rowOf 1 .null).id, encode (chain 127)⟩, ⟨ten, encode (chain 0)⟩]

theorem chain_inserted : ∃ store, chainedPosts.insert (storeOf []) (rowOf 1 .null).id (chain 127) = .ok store ∧
    chainedPosts.insert store ten (chain 0) = .ok (storeOf chainRows) := by
  refine ⟨storeOf [⟨(rowOf 1 .null).id, encode (chain 127)⟩], ?_, ?_⟩
  · exact Store.insert_eq_ok.mpr ⟨_, storeOf_relation _, rfl, rfl⟩
  · exact Store.insert_eq_ok.mpr ⟨_, storeOf_relation _, rfl, rfl⟩

theorem chain_reachable : Store.Reachable .inMemory (storeOf chainRows) := by
  have hcreated : (Store.empty .inMemory).ensureTable posts = .ok (storeOf []) := by rfl
  obtain ⟨store, hfirst, hsecond⟩ := chain_inserted
  exact .step (.step (.step .empty (.ensureTable hcreated)) (.insert hfirst)) (.insert hsecond)

theorem chain_ids : (chainRows.map (·.id)).Nodup := by decide

/-- The post without replies is found under its identity in capitals, with blanks around the field. -/
theorem chain_by_identity : Store.Reachable .inMemory (storeOf chainRows) ∧
    (storeOf chainRows).relation posts = .ok ⟨⟨.main, "posts"⟩, chainRows⟩ ∧
    Text.trim " _id " = identityField ∧ asGuid (.text spelledTen) = .guid ten ∧ ∃ equal,
    Query.compare .equalTo " _id " (.text spelledTen) = .ok equal ∧
    chainedPosts.find (storeOf chainRows) (some equal) .none .all = .ok [(ten, chain 0)] := by
  have hfield : Text.trim " _id " = identityField := by decide +kernel
  have hten := asGuid_text spelledTen_read
  obtain ⟨equal, -, hequal, -, hfind, -⟩ :=
    find_by_identity (c := chainedPosts) chain_reachable (storeOf_relation chainRows) hfield hten
  refine ⟨chain_reachable, storeOf_relation _, hfield, hten, equal, hequal, ?_⟩
  have hread : decodeRow ⟨ten, encode (chain 0)⟩ = .ok (ten, chain 0) := by rfl
  have hrow : (⟨ten, encode (chain 0)⟩ : Row) ∈ chainRows := by simp [chainRows]
  have hget := get?_row (c := chainedPosts) (storeOf_relation chainRows) chain_ids hrow
  rw [hfind, hget, hread]
  rfl

/-- All posts but the one without replies are refused, although there is another. -/
theorem chain_hidden : chained.Built ∧ (∃ store,
      chainedPosts.insert (storeOf []) (rowOf 1 .null).id (chain 127) = .ok store ∧
      chainedPosts.insert store ten (chain 0) = .ok (storeOf chainRows)) ∧
    Store.Reachable .inMemory (storeOf chainRows) ∧
    (storeOf chainRows).relation posts = .ok ⟨⟨.main, "posts"⟩, chainRows⟩ ∧
    (∃ row ∈ chainRows, row.id ≠ ten) ∧ ∃ other, Query.compare .notEqualTo identityField (.guid ten) = .ok other ∧
    chainedPosts.find (storeOf chainRows) (some other) .none .all = .error .serialization := by
  have hfield : Text.trim identityField = identityField := by decide +kernel
  have hrow : (⟨(rowOf 1 .null).id, encode (chain 127)⟩ : Row) ∈ chainRows := by simp [chainRows]
  have hne : (rowOf 1 .null).id ≠ ten := by decide
  have hread : decodeRow ⟨(rowOf 1 .null).id, encode (chain 127)⟩ = .error .serialization := by
    unfold decodeRow
    rw [decode_chain le_rfl]
    rfl
  have hget := get?_row (c := chainedPosts) (storeOf_relation chainRows) chain_ids hrow
  rw [hread] at hget
  exact ⟨chained_built, chain_inserted, chain_reachable, storeOf_relation _, ⟨_, hrow, hne⟩, _,
    identity_made hfield rfl .notEqualTo, find_other_error (storeOf_relation chainRows) chain_ids hfield rfl hne hget⟩

end Collection

end DocQuery
