/-
  DocQuery.Proofs.Collection.Entries — the rows of a table as the entries of a finite map.

  A document is kept as a text, and what is got back of it is what the text is read as: the document
  itself just when its canonical form is restored (`kept_eq_whole_iff`). Rows show a map when each of
  them is read as the entry under its identity is got back (`Shows`). Adding a row, putting one in
  another's place and taking one away show an entry inserted, replaced and erased (`Shows.insert`,
  `Shows.update`, `Shows.erase`); looking one up, counting and decoding all of them give what the map
  has (`Shows.lookup`, `Shows.card`, `Shows.lists`).
-/

import Mathlib.Data.Finmap
import DocQuery.Proofs.Json.Canonical
import DocQuery.Proofs.Store.Tables

namespace DocQuery.Collection

/-! ## Finite maps -/

/-- Documents by their identities. -/
abbrev Entries := Finmap fun _ : Guid => Json

variable {rows : List Row} {m : Entries} {id : Guid} {text : String} {document document' : Json}

/-- Every entry once. -/
structure Lists (m : Entries) (documents : List (Guid × Json)) : Prop where
  once : (documents.map (·.1)).Nodup
  entries : ∀ id document, (id, document) ∈ documents ↔ m.lookup id = some document

/-- The documents of a map. -/
def Has (m : Entries) (document : Json) : Prop := ∃ id, m.lookup id = some document

theorem has_insert (h : Has (m.insert id document) document') : Has m document' ∨ document' = document := by
  obtain ⟨id', hlookup⟩ := h
  by_cases hid : id' = id
  · rw [hid, Finmap.lookup_insert] at hlookup
    exact .inr (Option.some.inj hlookup).symm
  · rw [Finmap.lookup_insert_of_ne m hid] at hlookup
    exact .inl ⟨id', hlookup⟩

theorem has_erase (h : Has (m.erase id) document) : Has m document := by
  obtain ⟨id', hlookup⟩ := h
  by_cases hid : id' = id
  · rw [hid, Finmap.lookup_erase] at hlookup
    cases hlookup
  · rw [Finmap.lookup_erase_ne hid] at hlookup
    exact ⟨id', hlookup⟩

/-- A document as it was given. -/
def whole (document : Json) : Except Error Json := .ok document.canonical

/-- A document as it is got back from the text it is kept as. -/
def kept (document : Json) : Except Error Json := decode (encode document)

theorem kept_eq_whole_iff : kept document = whole document ↔ document.canonical.Restored := decode_encode_iff

/-! ## Rows that show a map -/

/-- The rows are read as the entries of the map are got back. -/
structure Shows (rows : List Row) (m : Entries) : Prop where
  ids : (rows.map (·.id)).Nodup
  sound : ∀ row ∈ rows, ∃ document, decode row.document = kept document ∧ m.lookup row.id = some document
  complete : ∀ id ∈ m, ∃ row ∈ rows, row.id = id

theorem Shows.mem_iff (h : Shows rows m) : id ∈ m ↔ ∃ row ∈ rows, row.id = id := by
  constructor
  · exact h.complete id
  · intro hid
    obtain ⟨row, hrow, rfl⟩ := hid
    obtain ⟨document, -, hlookup⟩ := h.sound row hrow
    exact Finmap.mem_of_lookup_eq_some hlookup

theorem Shows.any_eq (h : Shows rows m) (id : Guid) : rows.any (·.id == id) = decide (id ∈ m) := by
  rw [Bool.eq_iff_iff, List.any_eq_true, decide_eq_true_iff, h.mem_iff]
  simp

theorem Shows.insert (h : Shows rows m) (hid : id ∉ m) (hread : decode text = kept document) :
    Shows (rows ++ [⟨id, text⟩]) (m.insert id document) := by
  have hne : ∀ row ∈ rows, row.id ≠ id := by
    intro row hrow e
    exact hid (h.mem_iff.mpr ⟨row, hrow, e⟩)
  refine ⟨?ids, ?sound, ?complete⟩
  case ids =>
    rw [List.map_append, List.nodup_append]
    refine ⟨h.ids, List.nodup_singleton _, fun id' hid' id'' hid'' e => ?_⟩
    obtain ⟨row, hrow, rfl⟩ := List.mem_map.mp hid'
    exact hne row hrow (e.trans (List.mem_singleton.mp hid''))
  case sound =>
    intro row hrow
    rcases List.mem_append.mp hrow with hrow | hrow
    · obtain ⟨d, hd, hlookup⟩ := h.sound row hrow
      exact ⟨d, hd, (m.lookup_insert_of_ne (hne row hrow)).trans hlookup⟩
    · obtain rfl := List.mem_singleton.mp hrow
      exact ⟨document, hread, m.lookup_insert⟩
  case complete =>
    intro id' hid'
    rcases Finmap.mem_insert.mp hid' with rfl | hid'
    · exact ⟨_, List.mem_append_right _ List.mem_cons_self, rfl⟩
    · obtain ⟨row, hrow, e⟩ := h.complete id' hid'
      exact ⟨row, List.mem_append_left _ hrow, e⟩

theorem Shows.update (h : Shows rows m) (hid : id ∈ m) (hread : decode text = kept document) :
    Shows (Store.replace ⟨id, text⟩ rows) (m.insert id document) := by
  refine ⟨?ids, ?sound, ?complete⟩
  case ids =>
    rw [Store.ids_replace]
    exact h.ids
  case sound =>
    intro row hrow
    obtain ⟨old, hold, rfl⟩ := List.mem_map.mp hrow
    by_cases e : old.id = id
    · rw [if_pos (beq_iff_eq.mpr e)]
      exact ⟨document, hread, m.lookup_insert⟩
    · rw [if_neg (by simpa using e)]
      obtain ⟨d, hd, hlookup⟩ := h.sound old hold
      exact ⟨d, hd, (m.lookup_insert_of_ne e).trans hlookup⟩
  case complete =>
    intro id' hid'
    have hmem : id' ∈ m := by
      rcases Finmap.mem_insert.mp hid' with rfl | hid'
      · exact hid
      · exact hid'
    obtain ⟨old, hold, rfl⟩ := h.complete id' hmem
    refine ⟨_, List.mem_map_of_mem hold, ?_⟩
    by_cases e : old.id = id <;> simp [e]

/-- No row is replaced where none has the identity. -/
theorem Shows.replace_absent (h : Shows rows m) (hid : id ∉ m) : Store.replace ⟨id, text⟩ rows = rows := by
  have hsame : ∀ row ∈ rows, (if row.id == id then ⟨id, text⟩ else row) = row := by
    intro row hrow
    rw [if_neg]
    intro e
    exact hid (h.mem_iff.mpr ⟨row, hrow, beq_iff_eq.mp e⟩)
  exact (List.map_congr_left hsame).trans (List.map_id' rows)

theorem Shows.erase (h : Shows rows m) (id : Guid) : Shows (rows.filter (·.id != id)) (m.erase id) := by
  refine ⟨?ids, ?sound, ?complete⟩
  case ids => exact (List.filter_sublist.map _).nodup h.ids
  case sound =>
    intro row hrow
    obtain ⟨hrow, hne⟩ := List.mem_filter.mp hrow
    obtain ⟨d, hd, hlookup⟩ := h.sound row hrow
    exact ⟨d, hd, (Finmap.lookup_erase_ne (by simpa using hne)).trans hlookup⟩
  case complete =>
    intro id' hid'
    obtain ⟨hne, hid'⟩ := Finmap.mem_erase.mp hid'
    obtain ⟨row, hrow, rfl⟩ := h.complete id' hid'
    exact ⟨row, List.mem_filter.mpr ⟨hrow, by simpa using hne⟩, rfl⟩

theorem Shows.lookup (h : Shows rows m) (id : Guid) :
    ((rows.find? (·.id == id)).mapM fun row => decode row.document) = (m.lookup id).mapM kept := by
  cases hfind : rows.find? (·.id == id) with
  | none =>
    have hid : id ∉ m := by
      intro hid
      obtain ⟨row, hrow, e⟩ := h.complete id hid
      exact List.find?_eq_none.mp hfind row hrow (beq_iff_eq.mpr e)
    rw [Finmap.lookup_eq_none.mpr hid]
    rfl
  | some row =>
    obtain ⟨document, hd, hlookup⟩ := h.sound row (List.mem_of_find?_eq_some hfind)
    obtain rfl : row.id = id := by simpa using List.find?_some hfind
    rw [hlookup]
    show (decode row.document).map some = (kept document).map some
    rw [hd]

theorem Shows.card (h : Shows rows m) : m.keys.card = rows.length := by
  have hkeys : m.keys = (rows.map (·.id)).toFinset := by
    ext id
    rw [Finmap.mem_keys, h.mem_iff]
    simp
  rw [hkeys, List.toFinset_card_of_nodup h.ids, List.length_map]

/-- The rows in whatever order are decoded as the entries are got back. -/
theorem Shows.lists (h : Shows rows m) {rows' : List Row} (hp : rows'.Perm rows) : ∃ documents, Lists m documents ∧
    documents.map (·.1) = rows'.map (·.id) ∧
      rows'.mapM decodeRow = documents.mapM fun e => (kept e.2).map (e.1, ·) := by
  refine ⟨rows'.map fun row => (row.id, (m.lookup row.id).getD .null), ⟨?once, ?entries⟩, ?ids, ?decoded⟩
  case once =>
    rw [List.map_map]
    exact (hp.map _).nodup_iff.mpr h.ids
  case entries =>
    intro id document
    rw [List.mem_map]
    constructor
    · intro hmem
      obtain ⟨row, hrow, e⟩ := hmem
      cases e
      obtain ⟨d, -, hlookup⟩ := h.sound row (hp.mem_iff.mp hrow)
      rw [hlookup]
      rfl
    · intro hlookup
      obtain ⟨row, hrow, rfl⟩ := h.complete id (Finmap.mem_of_lookup_eq_some hlookup)
      exact ⟨row, hp.mem_iff.mpr hrow, by rw [hlookup]; rfl⟩
  case ids =>
    rw [List.map_map]
    rfl
  case decoded =>
    rw [List.mapM_map]
    apply Except.mapM_congr
    intro row hrow
    obtain ⟨d, hd, hlookup⟩ := h.sound row (hp.mem_iff.mp hrow)
    show (decode row.document).bind _ = (kept ((m.lookup row.id).getD .null)).map _
    rw [hd, hlookup]
    show (kept d).bind _ = (kept d).map _
    cases kept d <;> rfl

end DocQuery.Collection
