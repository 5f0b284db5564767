/-
  DocQuery.Proofs.Store.Guids — looking for a guid among stored texts.

  A guid has many spellings and one text that is written for it (`Guid.read?_text`). What is asked for is
  turned into that text, whichever way it was spelled; what is stored is a text and is compared as it stands.
  So every spelling of a guid asks for the same documents, and these are the ones that hold its written
  text (`query_guid`). As built, a document that holds another spelling is not found, not even by a query
  with that very spelling (`spelled_missed`).
-/

import DocQuery.Proofs.Json.RoundTrip
import DocQuery.Proofs.Store.Membership

namespace DocQuery

open DocQuery.Path Statement

/-! ## Texts among values -/

namespace Cell

theorem compares_text_iff {v : Cell} {s : String} : compares .equalTo v (.text s) = some true ↔ v = .text s := by
  cases v with
  | text t =>
    show some (Comparison.equalTo.admits (compareTexts t s)) = some true ↔ _
    rw [compareTexts_eq]
    rcases lt_trichotomy t s with hlt | heq | hgt
    · simp [hlt, hlt.ne, Comparison.admits]
    · simp [heq, Comparison.admits]
    · simp [lt_asymm hgt, hgt.ne', Comparison.admits]
  | null => simp [compares, isNull]
  | integer n => simp [compares, isNull, order, Comparison.admits]
  | real x => simp [compares, isNull, order, Comparison.admits]

theorem text_compares_iff {v : Cell} {s : String} : compares .equalTo (.text s) v = some true ↔ v = .text s := by
  cases v with
  | text t =>
    have h := compares_text_iff (v := .text s) (s := t)
    rw [h, text.injEq, text.injEq]
    exact eq_comm
  | null => simp [compares, isNull]
  | integer n => simp [compares, isNull, order, Comparison.admits]
  | real x => simp [compares, isNull, order, Comparison.admits]

theorem has_text {s : String} {set : List Cell} : (text s).Has set ↔ .text s ∈ set := by
  simp only [Has, text_compares_iff]
  simp

end Cell

/-- Of values that are handed on as a written guid there is one: the text of the guid. -/
theorem Json.cell_eq_guid {j : Json} {g : Guid} : j.cell = .text g.text ↔ j = .string g.text := by
  obtain ⟨d, hhead⟩ := g.text_head
  obtain ⟨hbracket, hbrace⟩ := Guid.hexChar_ne_bracket d
  cases j with
  | string s => simp [cell]
  | array items =>
    have hne : (Json.array items).compact ≠ g.text := by
      intro e
      rw [← e] at hhead
      simp [compact] at hhead
      exact hbracket hhead.symm
    simpa [cell] using hne
  | object members =>
    have hne : (Json.object members).compact ≠ g.text := by
      intro e
      rw [← e] at hhead
      simp [compact] at hhead
      exact hbrace hhead.symm
    simpa [cell] using hne
  | null => simp [cell]
  | bool b => simp [cell]
  | int n => simp only [cell]; split <;> simp
  | float x => simp only [cell, Cell.ofFloat]; split <;> simp

namespace Statement

/-- The document has this text at the path, or among the members of the array there. -/
def HoldsText (r : ResolvedPath) (doc : Json) (s : String) : Prop :=
  ∃ j, Json.follow r.names doc = some j ∧ if r.terminal.kind = .valueArray then .string s ∈ j.elements else j = .string s

/-- The query that asks for a value of a field, or for a member of an array. -/
def lookupQuery (r : ResolvedPath) (field : String) (v : Value) : Query :=
  .unary field (if r.terminal.kind = .valueArray then .contains else .comparison .equalTo) v

/-! ## Lookups -/

section lookups

variable {r : ResolvedPath} {doc : Json} (now : Nat) (g : Guid)

omit now in
theorem cellAt_guid : cellAt r doc = .text g.text ↔ Json.follow r.names doc = some (.string g.text) := by
  unfold cellAt
  cases Json.follow r.names doc with
  | none => simp
  | some j =>
    simp only [Option.elim_some, Option.some.injEq]
    exact Json.cell_eq_guid

theorem membersAt_guid : .text g.text ∈ membersAt now r .guid doc ↔
    ∃ j, Json.follow r.names doc = some j ∧ .string g.text ∈ j.elements := by
  unfold membersAt
  cases Json.follow r.names doc with
  | none => simp
  | some j => simp [typed, Json.cell_eq_guid]

end lookups

variable {schema : Schema} {field : String} {r : ResolvedPath} {u : Value} {g : Guid}

theorem asGuid_text {s : String} (h : Guid.read? s = some g) : asGuid (.text s) = .guid g := by
  simp [asGuid, h]

theorem asGuid_not_null (hu : asGuid u = .guid g) : u.isNull = false := by
  cases u with
  | null => cases hu
  | _ => rfl

/-- What a lookup of a guid is compiled to, whichever way the guid was spelled. -/
def guidLeaf (r : ResolvedPath) (g : Guid) : Bound :=
  if r.terminal.kind = .valueArray then .member false r .guid (.guid g) else .compare .equalTo r .guid (.guid g)

theorem lookupQuery_bound (hfield : target? schema field = .ok (.path r)) (htype : r.terminal.element = .scalar .guid)
    (hu : asGuid u = .guid g) :
    boundRequest schema (some (lookupQuery r field u)) Sorting.none.keys = .ok (some (.leaf (guidLeaf r g)), []) := by
  have hcoerce : coerce u .guid = .guid g := hu
  unfold lookupQuery guidLeaf
  by_cases hkind : r.terminal.kind = .valueArray
  · rw [if_pos hkind, if_pos hkind, membership_bound hfield htype (asGuid_not_null hu) hkind, hcoerce]
  · rw [if_neg hkind, if_neg hkind, comparison_bound hfield htype (asGuid_not_null hu) hkind, hcoerce]

/-- A lookup among members is refused where they are not seen. -/
theorem guidLeaf_refused (hkind : r.terminal.kind = .valueArray) {store : Store} (hunseen : ¬ store.SeesMembers)
    (table : Table) :
    store.query (requestCompiled .sqlite table .all (some (.leaf (guidLeaf r g)), [])) = .error .storage := by
  unfold guidLeaf
  rw [if_pos hkind]
  exact query_member_refused hunseen .guid false (.guid g)

/-- The compiled lookup is answered by the rows that hold the guid as it is written. -/
theorem guidLeaf_rows (hr : r.Unjoined) {store : Store} {table : Table} {relation : Store.Relation}
    (hrelation : store.relation table = .ok relation)
    (hread : ∀ row ∈ relation.rows, ∃ doc, Json.readWith? .stored row.document = some doc)
    (hseen : r.terminal.kind = .valueArray → store.SeesMembers) : ∃ rows,
    store.query (requestCompiled .sqlite table .all (some (.leaf (guidLeaf r g)), [])) = .ok rows ∧
      ∀ row ∈ relation.rows, ∀ doc, Json.readWith? .stored row.document = some doc →
        (row ∈ rows ↔ HoldsText r doc g.text) := by
  unfold guidLeaf HoldsText
  by_cases hkind : r.terminal.kind = .valueArray
  · simp only [hkind, if_true]
    obtain ⟨rows, hrows, hmem⟩ := query_member hr.plain hkind hrelation hread (hseen hkind) .guid false (.guid g)
    refine ⟨rows, hrows, ?_⟩
    intro row hrow doc hdoc
    rw [hmem row hrow doc hdoc, ← membersAt_guid store.clock, ← Cell.has_text]
    exact Cell.isIn_eq_true rfl
  · simp only [hkind, if_false]
    obtain ⟨rows, hrows, hmem⟩ := query_compare hr hrelation hread .equalTo .guid (.guid g)
    refine ⟨rows, hrows, ?_⟩
    intro row hrow doc hdoc
    rw [hmem row hrow doc hdoc, exists_eq_right, ← cellAt_guid]
    exact Cell.compares_text_iff

/-- A guid is looked up alike in every spelling, and the documents found are those that hold the text
which is written for it. A store that does not see members refuses a lookup among them, and no other. -/
theorem query_guid (hfield : target? schema field = .ok (.path r)) (hplain : r.arrays = [])
    (htype : r.terminal.element = .scalar .guid) (hu : asGuid u = .guid g) {store : Store} {table : Table}
    {relation : Store.Relation} (hrelation : store.relation table = .ok relation)
    (hread : ∀ row ∈ relation.rows, ∃ doc, Json.readWith? .stored row.document = some doc) :
    Guid.read? g.text = some g ∧ ∃ c, select schema .sqlite table (some (lookupQuery r field u)) .none .all = .ok c ∧
      (r.terminal.kind = .valueArray ∧ ¬ store.SeesMembers → store.query c = .error .storage) ∧
      ((r.terminal.kind = .valueArray → store.SeesMembers) → ∃ rows, store.query c = .ok rows ∧
        ∀ row ∈ relation.rows, ∀ doc, Json.readWith? .stored row.document = some doc →
          (row ∈ rows ↔ HoldsText r doc g.text)) := by
  have hselect := select_of_bound (lookupQuery_bound hfield htype hu) .sqlite table .all
  refine ⟨g.read?_text, _, hselect, fun h => guidLeaf_refused h.1 h.2 table, fun hseen => ?_⟩
  exact guidLeaf_rows (target?_unjoined hfield hplain) hrelation hread hseen

/-! ## Posts with keys -/

/-- Posts with a key of their own and the keys of others. -/
def linked : Schema := ⟨"Post", [⟨"Post", [⟨"Key", .scalar .guid⟩, ⟨"Links", .array (.scalar .guid)⟩]⟩]⟩

def keyOfPost : ResolvedPath := ⟨[], ⟨"Key", .scalar, .scalar .guid⟩⟩

def linksOfPost : ResolvedPath := ⟨[], ⟨"Links", .valueArray, .scalar .guid⟩⟩

def linkedPost (key : String) : Json := .object [("Key", .string key), ("Links", .array [.string key])]

/-- The guid of zeros that ends in ten. -/
def ten : Guid := (rowOf 10 .null).id

/-- In capitals. -/
def spelledTen : String := "00000000-0000-0000-0000-00000000000A"

theorem linked_key : target? linked "Key" = .ok (.path keyOfPost) := by rfl

theorem linked_links : target? linked "Links" = .ok (.path linksOfPost) := by rfl

theorem spelledTen_read : Guid.read? spelledTen = some ten := by decide +kernel

/-- A post with the written key is found by the key in capitals. -/
theorem written_found : ∃ c rows,
    select linked .sqlite posts (some (lookupQuery keyOfPost "Key" (.text spelledTen))) .none .all = .ok c ∧
    (storeOf [rowOf 1 (linkedPost ten.text)]).query c = .ok rows ∧ rowOf 1 (linkedPost ten.text) ∈ rows := by
  have hdoc : Json.readWith? .stored (rowOf 1 (linkedPost ten.text)).document = some (linkedPost ten.text) := by
    rfl
  have hkey := asGuid_text spelledTen_read
  obtain ⟨-, c, hc, -, hanswered⟩ := query_guid linked_key rfl rfl hkey
    (storeOf_relation [rowOf 1 (linkedPost ten.text)]) (fun row hrow => ⟨_, List.mem_singleton.mp hrow ▸ hdoc⟩)
  obtain ⟨rows, hrows, hmem⟩ := hanswered (by decide +kernel)
  exact ⟨c, rows, hc, hrows, (hmem _ (List.mem_singleton.mpr rfl) _ hdoc).mpr ⟨_, rfl, rfl⟩⟩

/-- A post that holds the key in capitals is not found by that very text, nor by its link. -/
theorem spelled_missed : linked.Built ∧ Guid.read? spelledTen = some ten ∧
    target? linked "Key" = .ok (.path keyOfPost) ∧ keyOfPost.arrays = [] ∧
    target? linked "Links" = .ok (.path linksOfPost) ∧ linksOfPost.arrays = [] ∧
    Json.readWith? .stored (rowOf 1 (linkedPost spelledTen)).document = some (linkedPost spelledTen) ∧
    ∃ c c' equal containing,
    select linked .sqlite posts (some (.unary "Key" (.comparison .equalTo) (.text spelledTen))) .none .all = .ok c ∧
    select linked .sqlite posts (some (.unary "Links" .contains (.text spelledTen))) .none .all = .ok c' ∧
    (storeOf [rowOf 1 (linkedPost spelledTen)]).query c = .ok equal ∧
    (storeOf [rowOf 1 (linkedPost spelledTen)]).query c' = .ok containing ∧
    rowOf 1 (linkedPost spelledTen) ∉ equal ∧ rowOf 1 (linkedPost spelledTen) ∉ containing := by
  have hdoc : Json.readWith? .stored (rowOf 1 (linkedPost spelledTen)).document = some (linkedPost spelledTen) := by
    rfl
  have hkey := asGuid_text spelledTen_read
  have hne : spelledTen ≠ ten.text := by decide +kernel
  have hseen : (storeOf [rowOf 1 (linkedPost spelledTen)]).SeesMembers := by decide +kernel
  have hrows := fun r hr => guidLeaf_rows (r := r) (g := ten) hr
    (storeOf_relation [rowOf 1 (linkedPost spelledTen)]) (fun row hrow => ⟨_, List.mem_singleton.mp hrow ▸ hdoc⟩)
    (fun _ => hseen)
  obtain ⟨equal, hequal, hkeys⟩ := hrows keyOfPost (target?_unjoined linked_key rfl)
  obtain ⟨containing, hcontaining, hlinks⟩ := hrows linksOfPost (target?_unjoined linked_links rfl)
  refine ⟨⟨"Post", linked.types, by decide +kernel⟩, spelledTen_read, linked_key, rfl, linked_links, rfl, hdoc,
    _, _, equal, containing, select_of_bound (lookupQuery_bound linked_key rfl hkey) .sqlite posts .all,
    select_of_bound (lookupQuery_bound linked_links rfl hkey) .sqlite posts .all, hequal, hcontaining, ?_, ?_⟩
  · rw [hkeys _ (List.mem_singleton.mpr rfl) _ hdoc]
    intro h
    obtain ⟨j, hj, hkind⟩ := h
    cases hj
    exact hne (Json.string.inj hkind)
  · rw [hlinks _ (List.mem_singleton.mpr rfl) _ hdoc]
    intro h
    obtain ⟨j, hj, hkind⟩ := h
    cases hj
    exact hne (Json.string.inj (List.mem_singleton.mp hkind)).symm

end Statement

end DocQuery
