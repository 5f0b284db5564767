/-
  DocQuery.Proofs.Store.Tables — an identity stands once in a table.

  Tables start empty, and a row is only put in under an identity that is not taken or in the place
  of the row that has it. So what one operation keeps (`Step.keyed`) holds in every store that
  operations reach (`Reachable.ids_nodup`). Rows that are put in a table's place are found there, and
  tables of other names are as they were (`relation_setRows_self`, `relation_setRows_other`).
-/

import Mathlib.Data.List.Nodup
import DocQuery.Proofs.Outcome
import DocQuery.Store.Basic

namespace DocQuery.Store

/-- An operation that succeeded, from the store before it to the one after it. Between operations the clock moves. -/
inductive Step : Store → Store → Prop
  | wait (s : Store) (clock : Nat) : Step s { s with clock := clock }
  | reopen (s : Store) : Step s s.reopen
  | ensureTable {s s' : Store} {t : Table} : s.ensureTable t = .ok s' → Step s s'
  | insert {s s' : Store} {t : Table} {row : Row} : s.insert t row = .ok s' → Step s s'
  | update {s s' : Store} {t : Table} {row : Row} {found : Bool} : s.update t row = .ok (found, s') → Step s s'
  | delete {s s' : Store} {t : Table} {id : Guid} {found : Bool} : s.delete t id = .ok (found, s') → Step s s'

inductive Reachable (config : Config) : Store → Prop
  | empty : Reachable config (empty config)
  | step {s s' : Store} : Reachable config s → Step s s' → Reachable config s'

/-! ## One table among others -/

theorem relation_eq_ok {s : Store} {t : Table} {r : Relation} : s.relation t = .ok r ↔
    ((spaces t).findSome? fun space => s.find? ⟨space, Text.lower t.name⟩) = some r := by
  unfold relation
  generalize (spaces t).findSome? (fun space => s.find? ⟨space, Text.lower t.name⟩) = found
  cases found <;> simp

theorem relation_key {s : Store} {t : Table} {r : Relation} (h : s.relation t = .ok r) :
    r.key.name = Text.lower t.name := by
  obtain ⟨space, -, hspace⟩ := List.exists_of_findSome?_eq_some (relation_eq_ok.mp h)
  have hkey := List.find?_some hspace
  rw [beq_iff_eq.mp hkey]

theorem find?_setRows (s : Store) (key : Key) (rows : List Row) (k : Key) :
    (s.setRows key rows).find? k = (s.find? k).map fun r => if r.key == key then ⟨key, rows⟩ else r := by
  unfold find? setRows
  rw [List.find?_map]
  congr 2
  funext r
  by_cases h : r.key = key <;> simp [h]

theorem relation_setRows (s : Store) (key : Key) (rows : List Row) (t : Table) :
    (s.setRows key rows).relation t = (s.relation t).map fun r => if r.key == key then ⟨key, rows⟩ else r := by
  have hspaces : ((spaces t).findSome? fun space => (s.setRows key rows).find? ⟨space, Text.lower t.name⟩) =
      ((spaces t).findSome? fun space => s.find? ⟨space, Text.lower t.name⟩).map fun r =>
        if r.key == key then ⟨key, rows⟩ else r := by
    simp only [find?_setRows]
    exact List.map_findSome?.symm
  unfold relation
  rw [hspaces]
  cases (spaces t).findSome? fun space => s.find? ⟨space, Text.lower t.name⟩ <;> rfl

theorem relation_setRows_self {s : Store} {t : Table} {r : Relation} (h : s.relation t = .ok r) (rows : List Row) :
    (s.setRows r.key rows).relation t = .ok ⟨r.key, rows⟩ := by
  rw [relation_setRows, h]
  simp [Except.map]

theorem relation_setRows_other {s : Store} {t t' : Table} {r : Relation} (h : s.relation t = .ok r) (rows : List Row)
    (ht : Text.sameIgnoringCase t'.name t.name = false) : (s.setRows r.key rows).relation t' = s.relation t' := by
  rw [relation_setRows]
  cases hr : s.relation t' with
  | error e => rfl
  | ok r' =>
    have hne : r'.key ≠ r.key := by
      intro e
      have hname := relation_key hr
      rw [e, relation_key h] at hname
      simp [Text.sameIgnoringCase, hname] at ht
    simp [Except.map, hne]

theorem creationKey_ok {t : Table} {key : Key} (h : creationKey t = .ok key) :
    key.space ∈ spaces t ∧ key.name = Text.lower t.name := by
  unfold creationKey at h
  unfold spaces
  cases hschema : t.schema with
  | none =>
    simp only [hschema] at h ⊢
    split at h
    · cases h
    · cases h
      exact ⟨List.mem_cons_of_mem _ List.mem_cons_self, rfl⟩
  | some schema =>
    simp only [hschema] at h ⊢
    split at h
    · rename_i space hspace
      split at h
      · cases h
      · cases h
        exact ⟨Option.mem_toList.mpr hspace, rfl⟩
    · cases h

/-- A table that was not there is empty when it is created. -/
theorem ensureTable_new {s s' : Store} {t : Table} {e : Error} (hnew : s.relation t = .error e)
    (h : s.ensureTable t = .ok s') : ∃ key, s'.relation t = .ok ⟨key, []⟩ := by
  obtain ⟨key, hkey, h⟩ := Except.bind_eq_ok.mp h
  obtain ⟨hspace, hname⟩ := creationKey_ok hkey
  have hnone : ∀ space ∈ spaces t, s.find? ⟨space, Text.lower t.name⟩ = none := by
    apply List.findSome?_eq_none_iff.mp
    rw [Option.eq_none_iff_forall_ne_some]
    intro r hr
    rw [relation_eq_ok.mpr hr] at hnew
    cases hnew
  have hfree : s.find? key = none := by
    have hfree := hnone key.space hspace
    rwa [← hname] at hfree
  rw [hfree] at h
  obtain rfl : { s with relations := s.relations ++ [⟨key, []⟩] } = s' := Except.ok.inj h
  -- In every space of the table nothing is found but the new relation.
  have hfind : ∀ space ∈ spaces t, find? { s with relations := s.relations ++ [⟨key, []⟩] } ⟨space, Text.lower t.name⟩ =
      if key == ⟨space, Text.lower t.name⟩ then some ⟨key, []⟩ else none := by
    intro space hmem
    unfold find?
    rw [List.find?_append, show s.relations.find? _ = none from hnone space hmem, Option.none_or, List.find?_singleton]
  refine ⟨key, relation_eq_ok.mpr ?_⟩
  cases hfound : (spaces t).findSome? fun space =>
      find? { s with relations := s.relations ++ [⟨key, []⟩] } ⟨space, Text.lower t.name⟩ with
  | none =>
    have hkey := List.findSome?_eq_none_iff.mp hfound key.space hspace
    rw [hfind key.space hspace, ← hname] at hkey
    simp at hkey
  | some r =>
    obtain ⟨space, hmem, hr⟩ := List.exists_of_findSome?_eq_some hfound
    rw [hfind space hmem] at hr
    split at hr
    · exact hr.symm
    · cases hr

/-! ## Operations on rows -/

/-- The rows with another one in the place of that with its identity. -/
def replace (row : Row) (rows : List Row) : List Row := rows.map fun old => if old.id == row.id then row else old

variable {s s' : Store} {t : Table}

theorem insert_eq_ok {row : Row} : s.insert t row = .ok s' ↔ ∃ r, s.relation t = .ok r ∧
    r.rows.any (·.id == row.id) = false ∧ s.setRows r.key (r.rows ++ [row]) = s' := by
  unfold Store.insert
  cases s.relation t with
  | error e => simp [bind, Except.bind]
  | ok r =>
    simp only [Except.ok.injEq, exists_eq_left', bind, Except.bind]
    generalize r.rows.any (·.id == row.id) = taken
    cases taken <;> simp [pure, Except.pure]

theorem update_eq_ok {row : Row} {found : Bool} : s.update t row = .ok (found, s') ↔ ∃ r, s.relation t = .ok r ∧
    r.rows.any (·.id == row.id) = found ∧ s.setRows r.key (replace row r.rows) = s' := by
  unfold Store.update replace
  cases s.relation t with
  | error e => simp [bind, Except.bind]
  | ok r => simp [bind, Except.bind, pure, Except.pure]

theorem delete_eq_ok {id : Guid} {found : Bool} : s.delete t id = .ok (found, s') ↔ ∃ r, s.relation t = .ok r ∧
    r.rows.any (·.id == id) = found ∧ s.setRows r.key (r.rows.filter (·.id != id)) = s' := by
  unfold Store.delete
  cases s.relation t with
  | error e => simp [bind, Except.bind]
  | ok r => simp [bind, Except.bind, pure, Except.pure]

/-! ## Identities -/

/-- In every table an identity stands once. -/
def Keyed (s : Store) : Prop := ∀ r ∈ s.relations, (r.rows.map (·.id)).Nodup

theorem relation_mem {s : Store} {t : Table} {r : Relation} (h : s.relation t = .ok r) : r ∈ s.relations := by
  obtain ⟨space, -, hspace⟩ := List.exists_of_findSome?_eq_some (relation_eq_ok.mp h)
  exact List.mem_of_find?_eq_some hspace

theorem Keyed.setRows {s : Store} (h : s.Keyed) (key : Key) {rows : List Row} (hrows : (rows.map (·.id)).Nodup) :
    (s.setRows key rows).Keyed := by
  intro r hr
  obtain ⟨old, hold, rfl⟩ := List.mem_map.mp hr
  split
  · exact hrows
  · exact h old hold

theorem ids_replace (row : Row) (rows : List Row) : (replace row rows).map (·.id) = rows.map (·.id) := by
  rw [replace, List.map_map]
  refine List.map_congr_left fun old _ => ?_
  by_cases h : old.id = row.id <;> simp [h]

theorem Step.keyed {s s' : Store} (h : Step s s') (hs : s.Keyed) : s'.Keyed := by
  cases h with
  | wait => exact hs
  | reopen =>
    intro r hr
    unfold Store.reopen at hr
    split at hr
    · exact hs r (List.mem_of_mem_filter hr)
    · cases hr
  | @ensureTable _ t h =>
    obtain ⟨key, -, h⟩ := Except.bind_eq_ok.mp h
    cases h
    split
    · exact hs
    · intro r hr
      rcases List.mem_append.mp hr with hr | hr
      · exact hs r hr
      · obtain rfl := List.mem_singleton.mp hr
        exact List.nodup_nil
  | @insert _ t row h =>
    obtain ⟨r, hr, hfree, rfl⟩ := insert_eq_ok.mp h
    refine hs.setRows r.key ?_
    rw [List.map_append]
    refine List.nodup_append.mpr ⟨hs r (relation_mem hr), List.nodup_singleton _, fun id hid id' hid' e => ?_⟩
    obtain ⟨old, hold, rfl⟩ := List.mem_map.mp hid
    obtain rfl := List.mem_singleton.mp hid'
    exact List.any_eq_false.mp hfree old hold (beq_iff_eq.mpr e)
  | @update _ t row found h =>
    obtain ⟨r, hr, -, rfl⟩ := update_eq_ok.mp h
    exact hs.setRows r.key ((ids_replace row r.rows).symm ▸ hs r (relation_mem hr))
  | @delete _ t id found h =>
    obtain ⟨r, hr, -, rfl⟩ := delete_eq_ok.mp h
    exact hs.setRows r.key ((List.filter_sublist.map _).nodup (hs r (relation_mem hr)))

theorem Reachable.keyed {config : Config} {s : Store} (h : Reachable config s) : s.Keyed := by
  induction h with
  | empty => exact fun _ hr => nomatch hr
  | step _ hstep ih => exact hstep.keyed ih

/-- In a store that operations reach, a table has every identity once. -/
theorem Reachable.ids_nodup {config : Config} {s : Store} (h : Reachable config s) {t : Table} {r : Relation}
    (hr : s.relation t = .ok r) : (r.rows.map (·.id)).Nodup :=
  h.keyed r (relation_mem hr)

end DocQuery.Store
