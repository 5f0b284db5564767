/-
  DocQuery.Proofs.Collection.Compiled — the statements of a collection that is asked for no order.

  The keys of no order are identities, if there are any. They bind always and join nothing, so a query is refused
  for its own offences only, by the statement for rows and by that for their number (`compile_cases`). The store
  admits both or neither (`admits_number_iff`).
-/

import DocQuery.Collection
import DocQuery.Proofs.Store.Admission

namespace DocQuery.Collection

open Statement

variable {c : Collection} {q : Option Query}

/-- The keys of a collection that is asked for no order. -/
def defaultKeys (c : Collection) : List BoundKey := if c.sortByIdentity then [.identity .ascending] else []

theorem boundKeys_default (c : Collection) :
    boundKeys c.schema (c.effectiveSorting .none).keys = .ok c.defaultKeys := by
  unfold effectiveSorting defaultKeys
  cases c.sortByIdentity <;> rfl

/-- The default order adds neither joins nor errors to a query. -/
theorem boundRequest_default (c : Collection) (q : Option Query) :
    boundRequest c.schema q (c.effectiveSorting .none).keys =
      (boundRequest c.schema q []).map fun r => (r.1, c.defaultKeys) := by
  cases q with
  | none => simp only [boundRequest, boundKeys_default]; rfl
  | some q =>
    simp only [boundRequest, boundKeys_default]
    cases boundTree c.schema q <;> rfl

theorem defaultKeys_paths (c : Collection) : c.defaultKeys.filterMap BoundKey.path? = [] := by
  unfold defaultKeys
  cases c.sortByIdentity <;> rfl

theorem defaultKeys_sortArrays (c : Collection) : sortArrays c.defaultKeys = [] := by
  rw [sortArrays, defaultKeys_paths]
  rfl

theorem requestJoins_default (c : Collection) (t : Option BoundTree) :
    requestJoins t c.defaultKeys = requestJoins t [] := by
  unfold requestJoins requestPlan
  rw [defaultKeys_paths]
  rfl

/-- The statement for the rows of a query in no order. -/
def compiledRows (c : Collection) (t : Option BoundTree) : Compiled :=
  requestCompiled .sqlite c.table .all (t, c.defaultKeys)

/-- The statement for their number. -/
def compiledNumber (c : Collection) (t : Option BoundTree) : Compiled :=
  ⟨.sqlite, requestStatement .count c.table .all t [], t.elim [] BoundTree.values⟩

/-- A query that is bound is compiled with the keys of no order. -/
theorem compile_default {t : Option BoundTree} (h : boundRequest c.schema q [] = .ok (t, [])) :
    c.compile q .none .all = .ok (c.compiledRows t) := by
  unfold compile
  rw [select_eq, boundRequest_default, h]
  rfl

theorem count_default {t : Option BoundTree} (h : boundRequest c.schema q [] = .ok (t, [])) :
    Statement.count c.schema .sqlite c.table q = .ok (c.compiledNumber t) := by
  rw [count_eq, h]
  rfl

/-- A query is bound, or both statements are refused for its offence. -/
theorem compile_cases (c : Collection) (q : Option Query) :
    (∃ t, Statement.count c.schema .sqlite c.table q = .ok (c.compiledNumber t) ∧
      c.compile q .none .all = .ok (c.compiledRows t)) ∨
    ∃ e, Statement.count c.schema .sqlite c.table q = .error e ∧ c.compile q .none .all = .error e := by
  cases h : boundRequest c.schema q [] with
  | error o =>
    right
    unfold compile
    rw [count_eq, select_eq, boundRequest_default, h]
    exact ⟨o.error .sqlite, rfl, rfl⟩
  | ok request =>
    obtain ⟨t, keys⟩ := request
    obtain rfl : keys = [] := (Except.ok.inj (boundRequest_ok h).1).symm
    exact .inl ⟨t, count_default h, compile_default h⟩

theorem compile_bound {q : Query} {compiled : Compiled} (h : c.compile (some q) .none .all = .ok compiled) :
    ∃ t, boundTree c.schema q = .ok t ∧ compiled = c.compiledRows (some t) := by
  rw [compile, select_eq] at h
  obtain ⟨⟨t, keys⟩, hb, rfl⟩ := reported_eq_ok.mp h
  obtain ⟨hkeys, hquery⟩ := boundRequest_ok hb
  obtain rfl := Except.ok.inj (hkeys.symm.trans (boundKeys_default c))
  rcases hquery with ⟨e, -⟩ | ⟨_, t, e, rfl, ht⟩
  · cases e
  · cases e
    exact ⟨t, ht, rfl⟩

theorem boundRequest_tree {schema : Schema} {q : Query} {t : BoundTree} (h : boundTree schema q = .ok t) :
    boundRequest schema (some q) [] = .ok (some t, []) := by
  simp only [boundRequest, h]
  rfl

/-! ## Admission -/

theorem defaultKeys_length (c : Collection) : c.defaultKeys.length ≤ 1 := by
  unfold defaultKeys
  split
  · exact le_rfl
  · exact Nat.zero_le 1

theorem defaultKeys_order (c : Collection) (t : Option BoundTree) :
    (c.compiledRows t).statement.order.length ≤ 2000 := by
  have := c.defaultKeys_length
  simp only [compiledRows, requestCompiled, List.length_map]
  omega

/-- The statement for all rows is always admitted. -/
theorem admits_all (c : Collection) (s : Store) : s.Admits (c.compiledRows none) where
  fits :=
    { depth := fun _ hk => nomatch hk
      joins := by
        show (requestJoins none c.defaultKeys).length < 64
        rw [requestJoins_default]
        decide
      order := c.defaultKeys_order none
      parameters := Nat.zero_le 32766 }
  seen hlists := by
    have hlists : (!(requestJoins none c.defaultKeys).isEmpty || false) = true := hlists
    rw [requestJoins_default] at hlists
    cases hlists

/-- What is admitted in some order is admitted in no order. -/
theorem admits_unsorted {s : Store} {t : Option BoundTree} {keys : List BoundKey}
    (h : s.Admits (requestCompiled .sqlite c.table .all (t, keys))) : s.Admits (c.compiledRows t) := by
  refine h.mono (fun k hk => ⟨k, hk, .refl k⟩) (requestJoins_length_le ?_) (c.defaultKeys_order t) le_rfl
  intro r hr
  simp only [requestPaths, c.defaultKeys_paths, List.append_nil] at hr
  exact List.mem_append_left _ hr

/-- Counting is admitted where finding is. -/
theorem admits_number_iff {s : Store} {t : Option BoundTree} :
    s.Admits (c.compiledNumber t) ↔ s.Admits (c.compiledRows t) := by
  have hjoins : (requestJoins t c.defaultKeys).length = (requestJoins t []).length := by rw [requestJoins_default]
  constructor
  · intro h
    exact h.mono (fun k hk => ⟨k, hk, .refl k⟩) hjoins.le (c.defaultKeys_order t) le_rfl
  · intro h
    exact h.mono (fun k hk => ⟨k, hk, .refl k⟩) hjoins.ge (Nat.zero_le 2000) le_rfl

end DocQuery.Collection
