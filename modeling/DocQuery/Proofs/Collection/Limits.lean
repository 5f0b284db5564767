/-
  DocQuery.Proofs.Collection.Limits — pages beyond the engine's integers.

  The bounds of a page stand in the statement as they are given. The engine reads them as integers of 64 bits
  with a sign, so a page fits below 2^63, and that is looked at before any row is. A page of no rows is not looked
  into at all and fits wherever it begins (`Page.Fits`). A query that finds something at all answers every page
  that fits with its part of the whole result, and refuses every other one, whatever there is to find
  (`find_on_page`). The largest number of rows that a page can ask for is no way of asking for all of them
  (`onePost_page_refused`).
-/

import DocQuery.Proofs.Collection.Paging
import DocQuery.Proofs.Store.Tables

namespace DocQuery

open Statement

/-- The page is empty, or its bounds are integers of the engine. -/
def Page.Fits (p : Page) : Prop := p.take = some 0 ∨ p.skip < 2 ^ 63 ∧ ∀ n, p.take = some n → n < 2 ^ 63

namespace Statement

variable {p : Page}

theorem checkPage_fits (h : p.Fits) : p.take = some 0 ∨ checkPage p = .ok () :=
  h.imp_right fun hbounds => checkPage_ok hbounds.1 hbounds.2

theorem checkPage_unfit (h : ¬ p.Fits) : checkPage p = .error .storage := by
  obtain ⟨skip, take⟩ := p
  obtain ⟨-, h⟩ := not_or.mp h
  cases take with
  | none =>
    have hskip : 2 ^ 63 ≤ skip := not_lt.mp fun hlt => h ⟨hlt, fun _ hn => nomatch hn⟩
    have hbounded : skip ≠ 0 := by omega
    simpa [checkPage, Page.isUnbounded, hbounded] using hskip
  | some n =>
    have hbound : 2 ^ 63 ≤ skip ∨ 2 ^ 63 ≤ n := by
      by_contra hboth
      obtain ⟨hskip, hn⟩ := not_or.mp hboth
      exact h ⟨not_le.mp hskip, fun m hm => Option.some.inj hm ▸ not_le.mp hn⟩
    simp only [checkPage, Page.isUnbounded, Option.isNone_some, Bool.and_false, Bool.not_false, Bool.true_and,
      Option.any_some, ge_iff_le, Bool.or_eq_true, decide_eq_true_eq]
    exact if_pos hbound

/-- A page that does not fit is refused before any row is read. -/
theorem rows_unfit (h : ¬ p.Fits) (s : Statement) (now : Nat) (parameters : List Cell) (table : List Row) :
    ({ s with page := p } : Statement).rows now parameters table = .error .storage := by
  have hmore : (p.take == some 0) = false := beq_eq_false_iff_ne.mpr (not_or.mp h).1
  unfold Statement.rows
  simp only [hmore, checkPage_unfit h]
  rfl

end Statement

namespace Collection

variable {c : Collection} {store : Store} {q : Option Query} {sorting : Sorting} {found : List (Guid × Json)}

/-- Where all rows are found, the query compiles to a statement that the store admits and answers from its table. -/
theorem find_bound (h : c.find store q sorting .all = .ok found) : ∃ relation request rows,
    boundRequest c.schema q (c.effectiveSorting sorting).keys = .ok request ∧
    store.Admits (requestCompiled .sqlite c.table .all request) ∧ store.relation c.table = .ok relation ∧
    (requestCompiled .sqlite c.table .all request).statement.rows store.clock
      (Store.cells (requestCompiled .sqlite c.table .all request)) relation.rows = .ok rows ∧
    rows.mapM decodeRow = .ok found := by
  obtain ⟨compiled, hcompile, h⟩ := Except.bind_eq_ok.mp h
  rw [compile, select_eq] at hcompile
  obtain ⟨request, hrequest, rfl⟩ := reported_eq_ok.mp hcompile
  obtain ⟨rows, hrows, hfound⟩ := Except.bind_eq_ok.mp h
  by_cases hadmits : store.Admits (requestCompiled .sqlite c.table .all request)
  · obtain ⟨relation, htarget, hanswer⟩ := Except.bind_eq_ok.mp hrows
    exact ⟨relation, request, rows, hrequest, hadmits, (if_pos hadmits).symm.trans htarget, hanswer, hfound⟩
  · cases (Store.query_refused hadmits).symm.trans hrows

section pages

variable (h : c.find store q sorting .all = .ok found) {page : Page}

include h

theorem find_fits (hfits : page.Fits) : c.find store q sorting page = .ok (page.window found) := by
  obtain ⟨relation, request, rows, hrequest, hadmits, hrelation, hrows, hfound⟩ := find_bound h
  exact (find_cut hrequest hadmits hrelation hrows (checkPage_fits hfits)).trans (mapM_window hfound page)

theorem find_unfit (hunfit : ¬ page.Fits) : c.find store q sorting page = .error .storage := by
  obtain ⟨relation, request, rows, hrequest, hadmits, hrelation, -⟩ := find_bound h
  have hrefused := rows_unfit hunfit (requestCompiled .sqlite c.table .all request).statement store.clock
    (Store.cells (requestCompiled .sqlite c.table .all request)) relation.rows
  rw [find_eq hrequest, Store.query_admitted (Store.admits_page page hadmits) hrelation]
  exact congrArg (Except.bind · (·.mapM decodeRow)) hrefused

/-- A query that finds all rows finds those of every page that fits, and none of the other pages is answered. -/
theorem find_on_page (page : Page) :
    (page.Fits → c.find store q sorting page = .ok (page.window found)) ∧
    (¬ page.Fits → c.find store q sorting page = .error .storage) :=
  ⟨find_fits h, find_unfit h⟩

end pages

/-! ## A page of a post -/

def onePost : Row := rowOf 1 (rankedPost 2)

theorem onePost_reachable : Store.Reachable .inMemory (storeOf [onePost]) := by
  have hcreated : (Store.empty .inMemory).ensureTable posts = .ok (storeOf []) := by rfl
  have hinserted : (storeOf []).insert posts onePost = .ok (storeOf [onePost]) := by rfl
  exact .step (.step .empty (.ensureTable hcreated)) (.insert hinserted)

theorem onePost_found : ∃ e, rankedPosts.find (storeOf [onePost]) none .none .all = .ok [e] := by
  have hbound : boundRequest ranked none (rankedPosts.effectiveSorting .none).keys =
      .ok (none, [.identity .ascending]) := by rfl
  have hadmits : (storeOf [onePost]).Admits (requestCompiled .sqlite posts .all (none, [.identity .ascending])) := by
    decide +kernel
  have hselects : ∀ row ∈ [onePost], ∃ b, selects 0 [] none ⟨row, []⟩ = .ok b := fun _ _ => ⟨true, rfl⟩
  obtain ⟨found, left, hrows, -, hleft, hfound⟩ :=
    rows_unjoined (s := (requestCompiled .sqlite posts .all (none, [.identity .ascending])).statement) rfl rfl
      (by simp [requestCompiled, ByIdentity, BoundKey.order]) hselects
  have hone : left.map (·.row) = [onePost] := List.perm_singleton.mp ((hleft.map _).trans hfound)
  obtain ⟨e, he⟩ : ∃ e, decodeRow onePost = .ok e :=
    decode_ok (by rfl : Json.read? onePost.document = some (rankedPost 2))
  refine ⟨e, ?_⟩
  rw [find_eq hbound]
  refine Except.bind_eq_ok.mpr ⟨_, (Store.query_admitted hadmits (storeOf_relation _)).trans hrows, ?_⟩
  rw [hone, List.mapM_cons, he]
  rfl

/-- As many rows as the engine counts to are all of them. -/
theorem onePost_page_found : ∃ e, rankedPosts.find (storeOf [onePost]) none .none .all = .ok [e] ∧
    rankedPosts.find (storeOf [onePost]) none .none ⟨0, some (2 ^ 63 - 1)⟩ = .ok [e] := by
  have hfits : Page.Fits ⟨0, some (2 ^ 63 - 1)⟩ := .inr ⟨by decide, fun n hn => by cases hn; decide⟩
  obtain ⟨e, he⟩ := onePost_found
  exact ⟨e, he, (find_on_page he ⟨0, some (2 ^ 63 - 1)⟩).1 hfits⟩

/-- A page of one row more, which is below 2^64, is refused. -/
theorem onePost_page_refused : ¬ ∀ (c : Collection) (config : Store.Config) (store : Store) (q : Option Query)
    (sorting : Sorting) (page : Page), c.schema.Built → Store.Reachable config store →
    (∃ found, c.find store q sorting .all = .ok found) → page.skip < 2 ^ 64 →
    (∀ n, page.take = some n → n < 2 ^ 64) → ∃ found, c.find store q sorting page = .ok found := by
  intro hall
  have hskip : (⟨0, some (2 ^ 63)⟩ : Page).skip < 2 ^ 64 := by decide
  have htake : ∀ n, (⟨0, some (2 ^ 63)⟩ : Page).take = some n → n < 2 ^ 64 := fun n hn => by cases hn; decide
  have hunfit : ¬ Page.Fits ⟨0, some (2 ^ 63)⟩ := by
    intro h
    rcases h with hempty | ⟨-, hbelow⟩
    · cases hempty
    · exact absurd (hbelow _ rfl) (by decide)
  obtain ⟨e, he⟩ := onePost_found
  obtain ⟨found, hfound⟩ := hall rankedPosts .inMemory (storeOf [onePost]) none .none ⟨0, some (2 ^ 63)⟩ ranked_built
    onePost_reachable ⟨_, he⟩ hskip htake
  cases (find_unfit he hunfit).symm.trans hfound

end Collection

end DocQuery
