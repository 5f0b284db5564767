/-
  DocQuery.Proofs.Collection.Paging — pages of a sorted result.

  Sort keys are the identity and scalar fields of texts, integers, doubles and truth values that no object
  array encloses (`SortsBy`). They join nothing, so the joins of a query's own paths neither drop nor repeat a
  row: the same rows come back as without sort keys. With the identity last no two of them are alike to the
  keys, and so their order is strict. A page is cut out of the whole result after sorting (`rows_page`), so it
  is those rows of it that come after the ones passed over, as many as are taken (`find_page`).
-/

import DocQuery.Proofs.Store.Sorting

namespace DocQuery

open DocQuery.Path Statement

/-! ## Pages -/

/-- The rows after the first `skip`, all of them or as many as are taken. -/
def Page.window {α : Type} (p : Page) (rows : List α) : List α := (rows.drop p.skip).take (p.take.getD rows.length)

theorem Page.select_window {α : Type} (p : Page) (rows : List α) : p.select rows = p.window rows := by
  unfold Page.select Page.window
  cases p.take with
  | some n => rfl
  | none => exact (List.take_of_length_le (by simp)).symm

namespace Statement

/-- Bounds below 2^63 fit the engine's integers. -/
theorem checkPage_ok {p : Page} (hskip : p.skip < 2 ^ 63) (htake : ∀ n, p.take = some n → n < 2 ^ 63) :
    checkPage p = .ok () := by
  have htaken : p.take.any (· ≥ Nat.pow 2 63) = false := by
    cases h : p.take with
    | none => rfl
    | some n => simpa using htake n h
  have hskipped : ¬ p.skip ≥ Nat.pow 2 63 := by simpa using hskip
  simp [checkPage, htaken, hskipped]

/-- A page is cut out of all rows. An empty one is cut out wherever it begins. -/
theorem rows_page {page : Page} (hpage : page.take = some 0 ∨ checkPage page = .ok ()) {s : Statement} {now : Nat}
    {parameters : List Cell} {table rows : List Row}
    (h : ({ s with page := .all } : Statement).rows now parameters table = .ok rows) :
    ({ s with page } : Statement).rows now parameters table = .ok (page.window rows) := by
  have hall : checkPage .all = .ok () := rfl
  have hnone : (Page.all.take == some 0) = false := rfl
  have hmatching : ∀ p : Page, matching { s with page := p } = matching s := fun _ => rfl
  have hscan : ∀ p : Page, scan { s with page := p } = scan s := fun _ => rfl
  unfold Statement.rows at h ⊢
  by_cases hempty : page.take = some 0
  · simp [hempty, Page.window, pure, Except.pure]
  · have htake : (page.take == some 0) = false := by simpa using hempty
    simp only [htake, hnone, hall, hpage.resolve_left hempty, hmatching, hscan, bind, Except.bind, Bool.false_eq_true,
      if_false] at h ⊢
    cases hfound : matching s now parameters (scan s table) with
    | error e =>
      rw [hfound] at h
      cases h
    | ok found =>
      rw [hfound] at h
      dsimp only at h ⊢
      cases hleft : sorted now s.order (if s.joins.isEmpty then found else groups s.joins found) with
      | error e =>
        rw [hleft] at h
        cases h
      | ok left =>
        rw [hleft] at h
        obtain rfl : left.map (·.row) = rows := Except.ok.inj h
        exact congrArg Except.ok (page.select_window _)

end Statement

namespace Collection

/-- The bound form of a sort key: the identity, or a scalar field that is sorted by its values. -/
inductive SortsBy (schema : Schema) (k : SortKey) : BoundKey → Prop
  | identity : Text.trim k.field = identityField → SortsBy schema k (.identity k.direction)
  | field {r : ResolvedPath} {type : Scalar} : Text.trim k.field ≠ identityField →
      SortField schema (Text.trim k.field) r type → SortsBy schema k (.field r type k.direction)

theorem SortsBy.plain {schema : Schema} {k : SortKey} {b : BoundKey} (h : SortsBy schema k b) : b.Plain schema := by
  cases h with
  | identity => trivial
  | field _ hfield => exact ⟨_, hfield⟩

theorem SortsBy.bound {schema : Schema} {k : SortKey} {b : BoundKey} (h : SortsBy schema k b) :
    boundKey schema k = .ok b := by
  cases h with
  | identity hid =>
    have htarget : target? schema k.field = .ok .identity := by rw [target?, if_pos (beq_iff_eq.mpr hid)]
    simp [boundKey, target?_not_blank htarget, htarget, Except.bind, boundKeyTarget]
  | @field r type hid hfield =>
    have htarget : target? schema k.field = .ok (.path r) := by
      rw [target?, if_neg (by simpa using hid), hfield.resolved]
      rfl
    simp [boundKey, target?_not_blank htarget, htarget, Except.bind, boundKeyTarget, hfield.scalar, hfield.element,
      scalar?, Except.map]

/-- A key on the identity is bound as one. -/
theorem SortsBy.of_identity {schema : Schema} {k : SortKey} {b : BoundKey} (h : SortsBy schema k b)
    (hid : Text.trim k.field = identityField) : b = .identity k.direction := by
  cases h with
  | identity => rfl
  | field hne => exact absurd hid hne

section keys

variable {schema : Schema} {given : List SortKey} {keys : List BoundKey}
  (h : List.Forall₂ (SortsBy schema) given keys)

include h

theorem boundKeys_sortsBy : boundKeys schema given = .ok keys := by
  induction h with
  | nil => rfl
  | cons hk _ ih => rw [boundKeys, hk.bound, ih]; rfl

theorem plain_sortsBy : ∀ b ∈ keys, b.Plain schema := by
  induction h with
  | nil => exact fun _ hb => nomatch hb
  | cons hk _ ih => exact List.forall_mem_cons.mpr ⟨hk.plain, ih⟩

theorem identity_sortsBy (hid : ∃ k ∈ given, Text.trim k.field = identityField) :
    ∃ direction, .identity direction ∈ keys := by
  induction h with
  | nil => exact hid.elim fun _ hk => nomatch hk.1
  | @cons k b _ _ hk _ ih =>
    obtain ⟨k', hk', hfield⟩ := hid
    rcases List.mem_cons.mp hk' with rfl | hk'
    · refine ⟨k'.direction, ?_⟩
      rw [hk.of_identity hfield]
      exact List.mem_cons_self
    · exact (ih ⟨k', hk', hfield⟩).imp fun _ => List.mem_cons_of_mem b

end keys

/-- Rows of documents, each of them before all that follow. -/
def Ascends (schema : Schema) (keys : List BoundKey) (rows : List Row) : Prop :=
  rows.Pairwise fun a b => ∃ doc doc', a.Holds schema doc ∧ b.Holds schema doc' ∧ Before keys (a.id, doc) (b.id, doc')

theorem ascends_of_before {schema : Schema} {keys : List BoundKey} {table rows : List Row}
    (hdocs : Documents schema table) (hstored : ∀ row ∈ rows, row ∈ table)
    (h : rows.Pairwise fun a b => Before keys (entryOf a) (entryOf b)) : Ascends schema keys rows := by
  apply h.imp_of_mem
  intro a b ha hb hab
  obtain ⟨doc, hdoc⟩ := hdocs.holds a (hstored a ha)
  obtain ⟨doc', hdoc'⟩ := hdocs.holds b (hstored b hb)
  rw [entryOf_holds hdoc, entryOf_holds hdoc'] at hab
  exact ⟨doc, doc', hdoc, hdoc', hab⟩

theorem mapM_window {found : List (Guid × Json)} {rows : List Row} (h : rows.mapM decodeRow = .ok found)
    (page : Page) : (page.window rows).mapM decodeRow = .ok (page.window found) := by
  have hpairs := Except.mapM_forall₂.mp h
  unfold Page.window
  rw [hpairs.length_eq]
  exact Except.mapM_forall₂.mpr (List.forall₂_take _ (List.forall₂_drop _ hpairs))

/-- A query that is bound with other sort keys means the same. -/
theorem boundRequest_keyed {schema : Schema} {q : Option Query} {given given' : List SortKey} {t : Option BoundTree}
    {keys keys' : List BoundKey} (h : boundRequest schema q given = .ok (t, keys))
    (hkeys : boundKeys schema given' = .ok keys') : boundRequest schema q given' = .ok (t, keys') := by
  rcases (boundRequest_ok h).2 with ⟨rfl, rfl⟩ | ⟨q, tree, rfl, rfl, htree⟩
  · simp only [boundRequest, hkeys]
    rfl
  · simp only [boundRequest, htree, hkeys]
    rfl

/-- Sort keys that are given are the ones that count. -/
theorem effectiveSorting_keys {c : Collection} {sorting : Sorting} (h : sorting.keys ≠ []) :
    c.effectiveSorting sorting = sorting := by
  have hgiven : sorting.isEmpty = false := List.isEmpty_eq_false_iff.mpr h
  simp [effectiveSorting, hgiven]

theorem defaultKeys_plain (c : Collection) : ∀ k ∈ c.defaultKeys, k.Plain c.schema := by
  intro k hk
  unfold defaultKeys at hk
  split at hk
  · obtain rfl := List.mem_singleton.mp hk
    trivial
  · cases hk

section find

variable {c : Collection} {store : Store} {q : Option Query}

/-- Finding reads the rows that the bound request selects. -/
theorem find_eq {sorting : Sorting} {request : Option BoundTree × List BoundKey}
    (hb : boundRequest c.schema q (c.effectiveSorting sorting).keys = .ok request) (page : Page) :
    c.find store q sorting page =
      (store.query (requestCompiled .sqlite c.table page request)).bind (·.mapM decodeRow) := by
  unfold find compile
  rw [select_of_bound hb]
  rfl

/-- A page that is answered has its rows of all that are. -/
theorem find_cut {sorting : Sorting} {request : Option BoundTree × List BoundKey}
    (hb : boundRequest c.schema q (c.effectiveSorting sorting).keys = .ok request)
    (hadmits : store.Admits (requestCompiled .sqlite c.table .all request)) {relation : Store.Relation}
    (hrel : store.relation c.table = .ok relation) {rows : List Row}
    (hrows : (requestCompiled .sqlite c.table .all request).statement.rows store.clock
      (Store.cells (requestCompiled .sqlite c.table .all request)) relation.rows = .ok rows)
    {page : Page} (hpage : page.take = some 0 ∨ checkPage page = .ok ()) :
    c.find store q sorting page = (page.window rows).mapM decodeRow := by
  have hcut := rows_page (s := (requestCompiled .sqlite c.table .all request).statement) hpage hrows
  rw [find_eq hb, Store.query_admitted (Store.admits_page page hadmits) hrel]
  exact congrArg (Except.bind · (·.mapM decodeRow)) hcut

variable {relation : Store.Relation} (hrel : store.relation c.table = .ok relation) (hs : c.schema.Built)
  (hdocs : Documents c.schema relation.rows)

include hrel hs hdocs

/-- Finding all reads the answer to the bound request. -/
theorem find_answers {sorting : Sorting} {t : Option BoundTree} {keys : List BoundKey}
    (hb : boundRequest c.schema q (c.effectiveSorting sorting).keys = .ok (t, keys))
    (hadmits : store.Admits (requestCompiled .sqlite c.table .all (t, keys))) : ∃ rows,
    (requestCompiled .sqlite c.table .all (t, keys)).statement.rows store.clock
      (Store.cells (requestCompiled .sqlite c.table .all (t, keys))) relation.rows = .ok rows ∧
    c.find store q sorting .all = rows.mapM decodeRow ∧
    Statement.Answers store.clock shadowed c.schema t keys relation.rows rows := by
  obtain ⟨rows, hrows, hanswers⟩ := rows_answers hs (boundRequest_resolved hb) store.clock hdocs .sqlite c.table
  refine ⟨rows, hrows, ?_, hanswers⟩
  rw [find_eq hb, Store.query_admitted hadmits hrel, hrows]
  rfl

variable (hints : ∀ row ∈ relation.rows, ∀ doc, row.Holds c.schema doc → doc.FitsInt64)

include hints

/-- A sorted result goes up strictly by its keys and has the rows of the unsorted one. A page of it is those of
its rows that come after the ones passed over. A store that does not admit the sorted statement refuses the whole
and the page alike. -/
theorem find_page {compiled : Compiled} (hc : c.compile q .none .all = .ok compiled) {sorting : Sorting}
    {keys : List BoundKey} (hkeys : List.Forall₂ (SortsBy c.schema) sorting.keys keys)
    (hid : ∃ k ∈ sorting.keys, Text.trim k.field = identityField) {page : Page}
    (hskip : page.skip < 2 ^ 63) (htake : ∀ n, page.take = some n → n < 2 ^ 63) :
    ∃ ordered, c.compile q sorting .all = .ok ordered ∧
      (¬ store.Admits ordered →
        c.find store q sorting .all = .error .storage ∧ c.find store q sorting page = .error .storage) ∧
      (store.Admits ordered → ∃ rows unsorted, c.find store q .none .all = unsorted.mapM decodeRow ∧
        rows.Perm unsorted ∧ (∀ row ∈ rows, row ∈ relation.rows) ∧ Ascends c.schema keys rows ∧
        c.find store q sorting .all = rows.mapM decodeRow ∧
        (∀ found, c.find store q sorting .all = .ok found → c.find store q sorting page = .ok (page.window found)) ∧
        ((∀ row ∈ relation.rows, ∃ e, decodeRow row = .ok e) →
          ∃ found, c.find store q sorting .all = .ok found)) := by
  rw [compile, select_eq] at hc
  obtain ⟨⟨t, keys₀⟩, hb₀, -⟩ := reported_eq_ok.mp hc
  obtain rfl : c.defaultKeys = keys₀ := Except.ok.inj ((boundKeys_default c).symm.trans (boundRequest_ok hb₀).1)
  have hb : boundRequest c.schema q (c.effectiveSorting sorting).keys = .ok (t, keys) := by
    obtain ⟨k, hk, -⟩ := hid
    rw [effectiveSorting_keys (List.ne_nil_of_mem hk)]
    exact boundRequest_keyed hb₀ (boundKeys_sortsBy hkeys)
  have hplain := plain_sortsBy hkeys
  obtain ⟨direction, hid⟩ := identity_sortsBy hkeys hid
  refine ⟨_, select_of_bound hb .sqlite c.table .all, fun hrefused => ?_, fun hadmits => ?_⟩
  · have hrefused' : ¬ store.Admits (requestCompiled .sqlite c.table page (t, keys)) :=
      fun h => hrefused (Store.admits_page .all h)
    rw [find_eq hb, find_eq hb, Store.query_refused hrefused, Store.query_refused hrefused']
    exact ⟨rfl, rfl⟩
  obtain ⟨unsorted, -, hunsorted, hanswers₀⟩ := find_answers hrel hs hdocs hb₀ (admits_unsorted hadmits)
  obtain ⟨rows, hrows, hall, hanswers⟩ := find_answers hrel hs hdocs hb hadmits
  have hbefore := rows_before hs (boundRequest_resolved hb) hplain hints hdocs hid hrows
  have hpage := find_cut hb hadmits hrel hrows (.inr (checkPage_ok hskip htake))
  refine ⟨rows, unsorted, hunsorted, hanswers.perm hplain (defaultKeys_plain c) hdocs hanswers₀, hanswers.stored,
    ascends_of_before hdocs hanswers.stored hbefore, hall, ?_, ?_⟩
  · intro found hfound
    rw [hpage]
    exact mapM_window (hall.symm.trans hfound) page
  · intro hread
    obtain ⟨found, hfound, -⟩ := mapM_decodeRow hdocs.ids hanswers.stored hread
    exact ⟨found, hall.trans hfound⟩

end find

/-! ## Posts by rank -/

def ranked : Schema := ⟨"Post", [⟨"Post", [⟨"Rank", .scalar .int⟩]⟩]⟩

theorem ranked_built : ranked.Built := ⟨"Post", ranked.types, by decide +kernel⟩

def rankedPosts : Collection := ⟨posts, ranked, true⟩

def rankedPost (rank : Int) : Json := .object [("Rank", .int rank)]

theorem rankedPost_conforms (rank : Int) : Json.Conforms ranked (.object "Post") (rankedPost rank) := by
  refine .object (t := ⟨"Post", [⟨"Rank", .scalar .int⟩]⟩) rfl ?_
  intro f hf j hj
  obtain rfl := List.mem_singleton.mp hf
  obtain rfl : _ = j := Option.some.inj hj
  exact .scalar rfl

/-- Posts of rank 2, 7 and 2. -/
def rankedRows : List Row := [rowOf 1 (rankedPost 2), rowOf 2 (rankedPost 7), rowOf 3 (rankedPost 2)]

theorem rankedRows_holds : ∀ row ∈ rankedRows, ∃ rank, row.Holds ranked (rankedPost rank) ∧
    (rank = 2 ∨ rank = 7) ∧ ∃ e, decodeRow row = .ok e := by
  have hrow : ∀ n rank, Json.readWith? .stored (rankedPost rank).compact = some (rankedPost rank) →
      Json.read? (rankedPost rank).compact = some (rankedPost rank) → rank = 2 ∨ rank = 7 →
      ∃ r, (rowOf n (rankedPost rank)).Holds ranked (rankedPost r) ∧ (r = 2 ∨ r = 7) ∧
        ∃ e, decodeRow (rowOf n (rankedPost rank)) = .ok e :=
    fun n rank hstored hread h => ⟨rank, ⟨hstored, rankedPost_conforms rank⟩, h, decode_ok hread⟩
  simp only [rankedRows, List.forall_mem_cons]
  exact ⟨hrow 1 2 (by rfl) (by rfl) (.inl rfl), hrow 2 7 (by rfl) (by rfl) (.inr rfl),
    hrow 3 2 (by rfl) (by rfl) (.inl rfl), nofun⟩

/-- The highest rank first, equal ones in the order of identities. -/
def byRank : Sorting := ⟨[⟨"Rank", .descending⟩, .identity .ascending]⟩

def rankOfPost : ResolvedPath := ⟨[], ⟨"Rank", .scalar, .scalar .int⟩⟩

theorem byRank_sorts :
    List.Forall₂ (SortsBy ranked) byRank.keys [.field rankOfPost .int .descending, .identity .ascending] := by
  have hrank : SortsBy ranked ⟨"Rank", .descending⟩ (.field rankOfPost .int .descending) :=
    .field (by decide +kernel) ⟨by rfl, rfl, rfl, rfl, trivial⟩
  have hidentity : SortsBy ranked (.identity .ascending) (.identity .ascending) := .identity (by decide +kernel)
  exact .cons hrank (.cons hidentity .nil)

/-- The second of the posts by rank is a page of its own. -/
theorem ranked_second : ranked.Built ∧ Documents ranked rankedRows ∧
    (storeOf rankedRows).relation posts = .ok ⟨⟨.main, "posts"⟩, rankedRows⟩ ∧
    (∃ compiled, rankedPosts.compile none .none .all = .ok compiled) ∧
    List.Forall₂ (SortsBy ranked) byRank.keys [.field rankOfPost .int .descending, .identity .ascending] ∧
    ∃ found, rankedPosts.find (storeOf rankedRows) none byRank .all = .ok found ∧
      rankedPosts.find (storeOf rankedRows) none byRank ⟨1, some 1⟩ = .ok ((found.drop 1).take 1) := by
  have hdocs : Documents ranked rankedRows :=
    ⟨by decide +kernel, fun row hrow => (rankedRows_holds row hrow).elim fun rank h => ⟨_, h.1⟩⟩
  have hints : ∀ row ∈ rankedRows, ∀ doc, row.Holds ranked doc → doc.FitsInt64 := by
    intro row hrow doc hdoc
    obtain ⟨rank, hholds, hrank, -⟩ := rankedRows_holds row hrow
    obtain rfl := hholds.unique hdoc
    refine .object fun m hm => ?_
    obtain rfl := List.mem_singleton.mp hm
    exact .int (by rcases hrank with rfl | rfl <;> decide)
  have hread : ∀ row ∈ rankedRows, ∃ e, decodeRow row = .ok e := fun row hrow =>
    (rankedRows_holds row hrow).elim fun _ h => h.2.2
  obtain ⟨compiled, hcompile⟩ : ∃ compiled, rankedPosts.compile none .none .all = .ok compiled :=
    ⟨_, select_of_bound (by rfl) .sqlite posts .all⟩
  have hskip : (⟨1, some 1⟩ : Page).skip < 2 ^ 63 := by decide
  have htake : ∀ n, (⟨1, some 1⟩ : Page).take = some n → n < 2 ^ 63 := fun n hn => by cases hn; decide
  obtain ⟨ordered, hordered, -, hanswered⟩ := find_page (c := rankedPosts) (storeOf_relation rankedRows)
    ranked_built hdocs hints hcompile byRank_sorts ⟨.identity .ascending, by simp [byRank], by decide +kernel⟩
    hskip htake
  have hadmits : (storeOf rankedRows).Admits ordered := by
    obtain rfl := Except.ok.inj ((select_of_bound (by rfl) .sqlite posts .all).symm.trans hordered)
    decide +kernel
  obtain ⟨rows, unsorted, -, -, -, -, -, hpage, hfind⟩ := hanswered hadmits
  obtain ⟨found, hfound⟩ := hfind hread
  exact ⟨ranked_built, hdocs, storeOf_relation _, ⟨compiled, hcompile⟩, byRank_sorts, found, hfound, hpage found hfound⟩

end Collection

end DocQuery
