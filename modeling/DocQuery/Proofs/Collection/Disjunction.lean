/-
  DocQuery.Proofs.Collection.Disjunction — what is found for one query or another.

  The joins of both sides are made for the whole statement. So a document is found when elements can
  be chosen for the arrays of both sides and one side is true of them (`find_or`): nothing else is
  found than for the sides alone, but a document that matches one side is lost where an array that
  only the other side crosses is missing or empty (`Picks.either_or_lost`, `quiet_lost`). The store has to admit
  the disjunction, and then it admits the sides.
-/

import DocQuery.Proofs.Collection.Compiled
import DocQuery.Proofs.Store.Completion
import DocQuery.Proofs.Store.Selection

namespace DocQuery.Collection

open DocQuery.Path Statement

/-! ## Entries -/

/-- The found documents are those of the rows that `p` is true of. -/
structure Finds (table : List Row) (p : Row → Prop) (found : List (Guid × Json)) : Prop where
  of_row : ∀ e ∈ found, ∃ row ∈ table, decodeRow row = .ok e
  mem_iff : ∀ row ∈ table, ∀ e, decodeRow row = .ok e → (e ∈ found ↔ p row)

theorem decodeRow_id {row : Row} {e : Guid × Json} (h : decodeRow row = .ok e) : e.1 = row.id := by
  obtain ⟨j, -, h⟩ := Except.bind_eq_ok.mp h
  cases h
  rfl

/-- Reading rows gives the documents of these rows. -/
theorem mapM_decodeRow {table rows : List Row} (hids : (table.map (·.id)).Nodup) (hrows : ∀ row ∈ rows, row ∈ table)
    (hread : ∀ row ∈ table, ∃ e, decodeRow row = .ok e) :
    ∃ found, rows.mapM decodeRow = .ok found ∧ Finds table (· ∈ rows) found := by
  have hdecode : ∀ row ∈ rows, decodeRow row = .ok ((decodeRow row).toOption.getD (row.id, .null)) := by
    intro row hrow
    obtain ⟨e, he⟩ := hread row (hrows row hrow)
    exact Except.ok_getD he _
  refine ⟨_, Except.mapM_ok hdecode, ?_, ?_⟩
  · intro e he
    obtain ⟨row, hrow, rfl⟩ := List.mem_map.mp he
    exact ⟨row, hrows row hrow, hdecode row hrow⟩
  · intro row hrow e he
    constructor
    · intro hmem
      obtain ⟨row', hrow', rfl⟩ := List.mem_map.mp hmem
      -- A document's identity is that of its row, which is that of one row only.
      have hid : row'.id = row.id := (decodeRow_id (hdecode row' hrow')).symm.trans (decodeRow_id he)
      exact List.inj_on_of_nodup_map hids (hrows row' hrow') hrow hid ▸ hrow'
    · intro hmem
      exact List.mem_map.mpr ⟨row, hmem, by rw [he]; rfl⟩

/-! ## Queries without sort keys -/

/-- A query picks a row when a choice of elements makes it true of the row's document. -/
def Picks (now : Nat) (schema : Schema) (t : BoundTree) (row : Row) : Prop :=
  ∃ doc ch, row.Holds schema doc ∧ (∀ r ∈ t.paths, ch.Fits doc r) ∧ t.truth now shadowed row doc ch = some true

theorem selects_picks {c : Collection} {now : Nat} {schema : Schema} {t : BoundTree} {row : Row} {doc : Json}
    (hdoc : row.Holds schema doc) :
    (∃ ch, Selects now shadowed (some t) c.defaultKeys row doc ch) ↔ Picks now schema t row := by
  have hpaths : requestPaths (some t) c.defaultKeys = t.paths := by simp [requestPaths, c.defaultKeys_paths]
  constructor
  · rintro ⟨ch, hfits, hholds⟩
    exact ⟨doc, ch, hdoc, hpaths ▸ hfits, hholds t rfl⟩
  · rintro ⟨doc', ch, hdoc', hfits, hholds⟩
    obtain rfl := hdoc.unique hdoc'
    exact ⟨ch, hpaths.symm ▸ hfits, fun t' e => Option.some.inj e ▸ hholds⟩

section find

variable {c : Collection} (hs : c.schema.Built) {store : Store} {relation : Store.Relation}
  (hrel : store.relation c.table = .ok relation) (hdocs : Documents c.schema relation.rows)
  (hread : ∀ row ∈ relation.rows, ∃ e, decodeRow row = .ok e)

include hs hrel hdocs hread

/-- A collection that is asked for no order finds the documents that the query picks, if the store admits it. -/
theorem find_finds {q : Query} {t : BoundTree} (h : boundTree c.schema q = .ok t)
    (hadmits : store.Admits (c.compiledRows (some t))) : ∃ found, c.find store (some q) .none .all = .ok found ∧
      Finds relation.rows (Picks store.clock c.schema t) found := by
  have hb := boundRequest_tree h
  have hc : select c.schema .sqlite c.table (some q) (c.effectiveSorting .none) .all = .ok (c.compiledRows (some t)) :=
    compile_default hb
  obtain ⟨t', keys', rows, hb', hrows, hanswers⟩ := query_answers hs hrel hdocs hc hadmits
  rw [boundRequest_default, hb] at hb'
  cases hb'
  obtain ⟨found, hfound, hfinds⟩ := mapM_decodeRow hdocs.ids hanswers.stored hread
  refine ⟨found, ?_, hfinds.of_row, fun row hrow e he => ?_⟩
  · unfold find
    rw [compile_default hb]
    show (store.query (c.compiledRows (some t))).bind _ = _
    rw [hrows]
    exact hfound
  · obtain ⟨doc, hdoc⟩ := hdocs.holds row hrow
    rw [hfinds.mem_iff row hrow e he, hanswers.selected row hrow doc hdoc, selects_picks hdoc]

omit hs hrel hdocs hread in
/-- A query that the store does not admit finds nothing, and says so. -/
theorem find_refused {q : Query} {t : BoundTree} (h : boundTree c.schema q = .ok t)
    (hrefused : ¬ store.Admits (c.compiledRows (some t))) : c.find store (some q) .none .all = .error .storage := by
  unfold find
  rw [compile_default (boundRequest_tree h)]
  show (store.query (c.compiledRows (some t))).bind _ = _
  rw [Store.query_refused hrefused]
  rfl

end find

/-! ## Disjunctions -/

variable {now : Nat}

theorem boundTree_of_sides {schema : Schema} {a b : Query} {ta tb : BoundTree} (ha : boundTree schema a = .ok ta)
    (hb : boundTree schema b = .ok tb) (op : Connective) :
    boundTree schema (.binary op a b) = .ok (.binary op ta tb) := by
  simp only [boundTree, ha, hb]; rfl

/-- One choice has an element for the arrays of both sides, and makes a side true. -/
def PicksEither (now : Nat) (schema : Schema) (a b : BoundTree) (row : Row) : Prop :=
  ∃ doc ch, row.Holds schema doc ∧ (∀ r ∈ a.paths, ch.Fits doc r) ∧ (∀ r ∈ b.paths, ch.Fits doc r) ∧
    (a.truth now shadowed row doc ch = some true ∨ b.truth now shadowed row doc ch = some true)

theorem picks_or {schema : Schema} {a b : BoundTree} {row : Row} :
    Picks now schema (.binary .or a b) row ↔ PicksEither now schema a b row := by
  constructor
  · rintro ⟨doc, ch, hdoc, hfits, hholds⟩
    exact ⟨doc, ch, hdoc, fun r hr => hfits r (List.mem_append_left _ hr),
      fun r hr => hfits r (List.mem_append_right _ hr), Truth.or_eq_true.mp hholds⟩
  · rintro ⟨doc, ch, hdoc, ha, hb, hholds⟩
    refine ⟨doc, ch, hdoc, fun r hr => ?_, Truth.or_eq_true.mpr hholds⟩
    rcases List.mem_append.mp hr with hr | hr
    · exact ha r hr
    · exact hb r hr

/-- The first query is true under a choice for which an array that only the second crosses has no elements. -/
def Lost (now : Nat) (schema : Schema) (a b : BoundTree) (row : Row) : Prop :=
  ∃ doc ch, row.Holds schema doc ∧ (∀ r ∈ a.paths, ch.Fits doc r) ∧ a.truth now shadowed row doc ch = some true ∧
    ∃ c ∈ b.crossed, c ∉ a.crossed ∧ Vacant ch doc c.array

/-- What one side picks is picked by the disjunction or lost to the other side. -/
theorem Picks.either_or_lost {schema : Schema} (hs : schema.Built) {a b : BoundTree} (ha : a.Sound schema)
    (hb : b.Sound schema) {row : Row} (h : Picks now schema a row) : PicksEither now schema a b row ∨ Lost now schema a b row := by
  obtain ⟨doc, ch, hdoc, hfits, hholds⟩ := h
  obtain ⟨ch', hagree, hor⟩ := goes_on hs ha hb hdoc hfits
  have hfits' := BoundTree.fits_agree hagree hfits
  have hholds' : a.truth now shadowed row doc ch' = some true :=
    (BoundTree.truth_agree ha hagree shadowed row).symm.trans hholds
  rcases hor with hall | hvacant
  · exact Or.inl ⟨doc, ch', hdoc, hfits', hall, Or.inl hholds'⟩
  · exact Or.inr ⟨doc, ch', hdoc, hfits', hholds', hvacant⟩

theorem PicksEither.symm {schema : Schema} {a b : BoundTree} {row : Row} (h : PicksEither now schema a b row) :
    PicksEither now schema b a row := by
  obtain ⟨doc, ch, hdoc, ha, hb, hholds⟩ := h
  exact ⟨doc, ch, hdoc, hb, ha, hholds.symm⟩

theorem PicksEither.cases {schema : Schema} {a b : BoundTree} {row : Row} (h : PicksEither now schema a b row) :
    Picks now schema a row ∨ Picks now schema b row := by
  obtain ⟨doc, ch, hdoc, ha, hb, hholds | hholds⟩ := h
  · exact Or.inl ⟨doc, ch, hdoc, ha, hholds⟩
  · exact Or.inr ⟨doc, ch, hdoc, hb, hholds⟩

/-- A document that one query finds and another does not is that of a row which only the first picks. -/
theorem Finds.not_mem {table : List Row} {p p' : Row → Prop} {found found' : List (Guid × Json)}
    (h : Finds table p found) (h' : Finds table p' found') {e : Guid × Json} (he : e ∈ found) (hne : e ∉ found') :
    ∃ row ∈ table, decodeRow row = .ok e ∧ p row ∧ ¬ p' row := by
  obtain ⟨row, hrow, hdecode⟩ := h.of_row e he
  exact ⟨row, hrow, hdecode, (h.mem_iff row hrow e hdecode).mp he,
    fun hp => hne ((h'.mem_iff row hrow e hdecode).mpr hp)⟩

section disjunction

variable {c : Collection} (hs : c.schema.Built) {store : Store} {relation : Store.Relation}
  (hrel : store.relation c.table = .ok relation) (hdocs : Documents c.schema relation.rows)
  (hread : ∀ row ∈ relation.rows, ∃ e, decodeRow row = .ok e)

include hs hrel hdocs hread

/-- A disjunction that the store admits finds the documents that have an element for the arrays of both sides and
match a side. It finds nothing else than the sides do, and loses a document that one side finds only to an array
without elements which the other side crosses. A disjunction that the store does not admit is refused. -/
theorem find_or {a b : Query} {ca cb : Compiled} (ha : c.compile (some a) .none .all = .ok ca)
    (hb : c.compile (some b) .none .all = .ok cb) : ∃ ta tb compiled,
    boundTree c.schema a = .ok ta ∧ boundTree c.schema b = .ok tb ∧
    c.compile (some (.binary .or a b)) .none .all = .ok compiled ∧
    (¬ store.Admits compiled → c.find store (some (.binary .or a b)) .none .all = .error .storage) ∧
    (store.Admits compiled → ∃ foundA foundB found, c.find store (some a) .none .all = .ok foundA ∧
      c.find store (some b) .none .all = .ok foundB ∧ c.find store (some (.binary .or a b)) .none .all = .ok found ∧
      Finds relation.rows (PicksEither store.clock c.schema ta tb) found ∧
      (∀ e ∈ found, e ∈ foundA ∨ e ∈ foundB) ∧
      (∀ e ∈ foundA, e ∉ found → ∃ row ∈ relation.rows, decodeRow row = .ok e ∧ Lost store.clock c.schema ta tb row) ∧
      ∀ e ∈ foundB, e ∉ found → ∃ row ∈ relation.rows, decodeRow row = .ok e ∧ Lost store.clock c.schema tb ta row) := by
  obtain ⟨ta, hta, rfl⟩ := compile_bound ha
  obtain ⟨tb, htb, rfl⟩ := compile_bound hb
  have hsa := boundTree_sound hta
  have hsb := boundTree_sound htb
  have hor := boundTree_of_sides hta htb .or
  refine ⟨ta, tb, _, hta, htb, compile_default (boundRequest_tree hor), find_refused hor, fun hadmits => ?_⟩
  obtain ⟨foundA, hfindA, hA⟩ := find_finds hs hrel hdocs hread hta (Store.admits_left hadmits)
  obtain ⟨foundB, hfindB, hB⟩ := find_finds hs hrel hdocs hread htb (Store.admits_right hadmits)
  obtain ⟨found, hfind, hpicks⟩ := find_finds hs hrel hdocs hread hor hadmits
  have hfinds : Finds relation.rows (PicksEither store.clock c.schema ta tb) found :=
    ⟨hpicks.of_row, fun row hrow e he => (hpicks.mem_iff row hrow e he).trans picks_or⟩
  refine ⟨foundA, foundB, found, hfindA, hfindB, hfind, hfinds, ?_, ?_, ?_⟩
  · intro e he
    obtain ⟨row, hrow, hdecode⟩ := hfinds.of_row e he
    rcases ((hfinds.mem_iff row hrow e hdecode).mp he).cases with h | h
    · exact Or.inl ((hA.mem_iff row hrow e hdecode).mpr h)
    · exact Or.inr ((hB.mem_iff row hrow e hdecode).mpr h)
  · intro e he hne
    obtain ⟨row, hrow, hdecode, hp, hnot⟩ := hA.not_mem hfinds he hne
    exact ⟨row, hrow, hdecode, (hp.either_or_lost hs hsa hsb).resolve_left hnot⟩
  · intro e he hne
    obtain ⟨row, hrow, hdecode, hp, hnot⟩ := hB.not_mem hfinds he hne
    exact ⟨row, hrow, hdecode, (hp.either_or_lost hs hsb hsa).resolve_left fun h => hnot h.symm⟩

end disjunction

/-! ## A post without comments -/

def titledPosts : Collection := ⟨posts, titled, true⟩

def contentIs (content : String) : Query := .unary "Comments.Content" (.comparison .equalTo) (.text content)

theorem decode_ok {row : Row} {j : Json} (h : Json.read? row.document = some j) : ∃ e, decodeRow row = .ok e :=
  ⟨(row.id, j.canonical), by simp only [decodeRow, decode, h]; rfl⟩

def titleTree : BoundTree :=
  .leaf (.compare .equalTo ⟨[], ⟨"Title", .scalar, .scalar .string⟩⟩ .string (.text "p"))

def contentTree : BoundTree :=
  .leaf (.compare .equalTo ⟨[⟨"Comments", .objectArray, .object "Comment"⟩], ⟨"Content", .scalar, .scalar .string⟩⟩
    .string (.text "a"))

theorem titleIs_bound : boundTree titled (titleIs "p") = .ok titleTree := by rfl

theorem contentIs_bound : boundTree titled (contentIs "a") = .ok contentTree := by rfl

/-- A post is found by its title or its comments when it has comments. -/
theorem discussed_found : ∃ ca cb compiled found e, titledPosts.compile (some (contentIs "a")) .none .all = .ok ca ∧
    titledPosts.compile (some (titleIs "p")) .none .all = .ok cb ∧
    titledPosts.compile (some (.binary .or (contentIs "a") (titleIs "p"))) .none .all = .ok compiled ∧
    (storeOf [discussed]).Admits compiled ∧
    titledPosts.find (storeOf [discussed]) (some (.binary .or (contentIs "a") (titleIs "p"))) .none .all = .ok found ∧
    decodeRow discussed = .ok e ∧ e ∈ found := by
  have hca := compile_default (c := titledPosts) (boundRequest_tree contentIs_bound)
  have hcb := compile_default (c := titledPosts) (boundRequest_tree titleIs_bound)
  have hread : ∃ e, decodeRow discussed = .ok e :=
    decode_ok (by rfl : Json.read? discussed.document = some (titledPost (["a", "b"].map comment)))
  have hreads : ∀ row ∈ [discussed], ∃ e, decodeRow row = .ok e := fun row hrow => List.mem_singleton.mp hrow ▸ hread
  obtain ⟨ta, tb, compiled, hta, htb, hcompile, -, hanswered⟩ := find_or (c := titledPosts) titled_built
    (storeOf_relation [discussed]) (.single discussed_holds) hreads hca hcb
  cases Except.ok.inj (contentIs_bound.symm.trans hta)
  cases Except.ok.inj (titleIs_bound.symm.trans htb)
  obtain rfl := Except.ok.inj ((compile_default (boundRequest_tree (boundTree_of_sides hta htb .or))).symm.trans hcompile)
  have hadmits : (storeOf [discussed]).Admits (titledPosts.compiledRows (some (.binary .or contentTree titleTree))) := by
    decide +kernel
  obtain ⟨foundA, foundB, found, hA, hB, hfind, hfinds, -⟩ := hanswered hadmits
  obtain ⟨e, he⟩ := hread
  refine ⟨_, _, _, found, e, hca, hcb, hcompile, hadmits, hfind, he, ?_⟩
  refine (hfinds.mem_iff discussed (List.mem_singleton.mpr rfl) e he).mpr ?_
  refine ⟨_, fun _ => comment "b", discussed_holds, fun r hr => ?_, fun r hr => ?_, Or.inr (by rfl)⟩
  · obtain rfl := List.mem_singleton.mp hr
    exact ⟨⟨["a", "b"].map comment, rfl, by simp⟩, trivial⟩
  · obtain rfl := List.mem_singleton.mp hr
    trivial

def quiet : Row := rowOf 1 (titledPost [])

theorem quiet_holds : quiet.Holds titled (titledPost []) := ⟨by rfl, titledPost_conforms []⟩

/-- A post without comments is found by its title, and not by its title or its comments. -/
theorem quiet_lost : titled.Built ∧ Documents titled [quiet] ∧
    (storeOf [quiet]).relation posts = .ok ⟨⟨.main, "posts"⟩, [quiet]⟩ ∧ ∃ ca cb foundA found e,
    titledPosts.compile (some (titleIs "p")) .none .all = .ok ca ∧
    titledPosts.compile (some (contentIs "a")) .none .all = .ok cb ∧
    titledPosts.find (storeOf [quiet]) (some (titleIs "p")) .none .all = .ok foundA ∧
    titledPosts.find (storeOf [quiet]) (some (.binary .or (titleIs "p") (contentIs "a"))) .none .all = .ok found ∧
    e ∈ foundA ∧ e ∉ found := by
  have hdocs : Documents titled [quiet] := .single quiet_holds
  have hread : ∃ e, decodeRow quiet = .ok e := decode_ok (by rfl : Json.read? quiet.document = some (titledPost []))
  have hreads : ∀ row ∈ [quiet], ∃ e, decodeRow row = .ok e := fun row hrow => List.mem_singleton.mp hrow ▸ hread
  have hor := boundTree_of_sides titleIs_bound contentIs_bound .or
  have hca := compile_default (c := titledPosts) (boundRequest_tree titleIs_bound)
  have hcb := compile_default (c := titledPosts) (boundRequest_tree contentIs_bound)
  have hadmits : (storeOf [quiet]).Admits (titledPosts.compiledRows (some (.binary .or titleTree contentTree))) := by
    decide +kernel
  obtain ⟨foundA, hA, hfindsA⟩ := find_finds (c := titledPosts) titled_built (storeOf_relation [quiet]) hdocs hreads
    titleIs_bound (Store.admits_left hadmits)
  obtain ⟨found, hfind, hfinds⟩ := find_finds (c := titledPosts) titled_built (storeOf_relation [quiet]) hdocs hreads
    hor hadmits
  obtain ⟨e, he⟩ := hread
  refine ⟨titled_built, hdocs, storeOf_relation _, _, _, foundA, found, e, hca, hcb, hA, hfind, ?_, ?_⟩
  · refine (hfindsA.mem_iff quiet (List.mem_singleton.mpr rfl) e he).mpr ?_
    refine ⟨titledPost [], fun _ => .null, quiet_holds, fun r hr => ?_, by rfl⟩
    obtain rfl := List.mem_singleton.mp hr
    trivial
  · rw [hfinds.mem_iff quiet (List.mem_singleton.mpr rfl) e he]
    rintro ⟨doc, ch, hdoc, hfits, -⟩
    obtain rfl := quiet_holds.unique hdoc
    -- There is no comment to choose.
    obtain ⟨⟨items, hitems, hmem⟩, -⟩ := hfits _ (List.mem_cons_of_mem _ (List.mem_singleton.mpr rfl))
    cases hitems
    cases hmem

end DocQuery.Collection
