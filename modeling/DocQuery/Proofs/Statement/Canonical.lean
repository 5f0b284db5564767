/-
  DocQuery.Proofs.Statement.Canonical — a statement's table, joins and groups from its set of paths.

  Whichever way a query is written, what its rows are read from depends on the paths that it and the
  sort keys stand for: their declared spellings, without order or number (`declaredPaths`). Equal
  sets of these are equal sets of paths (`mem_boundPaths`), which have the same joins (`mem_requestJoins`,
  `requestJoins_eq`), and so the lines that tell the table, the joins and the groups are the same
  ones (`select_lines_eq`).
-/

import DocQuery.Proofs.Join.Canonical
import DocQuery.Proofs.Statement.Layout

namespace DocQuery

open DocQuery.Path Statement

namespace Statement

/-! ## Declared paths -/

/-- The declared spellings of the paths that fields stand for; an identity has none. -/
def declaredPaths (schema : Schema) (fields : List String) : List String :=
  fields.filterMap fun field =>
    match target? schema field with
    | .ok (.path r) => some r.canonical
    | _ => none

theorem mem_declaredPaths {schema : Schema} {fields : List String} {path : String} :
    path ∈ declaredPaths schema fields ↔
      ∃ r, (∃ field ∈ fields, target? schema field = .ok (.path r)) ∧ r.canonical = path := by
  rw [declaredPaths, List.mem_filterMap]
  constructor
  · intro ⟨field, hfield, h⟩
    split at h
    · rename_i r hr
      exact ⟨r, ⟨field, hfield, hr⟩, Option.some.inj h⟩
    · cases h
  · intro ⟨r, ⟨field, hfield, hr⟩, hpath⟩
    refine ⟨field, hfield, ?_⟩
    rw [hr]
    exact congrArg some hpath

theorem canonical_injective {schema : Schema} (hs : schema.Built) {r r' : ResolvedPath} {path path' : String}
    (h : resolve schema path = .ok r) (h' : resolve schema path' = .ok r') (hsame : r.canonical = r'.canonical) :
    r = r' := by
  have hnames : r.names = r'.names := dotted_injective (ResolvedPath.names_identifier hs h)
    (ResolvedPath.names_identifier hs h') hsame
  exact ResolvedPath.eq_of_nodes ((resolve_declared h).1.eq_of_names (resolve_declared h').1 hnames)

variable {schema : Schema} {fields fields' : List String}

/-- Fields of the same declared spellings stand for the same paths. -/
theorem targets_of_declaredPaths (hs : schema.Built)
    (h : ∀ path, path ∈ declaredPaths schema fields ↔ path ∈ declaredPaths schema fields') (r : ResolvedPath) :
    (∃ field ∈ fields, target? schema field = .ok (.path r)) ↔
      ∃ field ∈ fields', target? schema field = .ok (.path r) := by
  have hone : ∀ {a b : List String}, (∀ path, path ∈ declaredPaths schema a → path ∈ declaredPaths schema b) →
      (∃ field ∈ a, target? schema field = .ok (.path r)) → ∃ field ∈ b, target? schema field = .ok (.path r) := by
    intro a b hsub ⟨field, hfield, hr⟩
    obtain ⟨r', ⟨field', hfield', hr'⟩, hcanonical⟩ :=
      mem_declaredPaths.mp (hsub r.canonical (mem_declaredPaths.mpr ⟨r, ⟨field, hfield, hr⟩, rfl⟩))
    rw [canonical_injective hs (target?_path hr') (target?_path hr) hcanonical] at hr'
    exact ⟨field', hfield', hr'⟩
  exact ⟨hone fun path => (h path).mp, hone fun path => (h path).mpr⟩

/-! ## Joins -/

attribute [ext] ArrayJoin

section requests

variable {q : Option Query} {given : List SortKey} {t t' : Option BoundTree} {keys keys' : List BoundKey}

theorem boundRequest_query (h : boundRequest schema q given = .ok (t, keys)) (r : ResolvedPath) :
    r ∈ t.elim [] BoundTree.paths ↔ ∃ field ∈ q.elim [] Query.fields, target? schema field = .ok (.path r) := by
  rcases (boundRequest_ok h).2 with ⟨rfl, rfl⟩ | ⟨q', tree, rfl, rfl, htree⟩
  · simp
  · exact boundTree_paths htree r

theorem boundRequest_keys (h : boundRequest schema q given = .ok (t, keys)) (r : ResolvedPath) :
    r ∈ keys.filterMap BoundKey.path? ↔
      ∃ field ∈ given.map (·.field), target? schema field = .ok (.path r) := by
  rw [boundKeys_paths (boundRequest_ok h).1]
  simp only [List.mem_map, exists_exists_and_eq_and]

/-- A request's joins are the arrays of its paths, grouped where a sort key crosses one of that name. -/
theorem mem_requestJoins (hs : schema.Built) (hr : AllResolved schema (requestPaths t keys)) {a : ArrayJoin} :
    a ∈ requestJoins t keys ↔
      (∃ r ∈ requestPaths t keys, ∃ c ∈ r.arrays, a.label = dotted c.names ∧ a.array = c.array) ∧
        (a.grouped = true ↔ ∃ c ∈ sortArrays keys, dotted c.names = a.label) := by
  constructor
  · intro ha
    exact ⟨requestJoins_sound ha, requestJoins_grouped ha⟩
  · intro ⟨⟨r, hmem, c, hc, hlabel, harray⟩, hmark⟩
    obtain ⟨j, hj, hjlabel, hjarray⟩ := requestJoins_complete hs hr hmem hc
    have hsameLabel : j.label = a.label := hjlabel.trans hlabel.symm
    have hsameMark : j.grouped = a.grouped := by
      rw [Bool.eq_iff_iff, requestJoins_grouped hj, hmark, hsameLabel]
    have hsame : j = a := ArrayJoin.ext hsameLabel (hjarray.trans harray.symm) hsameMark
    exact hsame ▸ hj

/-- Requests of the same paths have the same joins, one after another. -/
theorem requestJoins_eq (hs : schema.Built) (hr : AllResolved schema (requestPaths t keys))
    (hr' : AllResolved schema (requestPaths t' keys'))
    (hquery : ∀ r, r ∈ t.elim [] BoundTree.paths ↔ r ∈ t'.elim [] BoundTree.paths)
    (hkeys : ∀ r, r ∈ keys.filterMap BoundKey.path? ↔ r ∈ keys'.filterMap BoundKey.path?) :
    requestJoins t keys = requestJoins t' keys' := by
  refine Join.Plan.arrayJoins_eq (requestPlan_covers t keys) (requestPlan_covers t' keys') fun a => ?_
  have hpaths : ∀ r, r ∈ requestPaths t keys ↔ r ∈ requestPaths t' keys' := by
    intro r
    rw [requestPaths, requestPaths, List.mem_append, List.mem_append, hquery, hkeys]
  have hsortArrays : ∀ c, c ∈ sortArrays keys ↔ c ∈ sortArrays keys' := by
    intro c
    simp only [sortArrays, List.mem_flatMap, hkeys]
  show a ∈ requestJoins t keys ↔ a ∈ requestJoins t' keys'
  rw [mem_requestJoins hs hr, mem_requestJoins hs hr']
  simp only [hpaths, hsortArrays]

end requests

/-! ## Lines -/

variable {d : Dialect} {table : Table} {q q' : Option Query} {sorting sorting' : Sorting} {page page' : Page}

/-- However two queries are shaped and their paths are spelled, repeated and ordered: when the same
declared paths are asked for, and the same ones sorted by, the rows come from the same lines. -/
theorem select_lines_eq (hs : schema.Built) (ht : table.Built) {c c' : Compiled}
    (h : select schema d table q sorting page = .ok c) (h' : select schema d table q' sorting' page' = .ok c')
    (hquery : ∀ path, path ∈ declaredPaths schema (q.elim [] Query.fields) ↔
      path ∈ declaredPaths schema (q'.elim [] Query.fields))
    (hsorting : ∀ path, path ∈ declaredPaths schema (sorting.keys.map (·.field)) ↔
      path ∈ declaredPaths schema (sorting'.keys.map (·.field))) :
    ∀ clause ∈ [Clause.table, .join, .grouping], linesOf clause c.text = linesOf clause c'.text := by
  obtain ⟨t, keys, hb, rfl⟩ := select_request h
  obtain ⟨t', keys', hb', rfl⟩ := select_request h'
  have hjoins : requestJoins t keys = requestJoins t' keys' := by
    refine requestJoins_eq hs (boundRequest_resolved hb) (boundRequest_resolved hb') (fun r => ?_) fun r => ?_
    · rw [boundRequest_query hb, boundRequest_query hb', targets_of_declaredPaths hs hquery]
    · rw [boundRequest_keys hb, boundRequest_keys hb', targets_of_declaredPaths hs hsorting]
  intro clause hclause
  have hlines := linesOf_text (requestStatement_closed hs ht hb .documents page) d clause
  have hlines' := linesOf_text (requestStatement_closed hs ht hb' .documents page') d clause
  rw [Compiled.text, Compiled.text, hlines, hlines']
  simp only [List.mem_cons, List.not_mem_nil, or_false] at hclause
  rcases hclause with rfl | rfl | rfl <;> simp only [clauseLines, requestStatement, hjoins]

/-- The condition of `liveliest` turned round, with more conditions on the same paths. -/
def retold : Query :=
  .binary .or (.binary .and (.isNull "_id") (.unary "TITLE" (.comparison .equalTo) (.text "On lean proofs")))
    (.binary .and (.binary .or (.isNull "Comments[0].replies.RATING") (.isNotNull "tags"))
      (.unary "comments.Replies[1].Rating" (.comparison .lessThan) (.integer 5)))

def byRatingTwice : Sorting := ⟨[⟨"comments[3].rating", .ascending⟩, ⟨"_id", .descending⟩, ⟨"COMMENTS.Rating", .descending⟩]⟩

/-- The two statements differ in what they ask of posts, comments and replies, not in their joins. -/
theorem retold_lines : ∃ c c',
    select discussion .postgres blogPosts (some liveliest) byRating ⟨10, some 10⟩ = .ok c ∧
      select discussion .postgres blogPosts (some retold) byRatingTwice .all = .ok c' ∧
      ∀ clause ∈ [Clause.table, .join, .grouping], linesOf clause c.text = linesOf clause c'.text := by
  obtain ⟨c, hc⟩ : ∃ c, select discussion .postgres blogPosts (some liveliest) byRating ⟨10, some 10⟩ = .ok c :=
    select_ok_iff.mpr (by decide +kernel)
  obtain ⟨c', hc'⟩ : ∃ c, select discussion .postgres blogPosts (some retold) byRatingTwice .all = .ok c :=
    select_ok_iff.mpr (by decide +kernel)
  refine ⟨c, c', hc, hc', select_lines_eq discussion_built blogPosts_built hc hc' (fun path => ?_) fun path => ?_⟩
  · have hliveliest : declaredPaths discussion liveliest.fields = ["Comments.Replies.Rating", "Tags", "Title"] := by
      decide +kernel
    have hretold : declaredPaths discussion retold.fields =
        ["Title", "Comments.Replies.Rating", "Tags", "Comments.Replies.Rating"] := by
      decide +kernel
    show path ∈ declaredPaths discussion liveliest.fields ↔ path ∈ declaredPaths discussion retold.fields
    rw [hliveliest, hretold]
    simp only [List.mem_cons, List.not_mem_nil, or_false]
    grind
  · have hrating : declaredPaths discussion (byRating.keys.map (·.field)) = ["Comments.Rating"] := by decide +kernel
    have htwice : declaredPaths discussion (byRatingTwice.keys.map (·.field)) = ["Comments.Rating", "Comments.Rating"] := by
      decide +kernel
    rw [hrating, htwice]
    simp only [List.mem_cons, List.not_mem_nil, or_false, or_self]

end Statement

end DocQuery
