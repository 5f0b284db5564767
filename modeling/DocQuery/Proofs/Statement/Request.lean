/-
  DocQuery.Proofs.Statement.Request — the joins of a statement are the arrays of its paths.

  What compiles is the statement of a bound request (`select_request`, `count_request`), and all
  paths of the request are paths of the schema (`boundRequest_resolved`). The joins are the arrays
  that the paths cross, each once and read where the paths read it (`requestJoins_sound`,
  `requestJoins_complete`). So what a path is read from is joined (`requestPaths_joined`), and a
  join is grouped when a sort key crosses its array (`requestJoins_grouped`).
-/

import DocQuery.Proofs.Join.Order
import DocQuery.Proofs.Statement.Acceptance
import DocQuery.Proofs.Statement.Reading

namespace DocQuery

open DocQuery.Path Statement

/-- A location below an array is read from the element of an array that the walk crossed. -/
theorem Path.Position.source_crossed (p : Position) (nodes : List Node) :
    (p.after nodes).place.source = p.place.source ∨
      ∃ c ∈ crossingsFrom p nodes, (p.after nodes).place.source = .element (dotted c.names) := by
  induction nodes generalizing p with
  | nil => exact Or.inl rfl
  | cons n rest ih =>
    rw [Position.after_cons]
    by_cases h : n.kind = .objectArray
    · right
      rw [crossingsFrom_array h]
      rcases ih (p.next n) with e | ⟨c, hc, e⟩
      · exact ⟨_, List.mem_cons_self .., by rw [e, Position.next_array h]⟩
      · exact ⟨c, List.mem_cons_of_mem _ hc, e⟩
    · rw [crossingsFrom_member h]
      rcases ih (p.next n) with e | hc
      · exact Or.inl (by rw [e, Position.next_member h]; rfl)
      · exact Or.inr hc

namespace ResolvedPath

/-- The labels of the arrays that a path crosses. -/
def labels (r : ResolvedPath) : List String := r.arrays.map fun c => dotted c.names

theorem place_source (r : ResolvedPath) {label : String} (h : r.place.source = .element label) : label ∈ r.labels := by
  have hplace : r.place.source = (Position.start.after r.before).place.source := rfl
  rcases Position.source_crossed .start r.before with e | ⟨c, hc, e⟩
  · rw [hplace, e] at h; cases h
  · rw [hplace, e] at h
    exact List.mem_map.mpr ⟨c, hc, Source.element.inj h⟩

/-- An array of a path is in the document or in an element of an array before it. -/
theorem array_source {r : ResolvedPath} {c : Crossing} (hc : c ∈ r.arrays) {label : String}
    (h : c.array.source = .element label) : label ∈ r.labels := by
  obtain ⟨a, n, b, hb, -, rfl⟩ := mem_crossingsFrom.mp hc
  rw [Position.member_source] at h
  rcases Position.source_crossed .start a with e | ⟨c, hc, e⟩
  · rw [e] at h; cases h
  · rw [e] at h
    obtain ⟨a', m, b', rfl, hm, rfl⟩ := mem_crossingsFrom.mp hc
    refine List.mem_map.mpr ⟨_, mem_crossingsFrom.mpr ⟨a', m, b' ++ n :: b, ?_, hm, rfl⟩, Source.element.inj h⟩
    rw [hb]; simp

end ResolvedPath

namespace Statement

variable {schema : Schema} {t : Option BoundTree} {keys : List BoundKey}

/-- A bound sort key has the path that its field names. -/
theorem boundKey_target {k : SortKey} {b : BoundKey} (h : boundKey schema k = .ok b) (r : ResolvedPath) :
    b.path? = some r ↔ target? schema k.field = .ok (.path r) := by
  unfold boundKey at h
  by_cases hb : Text.allBlank k.field = true
  · simp only [hb, if_true] at h; cases h
  simp only [hb, Bool.false_eq_true, if_false] at h
  obtain ⟨target, ht, h⟩ := Except.bind_eq_ok.mp h
  rw [Except.mapError_eq_ok.mp ht]
  cases target with
  | identity => cases h; simp [BoundKey.path?]
  | path r' =>
    simp only [boundKeyTarget] at h
    split at h
    · cases h
    · obtain ⟨s, -, rfl⟩ := Except.map_eq_ok.mp h
      simp [BoundKey.path?]

/-- The paths of bound sort keys are those that their fields name. -/
theorem boundKeys_paths {given : List SortKey} (h : boundKeys schema given = .ok keys) (r : ResolvedPath) :
    r ∈ keys.filterMap BoundKey.path? ↔ ∃ k ∈ given, target? schema k.field = .ok (.path r) := by
  induction given generalizing keys with
  | nil => cases h; simp
  | cons k rest ih =>
    obtain ⟨b, hk, h⟩ := Except.bind_eq_ok.mp h
    obtain ⟨more, hrest, rfl⟩ := Except.map_eq_ok.mp h
    simp only [List.mem_filterMap, List.exists_mem_cons_iff] at ih ⊢
    rw [boundKey_target hk, ih hrest]

/-- The path of a bound leaf is the one that its field names. -/
theorem bound_target {leaf : Query.Leaf} {b : Bound} (h : bound schema leaf = .ok b) (r : ResolvedPath) :
    b.path? = some r ↔ target? schema leaf.field = .ok (.path r) := by
  obtain ⟨target, ht, hrest⟩ := bound_ok h
  rw [ht]
  cases htest : leaf.test with
  | null negated =>
    rw [htest] at hrest
    subst hrest
    cases target <;> simp [boundNull, Bound.path?]
  | unary op v =>
    rw [htest] at hrest
    cases target with
    | identity =>
      obtain ⟨c, -, rfl⟩ := boundIdentity_ok hrest.2
      simp [Bound.path?]
    | path r' =>
      obtain ⟨type, -, ⟨c, -, rfl⟩ | ⟨-, -, rfl⟩⟩ := boundPath_ok hrest.2 <;> simp [Bound.path?]

/-- The paths of a bound query are those that its fields name. -/
theorem boundTree_paths {q : Query} {tree : BoundTree} (h : boundTree schema q = .ok tree) (r : ResolvedPath) :
    r ∈ tree.paths ↔ ∃ field ∈ q.fields, target? schema field = .ok (.path r) := by
  have one : ∀ {leaf : Query.Leaf} {tree : BoundTree}, (bound schema leaf).map BoundTree.leaf = .ok tree →
      (r ∈ tree.paths ↔ target? schema leaf.field = .ok (.path r)) := by
    intro leaf tree h
    obtain ⟨b, hb, rfl⟩ := boundTree_leaf h
    rw [BoundTree.paths, Option.mem_toList, bound_target hb]
  induction q generalizing tree with
  | unary field op v => simpa [Query.fields] using one h
  | isNull field => simpa [Query.fields] using one h
  | isNotNull field => simpa [Query.fields] using one h
  | binary c left right ihl ihr =>
    obtain ⟨l, m, hl, hm, rfl⟩ := boundTree_binary h
    have hleft := ihl hl
    have hright := ihr hm
    simp only [BoundTree.paths, Query.fields, List.mem_append, or_and_right, exists_or, hleft, hright]

theorem boundRequest_sound {q : Option Query} {given : List SortKey}
    (h : boundRequest schema q given = .ok (t, keys)) : ∀ tree, t = some tree → tree.Sound schema := by
  rintro tree rfl
  rcases (boundRequest_ok h).2 with ⟨-, e⟩ | ⟨_, _, -, e, htree⟩
  · cases e
  · cases e
    exact boundTree_sound htree

/-- All paths of a bound request are paths of the schema. -/
theorem boundRequest_resolved {q : Option Query} {given : List SortKey}
    (h : boundRequest schema q given = .ok (t, keys)) :
    AllResolved schema (requestPaths t keys) := by
  intro r hr
  rcases List.mem_append.mp hr with hr | hr
  · cases t with
    | none => cases hr
    | some tree => exact (boundRequest_sound h tree rfl).resolved r hr
  · obtain ⟨k, -, hk⟩ := (boundKeys_paths (boundRequest_ok h).1 r).mp hr
    exact ⟨_, target?_path hk⟩

/-- The joins of a request, as its statement has them. -/
def requestJoins (t : Option BoundTree) (keys : List BoundKey) : List ArrayJoin := arrayJoins (requestPlan t keys)

theorem requestJoins_scoped (t : Option BoundTree) (keys : List BoundKey) : Scoped [] (requestJoins t keys) :=
  arrayJoins_scoped _

theorem requestJoins_labels (t : Option BoundTree) (keys : List BoundKey) :
    ((requestJoins t keys).map (·.label)).Perm (requestPlan t keys).keys :=
  arrayJoins_labels (requestPlan_covers t keys).parent_lt

theorem requestJoins_nodup (t : Option BoundTree) (keys : List BoundKey) :
    ((requestJoins t keys).map (·.label)).Nodup :=
  (requestJoins_labels t keys).nodup_iff.mpr (requestPlan_covers t keys).nodup

/-- Every join is an array of one of the paths. -/
theorem requestJoins_sound {j : ArrayJoin} (hj : j ∈ requestJoins t keys) :
    ∃ r ∈ requestPaths t keys, ∃ c ∈ r.arrays, j.label = dotted c.names ∧ j.array = c.array := by
  obtain ⟨c, hc, hlabel, harray⟩ := arrayJoins_sound (requestPlan_covers t keys) hj
  obtain ⟨r, hr, hcr⟩ := List.mem_flatMap.mp hc
  exact ⟨r, hr, c, hcr, hlabel, harray⟩

theorem requestJoins_label {c : Crossing} (h : dotted c.names ∈ (requestPlan t keys).keys) :
    ∃ j ∈ requestJoins t keys, j.label = dotted c.names :=
  List.mem_map.mp ((requestJoins_labels t keys).mem_iff.mpr h)

/-- Every array of the paths is joined where the path reads it. -/
theorem requestJoins_complete (hs : schema.Built)
    (hr : AllResolved schema (requestPaths t keys)) {r : ResolvedPath}
    (hmem : r ∈ requestPaths t keys) {c : Crossing} (hc : c ∈ r.arrays) :
    ∃ j ∈ requestJoins t keys, j.label = dotted c.names ∧ j.array = c.array := by
  obtain ⟨j, hj, hlabel⟩ := requestJoins_label
    ((requestPlan_covers t keys).complete c (List.mem_flatMap.mpr ⟨r, hmem, hc⟩))
  refine ⟨j, hj, hlabel, ?_⟩
  -- The label is that of one array of the schema only.
  obtain ⟨r', hmem', c', hc', hlabel', harray⟩ := requestJoins_sound hj
  obtain ⟨path, hpath⟩ := hr r hmem
  obtain ⟨path', hpath'⟩ := hr r' hmem'
  have hnames : c.names = c'.names := dotted_injective (ResolvedPath.array_plain hs hpath hc).2.2
    (ResolvedPath.array_plain hs hpath' hc').2.2 (hlabel.symm.trans hlabel')
  rw [harray, (resolve_declared hpath).1.append.crossing_eq (resolve_declared hpath').1.append hc hc' hnames]

theorem requestPaths_labels {r : ResolvedPath} (hmem : r ∈ requestPaths t keys) {label : String} (h : label ∈ r.labels) :
    label ∈ (requestJoins t keys).map (·.label) := by
  obtain ⟨c, hc, rfl⟩ := List.mem_map.mp h
  obtain ⟨j, hj, hlabel⟩ := requestJoins_label
    ((requestPlan_covers t keys).complete c (List.mem_flatMap.mpr ⟨r, hmem, hc⟩))
  exact List.mem_map.mpr ⟨j, hj, hlabel⟩

/-- What a path is read from is the document or the element of a join. -/
theorem requestPaths_joined {r : ResolvedPath} (hmem : r ∈ requestPaths t keys) {label : String}
    (h : r.place.source = .element label) : label ∈ (requestJoins t keys).map (·.label) :=
  requestPaths_labels hmem (r.place_source h)

theorem requestJoins_grouped {j : ArrayJoin} (hj : j ∈ requestJoins t keys) :
    j.grouped = true ↔ ∃ c ∈ sortArrays keys, dotted c.names = j.label := by
  obtain ⟨i, hi, rfl⟩ := List.mem_map.mp hj
  have h := requestPlan_covers t keys
  have hmem := (Join.Plan.ordered_perm h.parent_lt).mem_iff.mp hi
  rw [arrayJoin, (requestPlan t keys).labelled i hmem]
  exact h.grouped i hmem

/-- Where sort keys cross no array nothing is grouped. -/
theorem requestJoins_ungrouped (h : sortArrays keys = []) : ∀ j ∈ requestJoins t keys, j.grouped = false := by
  intro j hj
  rw [← Bool.not_eq_true, requestJoins_grouped hj, h]
  exact fun ⟨_, hc, _⟩ => nomatch hc

/-! ## Compiled requests -/

/-- The statement of a bound request: its rows, or their number. -/
def requestStatement (shape : Shape) (table : Table) (page : Page) (t : Option BoundTree) (keys : List BoundKey) :
    Statement :=
  ⟨shape, table, requestJoins t keys, t.map (·.condition 0), keys.map BoundKey.order, page⟩

variable {d : Dialect} {table : Table} {q : Option Query} {c : Compiled}

theorem select_request {sorting : Sorting} {page : Page} (h : select schema d table q sorting page = .ok c) :
    ∃ t keys, boundRequest schema q sorting.keys = .ok (t, keys) ∧
      c = ⟨d, requestStatement .documents table page t keys, t.elim [] BoundTree.values⟩ := by
  rw [select_eq] at h
  obtain ⟨⟨t, keys⟩, hbound, rfl⟩ := reported_eq_ok.mp h
  exact ⟨t, keys, hbound, rfl⟩

/-- Counting binds the query alone. -/
theorem count_eq (schema : Schema) (d : Dialect) (table : Table) (q : Option Query) :
    count schema d table q = reported d
      (fun r => ⟨d, requestStatement .count table .all r.1 r.2, r.1.elim [] BoundTree.values⟩) (boundRequest schema q []) := by
  unfold count boundRequest
  cases q with
  | none => rfl
  | some q =>
    simp only [optionalCondition, bind, Except.bind, compileQuery_eq]
    cases boundTree schema q <;> rfl

theorem count_request (h : count schema d table q = .ok c) : ∃ t, boundRequest schema q [] = .ok (t, []) ∧
    c = ⟨d, requestStatement .count table .all t [], t.elim [] BoundTree.values⟩ := by
  rw [count_eq] at h
  obtain ⟨⟨t, keys⟩, hbound, rfl⟩ := reported_eq_ok.mp h
  cases (boundRequest_ok hbound).1
  exact ⟨t, hbound, rfl⟩

theorem count_ok_iff : (∃ c, count schema d table q = .ok c) ↔ firstOffence? schema q [] = none := by
  rw [count_eq, ← refusal_boundRequest]
  cases boundRequest schema q [] <;> simp [reported, Except.map, Except.mapError, refusal]

end Statement

end DocQuery
