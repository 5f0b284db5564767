/-
  DocQuery.Proofs.Collection.FiniteMap — a collection is a finite map from identities to documents.

  One operation on a collection answers as the same operation does on the map that its table shows, and
  what the table shows afterwards is what has become of the map (`perform_refines`); so it is with
  operations one after another, while tables of other names stay as they are (`run_refines_map`). A document
  is got back as its text is read. That is the document that was given if its text is read back as it,
  which doubles do not promise (`rounded_otherwise`).
-/

import DocQuery.Proofs.Collection.Counting
import DocQuery.Proofs.Collection.Entries
import DocQuery.Proofs.Store.Ascending

namespace DocQuery.Collection

open Statement

/-! ## Operations -/

/-- What is asked of a collection. An inserted document comes with the identity generated for it. -/
inductive Request where
  | insert (id : Guid) (document : Json)
  | update (id : Guid) (document : Json)
  | delete (id : Guid)
  | get (id : Guid)
  | findAll
  | count

inductive Answer where
  | inserted (id : Guid)
  /-- Whether there was a document to update or delete. -/
  | changed (present : Bool)
  | found (document : Option Json)
  | listed (documents : List (Guid × Json))
  | counted (number : Nat)

/-- An operation that fails leaves the store as it is. -/
def orElse (store : Store) : Except Error (Answer × Store) → Except Error Answer × Store
  | .ok (answer, store') => (.ok answer, store')
  | .error e => (.error e, store)

def perform (c : Collection) (store : Store) : Request → Except Error Answer × Store
  | .insert id document => orElse store do return (.inserted id, ← c.insert store id document)
  | .update id document => orElse store do
    let (present, store) ← c.update store id document
    return (.changed present, store)
  | .delete id => orElse store do
    let (present, store) ← c.delete store id
    return (.changed present, store)
  | .get id => orElse store do return (.found (← c.get? store id), store)
  | .findAll => orElse store do return (.listed (← c.findAll store), store)
  | .count => orElse store do return (.counted (← c.count store none), store)

/-- The answers to requests one after another, and the store after them. -/
def run (c : Collection) (store : Store) : List Request → List (Except Error Answer) × Store
  | [] => ([], store)
  | request :: rest =>
    let (answer, store) := c.perform store request
    let (answers, store) := c.run store rest
    (answer :: answers, store)

/-- The identities that are generated for the requests. -/
def generated : List Request → List Guid
  | [] => []
  | .insert id _ :: rest => id :: generated rest
  | _ :: rest => generated rest

/-- The documents that the requests write. -/
def written : List Request → List Json
  | [] => []
  | .insert _ document :: rest => document :: written rest
  | .update _ document :: rest => document :: written rest
  | _ :: rest => written rest

/-! ## Answers of a map -/

/-- In ascending order of the identities. -/
def Ascending (documents : List (Guid × Json)) : Prop := documents.Pairwise fun e f => e.1 < f.1

section maps

-- How a document is shown, and whether they are listed in order.
variable (shown : Json → Except Error Json) (ascending : Bool)

/-- What a finite map answers, and what becomes of it. -/
inductive Answers (m : Entries) : Request → Except Error Answer → Entries → Prop
  | insert (id : Guid) (document : Json) : Answers m (.insert id document) (.ok (.inserted id)) (m.insert id document)
  | update (id : Guid) (document : Json) :
    Answers m (.update id document) (.ok (.changed (decide (id ∈ m)))) (if id ∈ m then m.insert id document else m)
  | delete (id : Guid) : Answers m (.delete id) (.ok (.changed (decide (id ∈ m)))) (m.erase id)
  | get (id : Guid) : Answers m (.get id) (((m.lookup id).mapM shown).map .found) m
  | findAll {documents : List (Guid × Json)} : Lists m documents → (ascending = true → Ascending documents) →
    Answers m .findAll ((documents.mapM fun e => (shown e.2).map (e.1, ·)).map .listed) m
  | count : Answers m .count (.ok (.counted m.keys.card)) m

/-- The answers of a finite map to requests one after another, and what becomes of it. -/
inductive AnswersAll : Entries → List Request → List (Except Error Answer) → Entries → Prop
  | nil (m : Entries) : AnswersAll m [] [] m
  | cons {m m' m'' : Entries} {request : Request} {answer : Except Error Answer} {rest : List Request}
      {answers : List (Except Error Answer)} : Answers shown ascending m request answer m' →
    AnswersAll m' rest answers m'' → AnswersAll m (request :: rest) (answer :: answers) m''

end maps

/-! ## All rows of a collection -/

variable {m : Entries} {id : Guid} {document : Json} {c : Collection} {store : Store} {r : Store.Relation}

/-- Finding without a query reads every row, in ascending order of the identities if the collection sorts. -/
theorem query_all (hr : store.relation c.table = .ok r) (hids : (r.rows.map (·.id)).Nodup) : ∃ compiled rows,
    c.compile none .none .all = .ok compiled ∧ store.query compiled = .ok rows ∧ rows.Perm r.rows ∧
      (c.sortByIdentity = true → rows.Pairwise fun a b => a.id < b.id) := by
  have hselects : ∀ row ∈ r.rows, ∃ b, selects store.clock [] none ⟨row, []⟩ = .ok b := fun _ _ => ⟨true, rfl⟩
  obtain ⟨found, left, hrows, hsorted, hleft, hfound⟩ :=
    rows_unjoined (s := requestStatement .documents c.table .all none c.defaultKeys) (requestJoins_default c none) rfl
      (defaultKeys_byIdentity c) hselects
  have hperm : (left.map (·.row)).Perm r.rows := by
    apply ((hleft.map _).trans hfound).trans
    exact .of_eq (List.filter_true r.rows)
  refine ⟨_, left.map (·.row), compile_default rfl, ?_, hperm, ?_⟩
  · rw [Store.query_admitted (admits_all c store) hr]
    exact hrows
  · intro hsort
    have horder : (requestStatement .documents c.table .all none c.defaultKeys).order = [.identity .ascending] := by
      show c.defaultKeys.map BoundKey.order = _
      rw [defaultKeys, if_pos hsort]
      rfl
    have hnodup : (left.map (·.row)).Pairwise fun a b => a.id ≠ b.id :=
      List.pairwise_map.mp ((hperm.map _).nodup_iff.mpr hids)
    have hascending := sorted_ascending (horder ▸ hsorted)
    exact (List.pairwise_map.mpr hascending).imp₂ (fun a b => Guid.lt_of_not_gt_of_ne) hnodup

/-! ## Operations on a table that shows a map -/

/-- The collection's table shows the map. -/
def Holds (c : Collection) (store : Store) (m : Entries) : Prop :=
  ∃ r, store.relation c.table = .ok r ∧ Shows r.rows m

/-- Tables of other names, letter case aside, are as they were. -/
def Untouched (table : Table) (store store' : Store) : Prop :=
  ∀ t : Table, Text.sameIgnoringCase t.name table.name = false → store'.relation t = store.relation t

theorem Untouched.refl (table : Table) (store : Store) : Untouched table store store := fun _ _ => rfl

theorem Untouched.trans {table : Table} {s s' s'' : Store} (h : Untouched table s s') (h' : Untouched table s' s'') :
    Untouched table s s'' := fun t ht => (h' t ht).trans (h t ht)

theorem untouched_setRows (hr : store.relation c.table = .ok r) (rows : List Row) :
    Untouched c.table store (store.setRows r.key rows) := fun _ => Store.relation_setRows_other hr rows

theorem holds_setRows (hr : store.relation c.table = .ok r) {rows : List Row} (h : Shows rows m) :
    c.Holds (store.setRows r.key rows) m := ⟨_, Store.relation_setRows_self hr rows, h⟩

theorem untouched_orElse {table : Table} {x : Except Error (Answer × Store)}
    (h : ∀ answer store', x = .ok (answer, store') → Untouched table store store') :
    Untouched table store (orElse store x).2 := by
  cases x with
  | ok step => exact h step.1 step.2 rfl
  | error e => exact .refl table store

/-- What only reads leaves the store as it is. -/
theorem orElse_reading {α : Type} (store : Store) (x : Except Error α) (answer : α → Answer) :
    (orElse store do return (answer (← x), store)) = (x.map answer, store) := by
  cases x <;> rfl

/-- No operation changes a table of another name. -/
theorem perform_untouched (c : Collection) (store : Store) (request : Request) :
    Untouched c.table store (c.perform store request).2 := by
  cases request with
  | insert id document =>
    apply untouched_orElse
    intro answer store' h
    obtain ⟨_, hinsert, h⟩ := Except.bind_eq_ok.mp h
    cases h
    obtain ⟨r, hr, -, rfl⟩ := Store.insert_eq_ok.mp hinsert
    exact untouched_setRows hr _
  | update id document =>
    apply untouched_orElse
    intro answer store' h
    obtain ⟨⟨_, _⟩, hupdate, h⟩ := Except.bind_eq_ok.mp h
    cases h
    obtain ⟨r, hr, -, rfl⟩ := Store.update_eq_ok.mp hupdate
    exact untouched_setRows hr _
  | delete id =>
    apply untouched_orElse
    intro answer store' h
    obtain ⟨⟨_, _⟩, hdelete, h⟩ := Except.bind_eq_ok.mp h
    cases h
    obtain ⟨r, hr, -, rfl⟩ := Store.delete_eq_ok.mp hdelete
    exact untouched_setRows hr _
  | get id =>
    rw [perform, orElse_reading]
    exact .refl c.table store
  | findAll =>
    rw [perform, orElse_reading]
    exact .refl c.table store
  | count =>
    rw [perform, orElse_reading]
    exact .refl c.table store

theorem run_untouched (c : Collection) (store : Store) (requests : List Request) :
    Untouched c.table store (c.run store requests).2 := by
  induction requests generalizing store with
  | nil => exact .refl c.table store
  | cons request rest ih => exact (perform_untouched c store request).trans (ih _)

/-- The collection of a table that was not there is empty when it is opened. -/
theorem inTable_holds {store store' : Store} {schema : Schema} {table : Table} {c : Collection} {e : Error}
    (hnew : store.relation table = .error e) (h : inTable store schema table = .ok (c, store')) : c.Holds store' ∅ := by
  obtain ⟨_, hensure, h⟩ := Except.bind_eq_ok.mp h
  cases h
  obtain ⟨key, hkey⟩ := Store.ensureTable_new hnew hensure
  refine ⟨_, hkey, List.nodup_nil, ?_, fun _ hid => absurd hid Finmap.notMem_empty⟩
  intro row hrow
  cases hrow

/-- Getting reads the first row of the identity. -/
theorem get?_eq (hr : store.relation c.table = .ok r) (id : Guid) :
    c.get? store id = (r.rows.find? (·.id == id)).mapM fun row => decode row.document := by
  have hrow : store.get? c.table id = .ok (r.rows.find? (·.id == id)) := by
    unfold Store.get?
    rw [hr]
    rfl
  show (store.get? c.table id).bind _ = _
  rw [hrow]
  cases r.rows.find? (·.id == id) with
  | none => rfl
  | some row =>
    show (decode row.document).bind _ = (decode row.document).map some
    cases decode row.document <;> rfl

section reading

variable (h : c.Holds store m)

include h

theorem Holds.get (id : Guid) : c.get? store id = (m.lookup id).mapM kept := by
  obtain ⟨r, hr, hrows⟩ := h
  rw [get?_eq hr, hrows.lookup id]

theorem Holds.findAll : ∃ documents, Lists m documents ∧ (c.sortByIdentity = true → Ascending documents) ∧
    c.findAll store = documents.mapM fun e => (kept e.2).map (e.1, ·) := by
  obtain ⟨r, hr, hrows⟩ := h
  obtain ⟨compiled, rows, hcompile, hquery, hperm, hascending⟩ := query_all hr hrows.ids
  obtain ⟨documents, hlists, hsame, hdecode⟩ := hrows.lists hperm
  refine ⟨documents, hlists, ?_, ?_⟩
  · intro hsort
    have hids : (documents.map (·.1)).Pairwise (· < ·) := hsame ▸ List.pairwise_map.mpr (hascending hsort)
    exact List.pairwise_map.mp hids
  · show (c.compile none .none .all).bind _ = _
    rw [hcompile]
    show (store.query compiled).bind _ = _
    rw [hquery]
    exact hdecode

theorem Holds.count : c.count store none = .ok m.keys.card := by
  obtain ⟨r, hr, hrows⟩ := h
  obtain ⟨compiled, rows, hcompile, hquery, hperm, -⟩ := query_all hr hrows.ids
  have hids : ∀ r', store.relation c.table = .ok r' → (r'.rows.map (·.id)).Nodup := by
    intro r' hr'
    obtain rfl := Except.ok.inj (hr.symm.trans hr')
    exact hrows.ids
  exact (count_eq_ok hids).mpr ⟨compiled, rows, hcompile, hquery, hperm.length_eq.trans hrows.card.symm⟩

end reading

/-- An operation answers as it does on the map, and the table shows what has become of the map. -/
theorem perform_refines (h : c.Holds store m) (request : Request) (hfresh : ∀ id ∈ generated [request], id ∉ m) :
    ∃ m', Answers kept c.sortByIdentity m request (c.perform store request).1 m' ∧
      c.Holds (c.perform store request).2 m' := by
  obtain ⟨r, hr, hrows⟩ := id h
  cases request with
  | insert id document =>
    have hid : id ∉ m := hfresh id List.mem_cons_self
    have hinsert : c.insert store id document = .ok (store.setRows r.key (r.rows ++ [⟨id, encode document⟩])) :=
      Store.insert_eq_ok.mpr ⟨r, hr, (hrows.any_eq id).trans (decide_eq_false hid), rfl⟩
    rw [perform, hinsert]
    exact ⟨_, .insert id document, holds_setRows hr (hrows.insert hid rfl)⟩
  | update id document =>
    have hupdate : c.update store id document =
        .ok (decide (id ∈ m), store.setRows r.key (Store.replace ⟨id, encode document⟩ r.rows)) :=
      Store.update_eq_ok.mpr ⟨r, hr, hrows.any_eq id, rfl⟩
    rw [perform, hupdate]
    refine ⟨_, .update id document, holds_setRows hr ?_⟩
    split
    · rename_i hid
      exact hrows.update hid rfl
    · rename_i hid
      rw [hrows.replace_absent hid]
      exact hrows
  | delete id =>
    have hdelete : c.delete store id = .ok (decide (id ∈ m), store.setRows r.key (r.rows.filter (·.id != id))) :=
      Store.delete_eq_ok.mpr ⟨r, hr, hrows.any_eq id, rfl⟩
    rw [perform, hdelete]
    exact ⟨_, .delete id, holds_setRows hr (hrows.erase id)⟩
  | get id =>
    rw [perform, orElse_reading, h.get id]
    exact ⟨_, .get id, h⟩
  | findAll =>
    obtain ⟨documents, hlists, hascending, hfind⟩ := h.findAll
    rw [perform, orElse_reading, hfind]
    exact ⟨_, .findAll hlists hascending, h⟩
  | count =>
    rw [perform, orElse_reading, h.count]
    exact ⟨_, .count, h⟩

/-! ## Operations one after another -/

theorem generated_cons (request : Request) (rest : List Request) :
    generated (request :: rest) = generated [request] ++ generated rest := by
  cases request <;> rfl

theorem written_cons (request : Request) (rest : List Request) :
    written (request :: rest) = written [request] ++ written rest := by
  cases request <;> rfl

variable {shown : Json → Except Error Json} {ascending : Bool} {m' : Entries} {request : Request}
  {answer : Except Error Answer}

/-- Only insertions bring new identities into a map. -/
theorem Answers.not_mem (h : Answers shown ascending m request answer m') (hid : id ∉ m)
    (hgenerated : id ∉ generated [request]) : id ∉ m' := by
  cases h with
  | insert id' document =>
    intro hmem
    rcases Finmap.mem_insert.mp hmem with rfl | hmem
    · exact hgenerated List.mem_cons_self
    · exact hid hmem
  | update id' document =>
    split
    · rename_i hpresent
      intro hmem
      rcases Finmap.mem_insert.mp hmem with rfl | hmem
      · exact hid hpresent
      · exact hid hmem
    · exact hid
  | delete id' => exact fun hmem => hid (Finmap.mem_erase.mp hmem).2
  | get => exact hid
  | findAll => exact hid
  | count => exact hid

theorem run_refines (requests : List Request) (h : c.Holds store m) (hdistinct : (generated requests).Nodup)
    (hfresh : ∀ id ∈ generated requests, id ∉ m) : ∃ m',
      AnswersAll kept c.sortByIdentity m requests (c.run store requests).1 m' ∧ c.Holds (c.run store requests).2 m' := by
  induction requests generalizing store m with
  | nil => exact ⟨m, .nil m, h⟩
  | cons request rest ih =>
    rw [generated_cons] at hdistinct hfresh
    obtain ⟨-, hrest, hapart⟩ := List.nodup_append.mp hdistinct
    obtain ⟨m', hanswers, h'⟩ := perform_refines h request fun id hid => hfresh id (List.mem_append_left _ hid)
    -- What is generated later is still new to the map.
    have hfresh' : ∀ id ∈ generated rest, id ∉ m' := by
      intro id hid
      apply hanswers.not_mem (hfresh id (List.mem_append_right _ hid))
      exact fun hid' => hapart id hid' id hid rfl
    obtain ⟨m'', hall, h''⟩ := ih h' hrest hfresh'
    exact ⟨m'', .cons hanswers hall, h''⟩

/-! ## Documents that are got back -/

/-- A map has the documents it had and those that are written. -/
theorem Answers.has (h : Answers shown ascending m request answer m') (hm' : Has m' document) :
    Has m document ∨ document ∈ written [request] := by
  cases h with
  | insert id written => exact (has_insert hm').imp_right List.mem_singleton.mpr
  | update id written =>
    split at hm'
    · exact (has_insert hm').imp_right List.mem_singleton.mpr
    · exact .inl hm'
  | delete id => exact .inl (has_erase hm')
  | get => exact .inl hm'
  | findAll => exact .inl hm'
  | count => exact .inl hm'

variable {shown' : Json → Except Error Json}

/-- What a map answers depends on how its own documents are shown. -/
theorem Answers.congr (h : Answers shown ascending m request answer m')
    (hshown : ∀ document, Has m document → shown document = shown' document) :
    Answers shown' ascending m request answer m' := by
  cases h with
  | insert id document => exact .insert id document
  | update id document => exact .update id document
  | delete id => exact .delete id
  | get id =>
    have hget : (m.lookup id).mapM shown = (m.lookup id).mapM shown' := by
      cases hlookup : m.lookup id with
      | none => rfl
      | some document => exact congrArg (Except.map some) (hshown document ⟨id, hlookup⟩)
    rw [hget]
    exact .get id
  | @findAll documents hlists hascending =>
    have hall : (documents.mapM fun e => (shown e.2).map (e.1, ·)) =
        documents.mapM fun e => (shown' e.2).map (e.1, ·) := by
      apply Except.mapM_congr
      intro e he
      rw [hshown e.2 ⟨e.1, (hlists.entries e.1 e.2).mp he⟩]
    rw [hall]
    exact .findAll hlists hascending
  | count => exact .count

theorem AnswersAll.congr {requests : List Request} {answers : List (Except Error Answer)}
    (h : AnswersAll shown ascending m requests answers m')
    (hshown : ∀ document, Has m document ∨ document ∈ written requests → shown document = shown' document) :
    AnswersAll shown' ascending m requests answers m' := by
  induction h with
  | nil m => exact .nil m
  | @cons m m' m'' request answer rest answers hanswers _ ih =>
    rw [written_cons] at hshown
    apply AnswersAll.cons (hanswers.congr fun document hd => hshown document (.inl hd))
    apply ih
    intro document hd
    apply hshown document
    rcases hd with hd | hd
    · exact (hanswers.has hd).imp_right (List.mem_append_left _)
    · exact .inr (List.mem_append_right _ hd)

/-- Operations on a collection answer as they do on the map that its table shows, each document got back as
its text is read: as it was given, if its text is read as the document. No operation changes a table
of another name. -/
theorem run_refines_map (c : Collection) (store : Store) (requests : List Request) :
    Untouched c.table store (c.run store requests).2 ∧
    ∀ m, c.Holds store m → (generated requests).Nodup → (∀ id ∈ generated requests, id ∉ m) → ∃ m',
      c.Holds (c.run store requests).2 m' ∧
      AnswersAll kept c.sortByIdentity m requests (c.run store requests).1 m' ∧
      ((∀ document, Has m document ∨ document ∈ written requests → document.canonical.Restored) →
        AnswersAll whole c.sortByIdentity m requests (c.run store requests).1 m') := by
  refine ⟨run_untouched c store requests, ?_⟩
  intro m h hdistinct hfresh
  obtain ⟨m', hanswers, h'⟩ := run_refines requests h hdistinct hfresh
  refine ⟨m', h', hanswers, fun hrestored => ?_⟩
  exact hanswers.congr fun document hd => kept_eq_whole_iff.mpr (hrestored document hd)

/-! ## Posts with a score -/

def scored (score : Float) : Json := .object [("Title", .string "p"), ("Score", .float score), ("Votes", .int 3)]

theorem scored_canonical (score : Float) :
    (scored score).canonical = .object [("Score", .float score), ("Title", .string "p"), ("Votes", .int 3)] := by
  have hscore : "Score" < "Title" := by decide
  have hvotes : "Title" < "Votes" := by decide
  have hlast := hscore.trans hvotes
  simp [scored, Json.canonical, Json.canonicalMembers, sortEntries, insertSorted, hscore, hvotes, hlast,
    lt_asymm hvotes, lt_asymm hlast]

theorem scored_restored {score : Float} (h : Json.Kept (.float score)) : (scored score).canonical.Restored := by
  rw [scored_canonical]
  refine ⟨by simp [Json.depth, Json.membersDepth], fun k hk => ?_⟩
  rcases List.mem_cons.mp hk with rfl | hk
  · exact h
  · obtain rfl := List.mem_singleton.mp hk
    exact ⟨by decide, by decide⟩

theorem posts_opened : titledPosts.Holds (storeOf []) ∅ := by
  have hnew : (Store.empty .inMemory).relation posts = .error .storage := by rfl
  have hopen : inTable (.empty .inMemory) titled posts = .ok (titledPosts, storeOf []) := by rfl
  exact inTable_holds hnew hopen

/-- A post written, read, written over, found, counted, deleted and missed. -/
def postRequests : List Request :=
  [.insert discussed.id (scored 0.5), .get discussed.id, .update discussed.id (scored 0.25), .findAll, .count,
    .delete discussed.id, .get discussed.id]

theorem posts_refine : ∃ m', titledPosts.Holds (titledPosts.run (storeOf []) postRequests).2 m' ∧
    AnswersAll whole true ∅ postRequests (titledPosts.run (storeOf []) postRequests).1 m' := by
  obtain ⟨-, hrefines⟩ := run_refines_map titledPosts (storeOf []) postRequests
  have hnew : ∀ id ∈ generated postRequests, id ∉ (∅ : Entries) := fun _ _ => Finmap.notMem_empty
  obtain ⟨m', h', -, hwhole⟩ := hrefines ∅ posts_opened (List.nodup_singleton discussed.id) hnew
  refine ⟨m', h', hwhole ?_⟩
  intro document hd
  rcases hd with ⟨id, hlookup⟩ | hd
  · rw [Finmap.lookup_empty] at hlookup
    cases hlookup
  · rcases List.mem_cons.mp hd with rfl | hd
    · exact scored_restored (by rfl)
    · obtain rfl := List.mem_singleton.mp hd
      exact scored_restored (by rfl)

/-- A post whose score is read as its neighbour. -/
def imprecise : Json := scored 5.0000000000000004e57

theorem imprecise_kept : (kept imprecise).map Json.compact ≠ (whole imprecise).map Json.compact := by
  decide +kernel

theorem AnswersAll.got_back {answers : List (Except Error Answer)}
    (h : AnswersAll shown ascending m [.insert id document, .get id] answers m') :
    answers = [.ok (.inserted id), (shown document).map fun back => .found (some back)] := by
  cases h with
  | cons hinsert hrest =>
    cases hinsert
    cases hrest with
    | cons hget hnil =>
      cases hget
      cases hnil
      rw [Finmap.lookup_insert]
      show [_, ((shown document).map some).map _] = _
      cases shown document <;> rfl

/-- A post is got back with another score than it was given. -/
theorem rounded_otherwise : titledPosts.Holds (storeOf []) ∅ ∧
    ¬ ∃ m', AnswersAll whole true ∅ [.insert discussed.id imprecise, .get discussed.id]
      (titledPosts.run (storeOf []) [.insert discussed.id imprecise, .get discussed.id]).1 m' := by
  refine ⟨posts_opened, ?_⟩
  intro h
  obtain ⟨_, hwhole⟩ := h
  obtain ⟨_, hkept, -⟩ := run_refines [.insert discussed.id imprecise, .get discussed.id] posts_opened
    (List.nodup_singleton discussed.id) fun _ _ => Finmap.notMem_empty
  have hsame := hkept.got_back.symm.trans hwhole.got_back
  have hback := (List.cons.inj (List.cons.inj hsame).2).1
  obtain ⟨back, hread, hfound⟩ := Except.map_eq_ok.mp hback
  cases hfound
  apply imprecise_kept
  rw [hread]
  rfl

end DocQuery.Collection
