/-
  DocQuery.Proofs.Collection.Counting — counting agrees with finding.

  A statement for a number and one for rows match the same joined rows. The one counts distinct
  identities, the other leaves one row of each group; where no sort key groups by elements, a group
  is an identity, and in a table of distinct identities both come to the same (`one_length`). In which
  order the table is visited matters to neither (`matching_perm`), and both statements of a collection are refused
  for the same queries (`count_matches`).
-/

import DocQuery.Proofs.Collection.Disjunction
import DocQuery.Proofs.Store.Tables

namespace DocQuery

open Statement

/-! ## Distinct members -/

theorem nodup_eraseDups {α : Type} [BEq α] [LawfulBEq α] (l : List α) : l.eraseDups.Nodup := by
  induction h : l.length using Nat.strong_induction_on generalizing l with
  | h n ih =>
    cases l with
    | nil => exact List.nodup_nil
    | cons a rest =>
      rw [List.eraseDups_cons, List.nodup_cons]
      constructor
      · simp
      · apply ih (rest.filter fun b => !b == a).length _ _ rfl
        have hle := List.length_filter_le (fun b => !b == a) rest
        simp only [List.length_cons] at h
        omega

/-- As many members as a list has, if it has the same and each of them once. -/
theorem length_eraseDups {α : Type} [BEq α] [LawfulBEq α] {l l' : List α} (hl' : l'.Nodup)
    (hmem : ∀ a, a ∈ l ↔ a ∈ l') : l.eraseDups.length = l'.length := by
  apply List.Perm.length_eq
  apply (List.perm_ext_iff_of_nodup (nodup_eraseDups l) hl').mpr
  intro a
  rw [List.mem_eraseDups, hmem]

namespace Statement

/-! ## Matching -/

variable {now : Nat} {s : Statement} {parameters : List Cell} {table : List Row} {found : List Joined}

/-- What matches is found when neither joining nor the condition fails on any row. -/
theorem matching_eq_ok : matching s now parameters table = .ok found ↔
    (∀ row ∈ table, ∃ out, joinAll s.joins ⟨row, []⟩ = .ok out) ∧
    (∀ x ∈ table.flatMap (joinedRows s.joins), ∃ b, selects now parameters s.condition x = .ok b) ∧
    found = (table.flatMap (joinedRows s.joins)).filter (kept now parameters s.condition) := by
  constructor
  · intro h
    obtain ⟨joined, hjoined, hfound⟩ := Except.bind_eq_ok.mp h
    obtain ⟨hjoins, rfl⟩ := (Except.mapM_eq_ok []).mp hjoined
    exact ⟨hjoins, Except.filterM_eq_ok.mp hfound⟩
  · intro h
    obtain ⟨hjoins, hselects⟩ := h
    exact Except.bind_eq_ok.mpr ⟨_, (Except.mapM_eq_ok []).mpr ⟨hjoins, rfl⟩, Except.filterM_eq_ok.mpr hselects⟩

/-- A table visited in another order has the same matches, or fails as well. -/
theorem matching_perm {table' : List Row} (hp : table.Perm table') (h : matching s now parameters table = .ok found) :
    ∃ found', matching s now parameters table' = .ok found' ∧ found.Perm found' := by
  obtain ⟨hjoins, hselects, rfl⟩ := matching_eq_ok.mp h
  have hjoined : (table.flatMap (joinedRows s.joins)).Perm (table'.flatMap (joinedRows s.joins)) := hp.flatMap_right _
  refine ⟨_, matching_eq_ok.mpr ⟨?_, ?_, rfl⟩, hjoined.filter _⟩
  · intro row hrow
    exact hjoins row (hp.mem_iff.mpr hrow)
  · intro x hx
    exact hselects x (hjoined.mem_iff.mpr hx)

/-! ## One row of each identity -/

/-- One row of each group, if there are joins. -/
def one (joins : List ArrayJoin) (found : List Joined) : List Joined :=
  if joins.isEmpty then found else groups joins found

variable (hgroup : ∀ j ∈ s.joins, j.grouped = false)

include hgroup

/-- A group is an identity. -/
theorem groupKey_ungrouped (x : Joined) : groupKey s.joins x = [x.row.id.text].map .text := by
  have hnone : s.joins.filter (·.grouped) = [] := List.filter_eq_nil_iff.mpr fun j hj => by simp [hgroup j hj]
  rw [groupKey, hnone]
  rfl

theorem textsOf_ungrouped (x : Joined) : textsOf s.joins x = [x.row.id.text] := by
  rw [textsOf, groupKey_ungrouped hgroup, keyTexts_texts]

variable (hids : (table.map (·.id)).Nodup) (h : matching s now parameters table = .ok found)

include hids h

theorem one_representatives : Representatives (textsOf s.joins) (· ∈ found) (one s.joins found) := by
  unfold one
  split
  · rename_i hempty
    rw [List.isEmpty_iff.mp hempty]
    obtain ⟨-, -, rfl⟩ := matching_eq_ok.mp h
    apply Representatives.refl
    apply nodup_textsOf_nil hids
    rw [List.isEmpty_iff.mp hempty]
    exact List.filter_sublist
  · apply groups_representatives (n := 1)
    intro x _
    exact ⟨_, rfl, groupKey_ungrouped hgroup x⟩

/-- Of the matches as many are left as they have identities. -/
theorem one_length : (one s.joins found).length = (found.map (·.row.id)).eraseDups.length := by
  have hone := one_representatives hgroup hids h
  have hnodup : ((one s.joins found).map (·.row.id)).Nodup := by
    have htexts : (one s.joins found).map (textsOf s.joins) =
        ((one s.joins found).map (·.row.id)).map fun id => [id.text] := by
      rw [List.map_map]
      exact List.map_congr_left fun x _ => textsOf_ungrouped hgroup x
    exact List.Nodup.of_map _ (htexts ▸ hone.nodup)
  rw [length_eraseDups hnodup, List.length_map]
  intro id
  simp only [List.mem_map]
  constructor
  · intro hid
    obtain ⟨x, hx, rfl⟩ := hid
    obtain ⟨x', hx', e⟩ := hone.complete x hx
    rw [textsOf_ungrouped hgroup, textsOf_ungrouped hgroup] at e
    exact ⟨x', hx', Guid.text_injective (List.cons.inj e).1⟩
  · intro hid
    obtain ⟨x, hx, rfl⟩ := hid
    exact ⟨x, hone.sound x hx, rfl⟩

omit hgroup hids h

/-! ## Rows and their number -/

/-- The order is that of identities, or none. -/
def ByIdentity (order : List Order) : Prop := ∀ o ∈ order, ∃ direction, o = .identity direction

theorem ByIdentity.cells (now : Nat) {order : List Order} (h : ByIdentity order) (rows : List Joined) :
    ∀ x ∈ rows, ∀ o ∈ order, ∃ c, o.cell now x = .ok c := by
  intro x _ o ho
  obtain ⟨direction, rfl⟩ := h o ho
  exact ⟨_, rfl⟩

theorem rows_eq_ok (hpage : s.page = .all) (horder : ByIdentity s.order) {rows : List Row} :
    s.rows now parameters table = .ok rows ↔ ∃ found left, matching s now parameters (scan s table) = .ok found ∧
      sorted now s.order (one s.joins found) = .ok left ∧ left.Perm (one s.joins found) ∧ rows = left.map (·.row) := by
  have hpaged : ∀ rows : List Row, s.page.select rows = rows := by rw [hpage]; exact fun _ => rfl
  have hcheck : checkPage s.page = .ok () := by rw [hpage]; rfl
  have hrows : s.rows now parameters table = (matching s now parameters (scan s table)).bind fun found =>
      (sorted now s.order (one s.joins found)).bind fun left => .ok (s.page.select (left.map (·.row))) := by
    unfold Statement.rows
    rw [hcheck, hpage]
    rfl
  rw [hrows, Except.bind_eq_ok]
  apply exists_congr
  intro found
  rw [Except.bind_eq_ok, ← exists_and_left]
  apply exists_congr
  intro left
  obtain ⟨left', hsorted, hperm⟩ := sorted_perm (horder.cells now (one s.joins found))
  rw [hsorted, Except.ok.injEq, Except.ok.injEq, hpaged]
  constructor
  · intro h
    obtain ⟨hfound, rfl, rfl⟩ := h
    exact ⟨hfound, rfl, hperm, rfl⟩
  · intro h
    obtain ⟨hfound, rfl, -, rfl⟩ := h
    exact ⟨hfound, rfl, rfl⟩

/-- Without joins a row is selected for what the condition says of it alone. -/
theorem rows_unjoined (hjoins : s.joins = []) (hpage : s.page = .all) (horder : ByIdentity s.order)
    (hselects : ∀ row ∈ table, ∃ b, selects now parameters s.condition ⟨row, []⟩ = .ok b) :
    ∃ found left, s.rows now parameters table = .ok (left.map (·.row)) ∧ sorted now s.order found = .ok left ∧
      left.Perm found ∧ (found.map (·.row)).Perm (table.filter fun row => kept now parameters s.condition ⟨row, []⟩) := by
  have hscan := scan_perm s table
  have hjoined : (scan s table).flatMap (joinedRows s.joins) = (scan s table).map fun row => (⟨row, []⟩ : Joined) := by
    rw [hjoins]
    exact List.map_eq_flatMap.symm
  obtain ⟨found, hfound⟩ : ∃ found, matching s now parameters (scan s table) = .ok found := by
    refine ⟨_, matching_eq_ok.mpr ⟨?_, ?_, rfl⟩⟩
    · intro row _
      rw [hjoins]
      exact ⟨_, rfl⟩
    · intro x hx
      rw [hjoined] at hx
      obtain ⟨row, hrow, rfl⟩ := List.mem_map.mp hx
      exact hselects row (hscan.mem_iff.mp hrow)
  have hone : one s.joins found = found := by rw [hjoins]; rfl
  obtain ⟨left, hsorted, hleft⟩ := sorted_perm (horder.cells now found)
  refine ⟨found, left, ?_, hsorted, hleft, ?_⟩
  · exact (rows_eq_ok hpage horder).mpr ⟨found, left, hfound, hone.symm ▸ hsorted, hone.symm ▸ hleft, rfl⟩
  · obtain ⟨-, -, rfl⟩ := matching_eq_ok.mp hfound
    rw [hjoined, List.filter_map, List.map_map, show ((·.row) ∘ fun row => (⟨row, []⟩ : Joined)) = id from rfl,
      List.map_id]
    exact hscan.filter _

/-- A statement for a number gives that of the rows which one for rows with its joins and condition
gives, and fails when that one does. -/
theorem total_eq_ok {s' : Statement} (hjoins : s'.joins = s.joins) (hcondition : s'.condition = s.condition)
    (hpage : s.page = .all) (horder : ByIdentity s.order) (hgroup : ∀ j ∈ s.joins, j.grouped = false)
    (hids : (table.map (·.id)).Nodup) {n : Nat} :
    s'.total now parameters table = .ok n ↔ ∃ rows, s.rows now parameters table = .ok rows ∧ rows.length = n := by
  have hmatching : matching s' now parameters table = matching s now parameters table := by
    unfold matching
    rw [hjoins, hcondition]
  have htotal : s'.total now parameters table = (matching s now parameters table).bind fun found =>
      .ok (found.map (·.row.id)).eraseDups.length := by
    unfold total
    rw [hmatching]
    rfl
  have hscan := scan_perm s table
  have hscanned : ((scan s table).map (·.id)).Nodup := (hscan.map _).nodup_iff.mpr hids
  -- Both orders of the table have matches with the same identities.
  have hlength : ∀ {found found' : List Joined}, matching s now parameters (scan s table) = .ok found →
      found.Perm found' → (one s.joins found).length = (found'.map (·.row.id)).eraseDups.length := by
    intro found found' hfound hp
    rw [one_length hgroup hscanned hfound, length_eraseDups (nodup_eraseDups (found'.map (·.row.id)))]
    intro id
    rw [List.mem_eraseDups, (hp.map _).mem_iff]
  rw [htotal, Except.bind_eq_ok]
  constructor
  · intro h
    obtain ⟨found', hfound', hn⟩ := h
    cases hn
    obtain ⟨found, hfound, hp⟩ := matching_perm hscan.symm hfound'
    obtain ⟨left, hsorted, hleft⟩ := sorted_perm (horder.cells now (one s.joins found))
    refine ⟨_, (rows_eq_ok hpage horder).mpr ⟨found, left, hfound, hsorted, hleft, rfl⟩, ?_⟩
    rw [List.length_map, hleft.length_eq, hlength hfound hp.symm]
  · intro h
    obtain ⟨rows, hrows, rfl⟩ := h
    obtain ⟨found, left, hfound, -, hleft, rfl⟩ := (rows_eq_ok hpage horder).mp hrows
    obtain ⟨found', hfound', hp⟩ := matching_perm hscan hfound
    refine ⟨found', hfound', ?_⟩
    rw [List.length_map, hleft.length_eq, hlength hfound hp]

end Statement

namespace Collection

/-! ## Collections -/

variable {c : Collection} {q : Option Query}

theorem defaultKeys_byIdentity (c : Collection) : ByIdentity (c.defaultKeys.map BoundKey.order) := by
  unfold defaultKeys
  cases c.sortByIdentity with
  | true => exact fun o ho => ⟨.ascending, List.mem_singleton.mp ho⟩
  | false => exact fun _ ho => nomatch ho

/-- Where identities stand once, the number of a query is that of the rows that finding reads. -/
theorem count_eq_ok {store : Store} (hids : ∀ r, store.relation c.table = .ok r → (r.rows.map (·.id)).Nodup)
    {n : Nat} : c.count store q = .ok n ↔
      ∃ compiled rows, c.compile q .none .all = .ok compiled ∧ store.query compiled = .ok rows ∧ rows.length = n := by
  rcases compile_cases c q with ⟨t, hcount, hcompile⟩ | ⟨e, hcount, hcompile⟩
  · simp only [hcompile, Except.ok.injEq, exists_and_left, exists_eq_left']
    unfold count
    rw [hcount]
    show store.count (c.compiledNumber t) = .ok n ↔ ∃ rows : List Row, store.query (c.compiledRows t) = .ok rows ∧ _
    by_cases hadmits : store.Admits (c.compiledRows t)
    · cases hrelation : store.relation c.table with
      | error e =>
        have htarget : store.target (c.compiledRows t) = .error e := (if_pos hadmits).trans hrelation
        have htarget' : store.target (c.compiledNumber t) = .error e :=
          (if_pos (admits_number_iff.mpr hadmits)).trans hrelation
        simp [Store.count, Store.query, htarget, htarget', bind, Except.bind]
      | ok relation =>
        rw [Store.count_admitted (admits_number_iff.mpr hadmits) hrelation, Store.query_admitted hadmits hrelation]
        apply total_eq_ok
        case hjoins => exact (requestJoins_default c t).symm
        case hcondition => rfl
        case hpage => rfl
        case horder => exact defaultKeys_byIdentity c
        case hgroup => exact requestJoins_ungrouped (defaultKeys_sortArrays c)
        case hids => exact hids relation hrelation
    · rw [Store.query_refused hadmits, Store.count_refused (mt admits_number_iff.mp hadmits)]
      simp
  · unfold count
    rw [hcount, hcompile]
    simp [bind, Except.bind]

/-- What counting a collection's documents has to do with finding them. -/
structure CountMatches (c : Collection) (store : Store) (q : Option Query) : Prop where
  /-- Both statements are refused for the same queries and reasons. -/
  refused : ∀ e, Statement.count c.schema .sqlite c.table q = .error e ↔ c.compile q .none .all = .error e
  /-- What does not compile is answered with the reason. -/
  reported : ∀ e, c.compile q .none .all = .error e →
    c.count store q = .error e ∧ c.find store q .none .all = .error e
  /-- Documents that are found are counted. -/
  found : ∀ documents, c.find store q .none .all = .ok documents → c.count store q = .ok documents.length
  /-- The number is that of the rows that finding reads. -/
  counted : ∀ n, c.count store q = .ok n ↔
    ∃ compiled rows, c.compile q .none .all = .ok compiled ∧ store.query compiled = .ok rows ∧ rows.length = n

/-- In every store that operations reach, a collection's count is the number of documents it finds. -/
theorem count_matches {config : Store.Config} {store : Store} (hstore : Store.Reachable config store) (c : Collection)
    (q : Option Query) : c.CountMatches store q := by
  have hcounted : ∀ n, c.count store q = .ok n ↔
      ∃ compiled rows, c.compile q .none .all = .ok compiled ∧ store.query compiled = .ok rows ∧ rows.length = n :=
    fun _ => count_eq_ok fun _ hr => hstore.ids_nodup hr
  refine ⟨?refused, ?reported, ?found, hcounted⟩
  case refused =>
    intro e
    rcases compile_cases c q with ⟨t, hcount, hcompile⟩ | ⟨e', hcount, hcompile⟩
    · simp [hcount, hcompile]
    · rw [hcount, hcompile]
  case reported =>
    intro e he
    rcases compile_cases c q with ⟨t, -, hcompile⟩ | ⟨e', hcount, hcompile⟩
    · simp [hcompile] at he
    · cases hcompile.symm.trans he
      unfold count find
      rw [hcount, hcompile]
      exact ⟨rfl, rfl⟩
  case found =>
    intro documents hfind
    obtain ⟨compiled, hcompile, hfind⟩ := Except.bind_eq_ok.mp hfind
    obtain ⟨rows, hrows, hdocuments⟩ := Except.bind_eq_ok.mp hfind
    exact (hcounted documents.length).mpr ⟨compiled, rows, hcompile, hrows, (Except.mapM_length hdocuments).symm⟩

theorem discussed_reachable : Store.Reachable .inMemory (storeOf [discussed]) := by
  have hcreated : (Store.empty .inMemory).ensureTable posts = .ok (storeOf []) := by rfl
  have hinserted : (storeOf []).insert posts discussed = .ok (storeOf [discussed]) := by rfl
  exact .step (.step .empty (.ensureTable hcreated)) (.insert hinserted)

/-- Two comments have a content, and the post that has both is one. -/
theorem discussed_counted :
    titledPosts.count (storeOf [discussed]) (some (.isNotNull "Comments.Content")) = .ok 1 ∧ ∃ compiled rows,
      titledPosts.compile (some (.isNotNull "Comments.Content")) .none .all = .ok compiled ∧
      (storeOf [discussed]).query compiled = .ok rows ∧ rows.length = 1 := by
  have hmatches := count_matches discussed_reachable titledPosts (some (.isNotNull "Comments.Content"))
  have hone : titledPosts.count (storeOf [discussed]) (some (.isNotNull "Comments.Content")) = .ok 1 := by rfl
  exact ⟨hone, (hmatches.counted 1).mp hone⟩

end Collection

end DocQuery
