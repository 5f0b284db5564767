/-
  DocQuery.Proofs.Store.Selection — what a compiled query selects.

  A statement of a request finds the rows of the choices that the request selects
  (`matching_request`) and leaves one of each group. A group is an identity and the texts of the
  elements that sort keys see. So a stored row comes back when the request selects it with some
  choice, and as often as choices differ to the sort keys (`query_selects`).
-/

import DocQuery.Proofs.Guid
import DocQuery.Proofs.Store.Admission
import DocQuery.Proofs.Store.Evaluation
import DocQuery.Proofs.Store.Grouping

namespace DocQuery

open DocQuery.Path Statement

/-- Two functions that tell the same elements of a set apart take as many values on it. -/
theorem encard_image_eq {α β γ : Type} {s : Set α} {f : α → β} {g : α → γ}
    (h : ∀ a ∈ s, ∀ b ∈ s, f a = f b ↔ g a = g b) : (f '' s).encard = (g '' s).encard := by
  -- Both are the first and the second sides of one set of pairs.
  have hfst : (Prod.fst '' ((fun a => (f a, g a)) '' s)).encard = ((fun a => (f a, g a)) '' s).encard := by
    refine Set.InjOn.encard_image ?_
    rintro _ ⟨a, ha, rfl⟩ _ ⟨b, hb, rfl⟩ e
    exact Prod.ext e ((h a ha b hb).mp e)
  have hsnd : (Prod.snd '' ((fun a => (f a, g a)) '' s)).encard = ((fun a => (f a, g a)) '' s).encard := by
    refine Set.InjOn.encard_image ?_
    rintro _ ⟨a, ha, rfl⟩ _ ⟨b, hb, rfl⟩ e
    exact Prod.ext ((h a ha b hb).mpr e) e
  rw [Set.image_image] at hfst hsnd
  exact hfst.trans hsnd.symm

namespace Statement

variable {now : Nat} {schema : Schema} {t : Option BoundTree} {keys : List BoundKey}

/-! ## Groups of choices -/

/-- The texts of the elements that rows are grouped by. -/
def groupTexts (t : Option BoundTree) (keys : List BoundKey) (ch : Choice) : List String :=
  ((requestJoins t keys).filter (·.grouped)).map fun j => (ch j.label).compact

/-- Grouping tells choices apart as the sort keys do. -/
theorem groupTexts_eq_iff (t : Option BoundTree) (keys : List BoundKey) (ch ch' : Choice) :
    groupTexts t keys ch = groupTexts t keys ch' ↔ sortTexts keys ch = sortTexts keys ch' := by
  unfold groupTexts sortTexts
  rw [List.map_inj_left, List.map_inj_left]
  constructor
  · intro h c hc
    obtain ⟨j, hj, hlabel⟩ := requestJoins_label ((requestPlan_covers t keys).sorted_mem c hc)
    rw [← hlabel]
    exact h j (List.mem_filter.mpr ⟨hj, (requestJoins_grouped hj).mpr ⟨c, hc, hlabel.symm⟩⟩)
  · intro h j hj
    obtain ⟨hj, hgrouped⟩ := List.mem_filter.mp hj
    obtain ⟨c, hc, hlabel⟩ := (requestJoins_grouped hj).mp hgrouped
    rw [← hlabel]; exact h c hc

theorem groupKey_choiceRow (hs : schema.Built) (hr : AllResolved schema (requestPaths t keys))
    {row : Row} {doc : Json} (hrow : row.Holds schema doc) {ch : Choice}
    (hfits : ∀ r ∈ requestPaths t keys, ch.Fits doc r) :
    groupKey (requestJoins t keys) (choiceRow t keys row ch) = (row.id.text :: groupTexts t keys ch).map .text := by
  have helements : ∀ j ∈ (requestJoins t keys).filter (·.grouped),
      (choiceRow t keys row ch).element j.label = .text (ch j.label).compact :=
    fun j hj => choiceRow_element hs hr hrow hfits (List.mem_of_mem_filter hj)
  rw [groupKey, choiceRow_row, List.map_congr_left helements, groupTexts]
  simp

/-! ## Found rows -/

/-- Sort keys are read off a row. -/
theorem BoundKey.cell_ok {x : Joined} {doc : Json} {ch : Choice} {k : BoundKey}
    (hs : ∀ r, k.path? = some r → x.Shows doc ch r) : ∃ c, k.order.cell now x = .ok c := by
  cases k with
  | identity direction => exact ⟨_, rfl⟩
  | field r type direction =>
    refine ⟨typed now type (ch.cell doc r), ?_⟩
    show (x.cell r.place).bind _ = _
    rw [(hs r rfl).cell]; rfl

/-- Rows are sorted by the cells that the keys read off them. -/
theorem sorted_eq {order : List Order} {rows : List Joined} {cells : Joined → List Cell}
    (h : ∀ x ∈ rows, order.mapM (Order.cell now x) = .ok (cells x)) :
    sorted now order rows = .ok (rows.mergeSort fun x y => compareKeys order (cells x) (cells y) != .gt) := by
  have hkeyed : rows.mapM (fun r => do return (← order.mapM (Order.cell now r), r)) =
      (.ok (rows.map fun x => (cells x, x)) : Except Error _) := by
    refine Except.mapM_ok fun x hx => ?_
    rw [h x hx]; rfl
  have hsort : (rows.mergeSort fun x y => compareKeys order (cells x) (cells y) != .gt).map (fun x => (cells x, x)) =
      (rows.map fun x => (cells x, x)).mergeSort fun a b => compareKeys order a.1 b.1 != .gt :=
    List.map_mergeSort fun _ _ _ _ => rfl
  unfold sorted
  rw [hkeyed]
  show Except.ok (((rows.map fun x => (cells x, x)).mergeSort _).map (·.2)) = _
  rw [← hsort, List.map_map]
  exact congrArg Except.ok (List.map_id _)

/-- Sorting loses no row and adds none. -/
theorem sorted_perm {order : List Order} {rows : List Joined} (h : ∀ x ∈ rows, ∀ o ∈ order, ∃ c, o.cell now x = .ok c) :
    ∃ out, sorted now order rows = .ok out ∧ out.Perm rows := by
  have hcells : ∀ x ∈ rows, order.mapM (Order.cell now x) = .ok (order.map fun o => (o.cell now x).toOption.getD .null) := by
    intro x hx
    refine Except.mapM_ok fun o ho => ?_
    obtain ⟨c, hc⟩ := h x hx o ho
    exact Except.ok_getD hc .null
  exact ⟨_, sorted_eq hcells, List.mergeSort_perm _ _⟩

/-- The request's query is true. -/
def holdsFor (now : Nat) (t : Option BoundTree) (row : Row) (doc : Json) (ch : Choice) : Bool :=
  t.all fun tree => tree.truth now shadowed row doc ch == some true

theorem selects_eq {parameters : List Cell} {x : Joined} {doc : Json} {ch : Choice}
    (hv : Supplied parameters 0 (t.elim [] BoundTree.values)) (hs : ∀ r ∈ t.elim [] BoundTree.paths, x.Shows doc ch r) :
    selects now parameters (t.map (·.condition 0)) x = .ok (holdsFor now t x.row doc ch) := by
  cases t with
  | none => rfl
  | some tree =>
    exact BoundTree.holds_eq hv hs

theorem selects_iff {row : Row} {doc : Json} {ch : Choice} : Selects now shadowed t keys row doc ch ↔
    (∀ r ∈ requestPaths t keys, ch.Fits doc r) ∧ holdsFor now t row doc ch = true := by
  constructor
  · rintro ⟨hfits, hholds⟩
    refine ⟨hfits, ?_⟩
    cases t with
    | none => rfl
    | some tree => simpa [holdsFor] using hholds tree rfl
  · rintro ⟨hfits, hholds⟩
    refine ⟨hfits, fun tree e => ?_⟩
    subst e
    simpa [holdsFor] using hholds

/-- What joining gives for a row. -/
def joinedRows (joins : List ArrayJoin) (row : Row) : List Joined := (joinAll joins ⟨row, []⟩).toOption.getD []

/-- Whether a joined row is kept. -/
def kept (now : Nat) (parameters : List Cell) (condition : Option Condition) (x : Joined) : Bool :=
  (selects now parameters condition x).toOption.getD false

section found

variable (hs : schema.Built) (hr : AllResolved schema (requestPaths t keys))
  {row : Row} {doc : Json} (hrow : row.Holds schema doc)

include hs hr hrow

theorem joinAll_joinedRows : joinAll (requestJoins t keys) ⟨row, []⟩ = .ok (joinedRows (requestJoins t keys) row) := by
  obtain ⟨out, hout, -⟩ := joinAll_request hs hr hrow
  exact Except.ok_getD hout []

theorem mem_joinedRows {x : Joined} : x ∈ joinedRows (requestJoins t keys) row ↔
    ∃ ch : Choice, (∀ r ∈ requestPaths t keys, ch.Fits doc r) ∧ x = choiceRow t keys row ch := by
  obtain ⟨out, hout, hmem⟩ := joinAll_request hs hr hrow
  rw [joinedRows, hout]; exact hmem x

/-- A choice's row is kept when the query is true. -/
theorem selects_choiceRow {parameters : List Cell} (hv : Supplied parameters 0 (t.elim [] BoundTree.values))
    {ch : Choice} (hfits : ∀ r ∈ requestPaths t keys, ch.Fits doc r) :
    selects now parameters (t.map (·.condition 0)) (choiceRow t keys row ch) = .ok (holdsFor now t row doc ch) := by
  have hshows := choiceRow_shows hs hr hrow hfits
  have h : selects now _ _ _ = _ := selects_eq hv fun r hmem => hshows r (List.mem_append_left _ hmem)
  rwa [choiceRow_row] at h

end found

/-- The joined row is that of a choice that the request selects. -/
def Found (now : Nat) (schema : Schema) (t : Option BoundTree) (keys : List BoundKey) (table : List Row) (x : Joined) :
    Prop :=
  ∃ row ∈ table, ∃ doc ch, row.Holds schema doc ∧ Selects now shadowed t keys row doc ch ∧ x = choiceRow t keys row ch

theorem Found.row_mem {table : List Row} {x : Joined} (h : Found now schema t keys table x) : x.row ∈ table := by
  obtain ⟨row, hmem, doc, ch, -, -, rfl⟩ := h
  rwa [choiceRow_row]

section matching

variable (hs : schema.Built) (hr : AllResolved schema (requestPaths t keys))
  {table : List Row} (hdocs : ∀ row ∈ table, ∃ doc, row.Holds schema doc) {parameters : List Cell}
  (hv : Supplied parameters 0 (t.elim [] BoundTree.values))

include hs hr hdocs hv

/-- Neither joining nor the condition fails on documents of the schema. -/
theorem matching_eq {s : Statement} (hjoins : s.joins = requestJoins t keys)
    (hcondition : s.condition = t.map (·.condition 0)) : matching s now parameters table =
      .ok ((table.flatMap (joinedRows (requestJoins t keys))).filter (kept now parameters (t.map (·.condition 0)))) := by
  have hjoin : ∀ row ∈ table, joinAll (requestJoins t keys) ⟨row, []⟩ = .ok (joinedRows (requestJoins t keys) row) := by
    intro row hrow
    obtain ⟨doc, hdoc⟩ := hdocs row hrow
    exact joinAll_joinedRows hs hr hdoc
  have hselects : ∀ x ∈ table.flatMap (joinedRows (requestJoins t keys)), selects now parameters
      (t.map (·.condition 0)) x = .ok (kept now parameters (t.map (·.condition 0)) x) := by
    intro x hx
    obtain ⟨row, hrow, hx⟩ := List.mem_flatMap.mp hx
    obtain ⟨doc, hdoc⟩ := hdocs row hrow
    obtain ⟨ch, hfits, rfl⟩ := (mem_joinedRows hs hr hdoc).mp hx
    exact Except.ok_getD (selects_choiceRow hs hr hdoc hv hfits) false
  unfold matching
  rw [hjoins, hcondition, Except.mapM_ok hjoin]
  exact Except.filterM_ok (List.flatMap_def ▸ hselects)

/-- The rows of the choices that the request selects are found, and no others. -/
theorem mem_found {x : Joined} :
    x ∈ (table.flatMap (joinedRows (requestJoins t keys))).filter (kept now parameters (t.map (·.condition 0))) ↔
      Found now schema t keys table x := by
  rw [List.mem_filter, List.mem_flatMap]
  constructor
  · rintro ⟨⟨row, hrow, hx⟩, htrue⟩
    obtain ⟨doc, hdoc⟩ := hdocs row hrow
    obtain ⟨ch, hfits, rfl⟩ := (mem_joinedRows hs hr hdoc).mp hx
    rw [kept, selects_choiceRow hs hr hdoc hv hfits] at htrue
    exact ⟨row, hrow, doc, ch, hdoc, selects_iff.mpr ⟨hfits, htrue⟩, rfl⟩
  · rintro ⟨row, hrow, doc, ch, hdoc, hsel, rfl⟩
    obtain ⟨hfits, htrue⟩ := selects_iff.mp hsel
    refine ⟨⟨row, hrow, (mem_joinedRows hs hr hdoc).mpr ⟨ch, hfits, rfl⟩⟩, ?_⟩
    rw [kept, selects_choiceRow hs hr hdoc hv hfits]; exact htrue

end matching

/-! ## Answers -/

theorem scan_perm (s : Statement) (rows : List Row) : (scan s rows).Perm rows := by
  unfold scan
  split
  · exact List.mergeSort_perm rows _
  · exact List.Perm.refl rows

/-- Without joins there is nothing to group: every identity stands once. -/
theorem nodup_textsOf_nil {table : List Row} (hids : (table.map (·.id)).Nodup) {found : List Joined}
    (h : found.Sublist (table.flatMap (joinedRows []))) : (found.map (textsOf [])).Nodup := by
  have hrows : (table.flatMap (joinedRows [])).map (textsOf []) = (table.map (·.id)).map fun id => [id.text] := by
    have hjoined : table.flatMap (joinedRows []) = table.map fun row => (⟨row, []⟩ : Joined) := List.map_eq_flatMap.symm
    rw [hjoined, List.map_map, List.map_map]; rfl
  refine (h.map (textsOf [])).nodup ?_
  rw [hrows]
  exact hids.map fun a b e => Guid.text_injective (List.cons.inj e).1

section answers

variable (hs : schema.Built) (hr : AllResolved schema (requestPaths t keys))
  {table : List Row}

include hs hr

theorem Found.textsOf {x : Joined} (h : Found now schema t keys table x) : ∃ row ∈ table, ∃ doc ch, row.Holds schema doc ∧
    Selects now shadowed t keys row doc ch ∧ x.row = row ∧
    groupKey (requestJoins t keys) x = (row.id.text :: groupTexts t keys ch).map .text ∧
    textsOf (requestJoins t keys) x = row.id.text :: groupTexts t keys ch := by
  obtain ⟨row, hmem, doc, ch, hdoc, hsel, rfl⟩ := h
  have hkey := groupKey_choiceRow hs hr hdoc hsel.fits
  exact ⟨row, hmem, doc, ch, hdoc, hsel, choiceRow_row ch, hkey, by rw [Statement.textsOf, hkey, keyTexts_texts]⟩

theorem Found.textKey {x : Joined} (h : Found now schema t keys table x) :
    TextKey (((requestJoins t keys).filter (·.grouped)).length + 1) (groupKey (requestJoins t keys) x) := by
  obtain ⟨row, -, doc, ch, -, -, -, hkey, -⟩ := h.textsOf hs hr
  exact ⟨_, by simp [groupTexts], hkey⟩

/-- A group is of one row. -/
theorem Found.row_eq (hids : (table.map (·.id)).Nodup) {x y : Joined} (hx : Found now schema t keys table x)
    (hy : Found now schema t keys table y)
    (e : Statement.textsOf (requestJoins t keys) x = Statement.textsOf (requestJoins t keys) y) : x.row = y.row := by
  obtain ⟨row, hmem, _, _, -, -, hrow, -, htexts⟩ := hx.textsOf hs hr
  obtain ⟨row', hmem', _, _, -, -, hrow', -, htexts'⟩ := hy.textsOf hs hr
  rw [htexts, htexts'] at e
  rw [hrow, hrow']
  exact List.inj_on_of_nodup_map hids hmem hmem' (Guid.text_injective (List.cons.inj e).1)

theorem Found.order_ok {x : Joined} (h : Found now schema t keys table x) :
    ∀ o ∈ keys.map BoundKey.order, ∃ c, o.cell now x = .ok c := by
  obtain ⟨row, -, doc, ch, hdoc, hsel, rfl⟩ := h
  intro o ho
  obtain ⟨k, hk, rfl⟩ := List.mem_map.mp ho
  refine BoundKey.cell_ok fun r hpath => choiceRow_shows hs hr hdoc hsel.fits r ?_
  exact List.mem_append_right _ (List.mem_filterMap.mpr ⟨k, hk, hpath⟩)

/-- A request without a page leaves one joined row of each group that it finds, and sorts them. -/
theorem rows_request (now : Nat) (hdocs : Documents schema table) (d : Dialect) (name : Table) :
    ∃ one left, (requestCompiled d name .all (t, keys)).statement.rows now
        (Store.cells (requestCompiled d name .all (t, keys))) table = .ok (left.map (·.row)) ∧
      Representatives (Statement.textsOf (requestJoins t keys)) (Found now schema t keys table) one ∧
      sorted now (keys.map BoundKey.order) one = .ok left ∧ left.Perm one := by
  have hscan := scan_perm (requestCompiled d name .all (t, keys)).statement table
  generalize hrows : scan (requestCompiled d name .all (t, keys)).statement table = scanned at hscan
  have hholds : ∀ row ∈ scanned, ∃ doc, row.Holds schema doc :=
    fun row hrow => hdocs.holds row (hscan.mem_iff.mp hrow)
  have hv := supplied_all (t.elim [] BoundTree.values)
  have hmatch : matching (requestCompiled d name .all (t, keys)).statement now _ scanned = _ :=
    matching_eq hs hr hholds hv rfl rfl
  have hmem : ∀ x, _ ↔ Found now schema t keys scanned x := fun x => mem_found hs hr hholds hv
  generalize hfound : (scanned.flatMap (joinedRows (requestJoins t keys))).filter _ = found at hmatch hmem
  -- Groups are those of the table, in whatever order it is scanned.
  have hiff : ∀ x, x ∈ found ↔ Found now schema t keys table x := by
    intro x
    rw [hmem x]
    constructor
    · rintro ⟨row, hrow, h⟩; exact ⟨row, hscan.mem_iff.mp hrow, h⟩
    · rintro ⟨row, hrow, h⟩; exact ⟨row, hscan.mem_iff.mpr hrow, h⟩
  have hleft : Representatives (Statement.textsOf (requestJoins t keys)) (· ∈ found)
      (if (requestJoins t keys).isEmpty then found else groups (requestJoins t keys) found) := by
    by_cases hempty : (requestJoins t keys).isEmpty = true
    · rw [if_pos hempty]
      refine Representatives.refl ?_
      rw [List.isEmpty_iff.mp hempty] at hfound ⊢
      exact nodup_textsOf_nil ((hscan.map _).nodup_iff.mpr hdocs.ids) (hfound ▸ List.filter_sublist)
    · rw [if_neg hempty]
      exact groups_representatives fun x hx => ((hiff x).mp hx).textKey hs hr
  obtain ⟨left, hsorted, hperm⟩ := sorted_perm fun x hx =>
    ((hiff x).mp (hleft.sound x hx)).order_ok hs hr
  refine ⟨_, left, ?_, hleft.congr hiff, hsorted, hperm⟩
  unfold Statement.rows
  show (matching _ now ((t.elim [] BoundTree.values).map Cell.ofValue) (scan _ table)).bind _ = _
  rw [hrows, hmatch]
  show (sorted now (keys.map BoundKey.order)
    (if (requestJoins t keys).isEmpty then found else groups (requestJoins t keys) found)).bind _ = _
  rw [hsorted]; rfl

/-- The rows of a request without a page are its answer. -/
theorem rows_answers (now : Nat) (hdocs : Documents schema table) (d : Dialect) (name : Table) :
    ∃ rows, (requestCompiled d name .all (t, keys)).statement.rows now
        (Store.cells (requestCompiled d name .all (t, keys))) table = .ok rows ∧
      Answers now shadowed schema t keys table rows := by
  obtain ⟨one, left, hrows, hone, -, hperm⟩ := rows_request hs hr now hdocs d name
  have hleft := hone.perm hperm
  have hrow := fun x y (hx : Found now schema t keys table x) hy e => hx.row_eq hs hr hdocs.ids (y := y) hy e
  refine ⟨_, hrows, ?_, ?_, ?_⟩
  · intro row hmem
    obtain ⟨x, hx, rfl⟩ := (hleft.mem_row hrow row).mp hmem
    exact hx.row_mem
  · intro row hmem doc hdoc
    rw [hleft.mem_row hrow row]
    constructor
    · rintro ⟨x, hx, rfl⟩
      obtain ⟨row', -, doc', ch, hdoc', hsel, e, -⟩ := hx.textsOf hs hr
      obtain rfl := e
      obtain rfl := hdoc.unique hdoc'
      exact ⟨ch, hsel⟩
    · rintro ⟨ch, hsel⟩
      exact ⟨choiceRow t keys row ch, ⟨row, hmem, doc, ch, hdoc, hsel, rfl⟩, choiceRow_row ch⟩
  · intro row hmem doc hdoc _
    rw [hleft.count hrow row]
    -- A group's key is its identity, which is the row's here, and what the groups of choices are told apart by.
    have hkeys : {k | ∃ x, Found now schema t keys table x ∧ x.row = row ∧ Statement.textsOf (requestJoins t keys) x = k} =
        (fun ch => row.id.text :: groupTexts t keys ch) '' {ch | Selects now shadowed t keys row doc ch} := by
      ext k
      constructor
      · rintro ⟨x, hx, rfl, rfl⟩
        obtain ⟨row', -, doc', ch, hdoc', hsel, e, -, htexts⟩ := hx.textsOf hs hr
        obtain rfl := e
        obtain rfl := hdoc.unique hdoc'
        exact ⟨ch, hsel, htexts.symm⟩
      · rintro ⟨ch, hsel, rfl⟩
        have hx : Found now schema t keys table (choiceRow t keys row ch) := ⟨row, hmem, doc, ch, hdoc, hsel, rfl⟩
        refine ⟨_, hx, choiceRow_row ch, ?_⟩
        rw [Statement.textsOf, groupKey_choiceRow hs hr hdoc hsel.fits, keyTexts_texts]
    rw [hkeys]
    refine encard_image_eq fun ch _ ch' _ => ?_
    rw [← groupTexts_eq_iff t keys, List.cons.injEq]
    exact and_iff_right rfl

end answers

/-! ## Queries -/

/-- Trees that ask for no hidden members are as true as if none were hidden. -/
theorem BoundTree.truth_visible {tree : BoundTree} (h : Unshadowed (some tree)) (row : Row) (doc : Json) (ch : Choice) :
    tree.truth now shadowed row doc ch = tree.truth now visible row doc ch := by
  have hbounds := h tree rfl
  clear h
  induction tree with
  | leaf b =>
    cases b with
    | member negated r type v =>
      have hr := hbounds _ (List.mem_singleton.mpr rfl) r rfl
      simp [BoundTree.truth, Bound.truth, hr, visible]
    | _ => rfl
  | binary c left right ihl ihr =>
    simp only [BoundTree.truth, ihl fun b hb => hbounds b (List.mem_append_left _ hb),
      ihr fun b hb => hbounds b (List.mem_append_right _ hb)]

theorem selects_visible (h : Unshadowed t) {row : Row} {doc : Json} {ch : Choice} :
    Selects now shadowed t keys row doc ch ↔ Selects now visible t keys row doc ch := by
  have htruth : ∀ tree, t = some tree → tree.truth now shadowed row doc ch = tree.truth now visible row doc ch :=
    fun tree e => BoundTree.truth_visible (e ▸ h) row doc ch
  constructor
  · rintro ⟨hfits, hholds⟩; exact ⟨hfits, fun tree e => htruth tree e ▸ hholds tree e⟩
  · rintro ⟨hfits, hholds⟩; exact ⟨hfits, fun tree e => (htruth tree e).symm ▸ hholds tree e⟩

theorem Answers.visible {table rows : List Row} (h : Answers now shadowed schema t keys table rows) (hu : Unshadowed t) :
    Answers now Statement.visible schema t keys table rows := by
  refine ⟨h.stored, ?_, ?_⟩
  · intro row hmem doc hdoc
    simp only [← selects_visible hu]
    exact h.selected row hmem doc hdoc
  · intro row hmem doc hdoc hcompact
    simp only [← selects_visible hu]
    exact h.repeated row hmem doc hdoc hcompact

/-- Where sort keys cross no array no row comes back twice. -/
theorem Answers.nodup {hidden : ResolvedPath → Bool} {table rows : List Row} (hdocs : Documents schema table)
    (h : Answers now hidden schema t keys table rows) (hsort : sortArrays keys = []) : rows.Nodup := by
  rw [List.nodup_iff_count_le_one]
  intro row
  by_cases hmem : row ∈ rows
  · obtain ⟨doc, hdoc⟩ := hdocs.holds row (h.stored row hmem)
    have hle : (sortTexts keys '' {ch | Selects now hidden t keys row doc ch}).encard ≤ 1 := by
      refine Set.encard_le_one_iff.mpr ?_
      rintro _ _ ⟨a, -, rfl⟩ ⟨b, -, rfl⟩
      simp [sortTexts, hsort]
    rw [← h.repeated row (h.stored row hmem) doc hdoc (.inl hsort)] at hle
    exact_mod_cast hle
  · rw [List.count_eq_zero.mpr hmem]; exact Nat.zero_le 1

section query

variable (hs : schema.Built) {store : Store} {table : Table} {relation : Store.Relation}
  (hrel : store.relation table = .ok relation) (hdocs : Documents schema relation.rows) {q : Option Query}
  {sorting : Sorting} {compiled : Compiled} (hc : select schema .sqlite table q sorting .all = .ok compiled)

include hs hrel hdocs hc

/-- A statement that the store admits is answered. -/
theorem query_answers (hadmits : store.Admits compiled) : ∃ t keys rows,
    boundRequest schema q sorting.keys = .ok (t, keys) ∧ store.query compiled = .ok rows ∧
      Answers store.clock shadowed schema t keys relation.rows rows := by
  rw [select_eq] at hc
  obtain ⟨⟨t, keys⟩, hb, rfl⟩ := reported_eq_ok.mp hc
  obtain ⟨rows, hrows, hanswers⟩ := rows_answers hs (boundRequest_resolved hb) store.clock hdocs .sqlite table
  exact ⟨t, keys, rows, hb, (Store.query_admitted hadmits hrel).trans hrows, hanswers⟩

/-- A compiled query without a page that the store admits selects the rows that the request selects with some
choice, each as often as choices differ to the sort keys. Members of arrays that are hidden are not found. A
query that the store does not admit is refused. -/
theorem query_selects : ∃ t keys, boundRequest schema q sorting.keys = .ok (t, keys) ∧
    (¬ store.Admits compiled → store.query compiled = .error .storage) ∧
    (store.Admits compiled → ∃ rows, store.query compiled = .ok rows ∧
      Answers store.clock shadowed schema t keys relation.rows rows ∧
      (Unshadowed t → Answers store.clock visible schema t keys relation.rows rows) ∧
      (sortArrays keys = [] → rows.Nodup)) := by
  obtain ⟨t, keys, hb, -⟩ := select_request hc
  refine ⟨t, keys, hb, Store.query_refused, fun hadmits => ?_⟩
  obtain ⟨t', keys', rows, hb', hrows, hanswers⟩ := query_answers hs hrel hdocs hc hadmits
  obtain ⟨rfl, rfl⟩ := Prod.mk.inj (Except.ok.inj (hb.symm.trans hb'))
  exact ⟨rows, hrows, hanswers, hanswers.visible, hanswers.nodup hdocs⟩

end query

/-! ## A post with two comments -/

def posts : Table := ⟨"Posts", none⟩

/-- A document's row, with an identity of its own. -/
def rowOf (n : Nat) (doc : Json) : Row :=
  ⟨⟨List.replicate 31 ⟨0, by decide⟩ ++ [⟨n % 16, Nat.mod_lt n (by decide)⟩], rfl⟩, doc.compact⟩

/-- A store with these rows in the table of posts. -/
def storeOf (rows : List Row) : Store := ⟨.inMemory, [⟨⟨.main, "posts"⟩, rows⟩], 0⟩

theorem storeOf_relation (rows : List Row) : (storeOf rows).relation posts = .ok ⟨⟨.main, "posts"⟩, rows⟩ := by rfl

/-- Posts with a title and comments. -/
def titled : Schema :=
  ⟨"Post", [⟨"Comment", [⟨"Content", .scalar .string⟩]⟩,
    ⟨"Post", [⟨"Title", .scalar .string⟩, ⟨"Comments", .array (.object "Comment")⟩]⟩]⟩

theorem titled_built : titled.Built := ⟨"Post", titled.types, by decide +kernel⟩

def comment (content : String) : Json := .object [("Content", .string content)]

def titledPost (comments : List Json) : Json := .object [("Title", .string "p"), ("Comments", .array comments)]

theorem titledPost_conforms (contents : List String) :
    Json.Conforms titled (.object "Post") (titledPost (contents.map comment)) := by
  refine .object (t := ⟨"Post", [⟨"Title", .scalar .string⟩, ⟨"Comments", .array (.object "Comment")⟩]⟩) rfl ?_
  intro f hf j hj
  rcases List.mem_cons.mp hf with rfl | hf
  · obtain rfl : _ = j := Option.some.inj hj
    exact .scalar rfl
  · obtain rfl := List.mem_singleton.mp hf
    obtain rfl : _ = j := Option.some.inj hj
    refine .array fun e he => ?_
    obtain ⟨content, -, rfl⟩ := List.mem_map.mp he
    refine .object (t := ⟨"Comment", [⟨"Content", .scalar .string⟩]⟩) rfl ?_
    intro f hf j hj
    obtain rfl := List.mem_singleton.mp hf
    obtain rfl : _ = j := Option.some.inj hj
    exact .scalar rfl

def discussed : Row := rowOf 1 (titledPost (["a", "b"].map comment))

theorem discussed_holds : discussed.Holds titled (titledPost (["a", "b"].map comment)) :=
  ⟨by rfl, titledPost_conforms ["a", "b"]⟩

def titleIs (title : String) : Query := .unary "title" (.comparison .equalTo) (.text title)

def byContent : Sorting := ⟨[⟨"Comments.Content", .descending⟩]⟩

/-- By title, in the order of what the comments say. -/
theorem discussed_query : ∃ compiled t keys rows,
    select titled .sqlite posts (some (titleIs "p")) byContent .all = .ok compiled ∧
    boundRequest titled (some (titleIs "p")) byContent.keys = .ok (t, keys) ∧
    (storeOf [discussed]).Admits compiled ∧ (storeOf [discussed]).query compiled = .ok rows ∧
    Answers 0 visible titled t keys [discussed] rows := by
  have hc := select_of_bound (by rfl : boundRequest titled (some (titleIs "p")) byContent.keys = .ok _)
    .sqlite posts .all
  obtain ⟨t, keys, hb, -, hanswered⟩ :=
    query_selects titled_built (storeOf_relation [discussed]) (.single discussed_holds) hc
  obtain ⟨rows, hrows, -, hanswers, -⟩ := hanswered (by decide +kernel)
  refine ⟨_, t, keys, rows, hc, hb, by decide +kernel, hrows, hanswers fun tree htree b hmem r hr => ?_⟩
  cases hb; cases htree
  obtain rfl := List.mem_singleton.mp hmem
  cases hr

/-! ## An array with the name of the engine's function -/

/-- Posts with notes that have tags. -/
def noted : Schema :=
  ⟨"Post", [⟨"Note", [⟨"Tags", .array (.scalar .string)⟩]⟩, ⟨"Post", [⟨membersFunction, .array (.object "Note")⟩]⟩]⟩

def tagged : Json := .object [("Tags", .array [.string "a"])]

def notedDocument : Json := .object [(membersFunction, .array [tagged])]

def notedPost : Row := rowOf 1 notedDocument

theorem notedPost_holds : notedPost.Holds noted notedDocument := by
  refine ⟨by rfl, .object (t := ⟨"Post", [⟨membersFunction, .array (.object "Note")⟩]⟩) rfl ?_⟩
  intro f hf j hj
  obtain rfl := List.mem_singleton.mp hf
  obtain rfl : _ = j := Option.some.inj hj
  refine .array fun e he => ?_
  obtain rfl := List.mem_singleton.mp he
  refine .object (t := ⟨"Note", [⟨"Tags", .array (.scalar .string)⟩]⟩) rfl ?_
  intro f hf j hj
  obtain rfl := List.mem_singleton.mp hf
  obtain rfl : _ = j := Option.some.inj hj
  refine .array fun e he => ?_
  obtain rfl := List.mem_singleton.mp he
  exact .scalar rfl

def tagsPath : ResolvedPath :=
  ⟨[⟨membersFunction, .objectArray, .object "Note"⟩], ⟨"Tags", .valueArray, .scalar .string⟩⟩

def hasTag : BoundTree := .leaf (.member false tagsPath .string (.text "a"))

theorem hasTag_bound : boundRequest noted (some (.unary "json_each.Tags" .contains (.text "a"))) [] =
    .ok (some hasTag, []) := by rfl

/-- A note has the tag, and yet the post is not found. -/
theorem notedPost_missed : noted.Built ∧ Documents noted [notedPost] ∧
    (storeOf [notedPost]).relation posts = .ok ⟨⟨.main, "posts"⟩, [notedPost]⟩ ∧
    boundRequest noted (some (.unary "json_each.Tags" .contains (.text "a"))) [] = .ok (some hasTag, []) ∧
    (∃ compiled, select noted .sqlite posts (some (.unary "json_each.Tags" .contains (.text "a"))) .none .all =
      .ok compiled ∧ (storeOf [notedPost]).query compiled = .ok []) ∧
    ∃ ch, Selects 0 visible (some hasTag) [] notedPost notedDocument ch := by
  have hbuilt : noted.Built := ⟨"Post", noted.types, by decide +kernel⟩
  have hdocs : Documents noted [notedPost] := .single notedPost_holds
  have hc : select noted .sqlite posts (some (.unary "json_each.Tags" .contains (.text "a"))) .none .all = .ok _ :=
    select_of_bound hasTag_bound .sqlite posts .all
  refine ⟨hbuilt, hdocs, storeOf_relation _, hasTag_bound, ⟨_, hc, ?_⟩, fun _ => tagged, ?_, ?_⟩
  · obtain ⟨t, keys, rows, hb, hrows, hanswers⟩ :=
      query_answers hbuilt (storeOf_relation [notedPost]) hdocs hc (by decide +kernel)
    have hrequest := Except.ok.inj (hasTag_bound.symm.trans hb)
    cases hrequest
    rw [hrows]
    congr 1
    refine List.eq_nil_iff_forall_not_mem.mpr fun row hrow => ?_
    obtain rfl := List.mem_singleton.mp (hanswers.stored row hrow)
    -- What hides its members has none.
    obtain ⟨ch, hsel⟩ := (hanswers.selected _ (List.mem_singleton.mpr rfl) _ notedPost_holds).mp hrow
    have htruth := hsel.holds hasTag rfl
    cases htruth
  · intro r hr
    obtain rfl := List.mem_singleton.mp hr
    exact ⟨⟨[tagged], rfl, List.mem_singleton.mpr rfl⟩, trivial⟩
  · intro tree e
    cases e
    rfl

end Statement

end DocQuery
