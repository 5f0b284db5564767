/-
  DocQuery.Proofs.Store.Pairing — one statement asked of two tables.

  Two tables stand side by side when their rows are in pairs of one identity. If joining and the condition
  treat the rows of each pair alike, then so does the statement: what it matches is in pairs again
  (`matching_paired`), and grouping, sorting by identity and counting look at identities only
  (`rows_paired`, `total_paired`). Failures are part of it: where one table is answered with an error, the
  other is answered with the same.
-/

import DocQuery.Proofs.Collection.Counting

namespace DocQuery

open Statement

/-- Lists in pairs are in pairs when both are sorted, if sorting treats pairs alike. -/
theorem forall₂_mergeSort {α β : Type} {R : α → β → Prop} (le : α → α → Bool) (le' : β → β → Bool)
    (h : ∀ a b a' b', R a a' → R b b' → le a b = le' a' b') {l : List α} {l' : List β} (hl : List.Forall₂ R l l') :
    List.Forall₂ R (l.mergeSort le) (l'.mergeSort le') := by
  obtain ⟨hlength, hzip⟩ := List.forall₂_iff_zip.mp hl
  have hfst : (l.zip l').map Prod.fst = l := List.map_fst_zip hlength.le
  have hsnd : (l.zip l').map Prod.snd = l' := List.map_snd_zip hlength.ge
  -- Both are sides of one sorted list of pairs.
  have hleft : ((l.zip l').mergeSort fun p q => le p.1 q.1).map Prod.fst = l.mergeSort le := by
    rw [List.map_mergeSort (s := le) fun _ _ _ _ => rfl, hfst]
  have hright : ((l.zip l').mergeSort fun p q => le p.1 q.1).map Prod.snd = l'.mergeSort le' := by
    rw [List.map_mergeSort (s := le') fun p hp q hq => h _ _ _ _ (hzip hp) (hzip hq), hsnd]
  rw [← hleft, ← hright, List.forall₂_map_left_iff, List.forall₂_map_right_iff, List.forall₂_same]
  intro p hp
  exact hzip (List.mem_mergeSort.mp hp)

namespace Statement

variable {now : Nat} {s : Statement} {parameters : List Cell} {table table' : List Row}

/-! ## Matching -/

/-- Joined and put to the condition, two rows come to pairs, or fail alike. -/
def MatchAlike (s : Statement) (now : Nat) (parameters : List Cell) (R : Row → Row → Prop) (row row' : Row) : Prop :=
  Except.Rel
    (List.Forall₂ fun x x' => R x.row x'.row ∧
      Except.Rel Eq (selects now parameters s.condition x) (selects now parameters s.condition x'))
    (joinAll s.joins ⟨row, []⟩) (joinAll s.joins ⟨row', []⟩)

variable {R : Row → Row → Prop}

theorem matching_paired (h : List.Forall₂ (MatchAlike s now parameters R) table table') :
    Except.Rel (List.Forall₂ fun x x' : Joined => R x.row x'.row) (matching s now parameters table)
      (matching s now parameters table') := by
  have hjoined := Except.Rel.mapM h
  refine hjoined.bind fun joined joined' hpairs => ?_
  apply Except.Rel.filterM
  induction hpairs with
  | nil => exact .nil
  | cons hrow _ ih => exact List.rel_append hrow ih

/-! ## Groups and order -/

variable (hid : ∀ row row', R row row' → row.id = row'.id)

theorem dropRepeated_paired {Q : Joined → Joined → Prop} {l l' : List (List Cell × Joined)}
    (h : List.Forall₂ (fun p p' => p.1 = p'.1 ∧ Q p.2 p'.2) l l') :
    List.Forall₂ (fun p p' => p.1 = p'.1 ∧ Q p.2 p'.2) (dropRepeated l) (dropRepeated l') := by
  induction l using dropRepeated.induct generalizing l' with
  | case1 a b rest heq ih =>
    cases h with
    | cons ha h =>
      cases h with
      | cons hb hrest =>
        rw [dropRepeated, if_pos heq, dropRepeated, if_pos (by rw [← ha.1, ← hb.1]; exact heq)]
        exact ih (.cons ha hrest)
  | case2 a b rest hne ih =>
    cases h with
    | cons ha h =>
      cases h with
      | cons hb hrest =>
        rw [dropRepeated, if_neg hne, dropRepeated, if_neg (by rw [← ha.1, ← hb.1]; exact hne)]
        exact .cons ha (ih (.cons hb hrest))
  | case3 rest hrest =>
    cases h with
    | nil => simp [dropRepeated]
    | cons ha h =>
      cases h with
      | nil => simpa [dropRepeated] using ha
      | cons hb h => exact absurd rfl (hrest _ _ _)

include hid

/-- Groups that are identities are in pairs. -/
theorem one_paired (hgroup : ∀ j ∈ s.joins, j.grouped = false) {found found' : List Joined}
    (h : List.Forall₂ (fun x x' => R x.row x'.row) found found') :
    List.Forall₂ (fun x x' => R x.row x'.row) (one s.joins found) (one s.joins found') := by
  unfold one
  split
  · exact h
  · have hkeyed : List.Forall₂ (fun p p' : List Cell × Joined => p.1 = p'.1 ∧ R p.2.row p'.2.row)
        (found.map fun x => (groupKey s.joins x, x)) (found'.map fun x => (groupKey s.joins x, x)) := by
      rw [List.forall₂_map_left_iff, List.forall₂_map_right_iff]
      refine h.imp fun x x' hx => ⟨?_, hx⟩
      rw [groupKey_ungrouped hgroup, groupKey_ungrouped hgroup, hid _ _ hx]
    have hsorted := forall₂_mergeSort (fun a b => compareCells a.1 b.1 != .gt) (fun a b => compareCells a.1 b.1 != .gt)
      (fun a b a' b' ha hb => by rw [ha.1, hb.1]) hkeyed
    show List.Forall₂ _ ((dropRepeated _).map _) ((dropRepeated _).map _)
    rw [List.forall₂_map_left_iff, List.forall₂_map_right_iff]
    exact (dropRepeated_paired (Q := fun x x' => R x.row x'.row) hsorted).imp fun p p' hp => hp.2

/-- Sorting by identity keeps pairs together. -/
theorem sorted_paired {order : List Order} (horder : ByIdentity order) {rows rows' : List Joined}
    (h : List.Forall₂ (fun x x' => R x.row x'.row) rows rows') :
    Except.Rel (List.Forall₂ fun x x' : Joined => R x.row x'.row) (sorted now order rows) (sorted now order rows') := by
  have hcells : ∀ x x' : Joined, R x.row x'.row → order.mapM (Order.cell now x) = order.mapM (Order.cell now x') := by
    intro x x' hx
    apply Except.mapM_congr
    intro o ho
    obtain ⟨direction, rfl⟩ := horder o ho
    show Except.ok (Cell.text x.row.id.text) = Except.ok (Cell.text x'.row.id.text)
    rw [hid _ _ hx]
  have hkeyed : Except.Rel (List.Forall₂ fun p p' : List Cell × Joined => p.1 = p'.1 ∧ R p.2.row p'.2.row)
      (rows.mapM fun x => do return (← order.mapM (Order.cell now x), x) : Except Error (List (List Cell × Joined)))
      (rows'.mapM fun x => do return (← order.mapM (Order.cell now x), x)) := by
    apply Except.Rel.mapM
    refine h.imp fun x x' hx => ?_
    rw [hcells x x' hx]
    exact (Except.Rel.refl (fun _ => rfl) _).bind fun a a' ha => .ok ⟨ha, hx⟩
  refine hkeyed.bind fun keyed keyed' hpairs => .ok ?_
  rw [List.forall₂_map_left_iff, List.forall₂_map_right_iff]
  have hsorted := forall₂_mergeSort (fun a b => compareKeys order a.1 b.1 != .gt)
    (fun a b => compareKeys order a.1 b.1 != .gt) (fun a b a' b' ha hb => by rw [ha.1, hb.1]) hpairs
  exact hsorted.imp fun p p' hp => hp.2

theorem scan_paired (h : List.Forall₂ R table table') : List.Forall₂ R (scan s table) (scan s table') := by
  unfold scan
  split
  · exact forall₂_mergeSort _ _ (fun a b a' b' ha hb => by rw [hid _ _ ha, hid _ _ hb]) h
  · exact h

/-! ## Answers -/

variable (h : List.Forall₂ (MatchAlike s now parameters R) table table') (hrows : List.Forall₂ R table table')

include h hrows

theorem rows_paired (hpage : s.page = .all) (horder : ByIdentity s.order) (hgroup : ∀ j ∈ s.joins, j.grouped = false) :
    Except.Rel (List.Forall₂ R) (s.rows now parameters table) (s.rows now parameters table') := by
  have hcheck : checkPage s.page = .ok () := by rw [hpage]; rfl
  have hpaged : ∀ rows : List Row, Page.all.select rows = rows := fun _ => rfl
  have hscanned : List.Forall₂ (fun row row' => R row row' ∧ MatchAlike s now parameters R row row') (scan s table)
      (scan s table') := by
    refine scan_paired (fun row row' hrow => hid row row' hrow.1) ?_
    exact List.forall₂_iff_get.mpr ⟨hrows.length_eq, fun i hi hi' => ⟨hrows.get hi hi', h.get hi hi'⟩⟩
  have hmatching := matching_paired (hscanned.imp fun row row' hrow => hrow.2)
  unfold Statement.rows
  rw [hcheck, hpage]
  refine hmatching.bind fun found found' hfound => ?_
  refine (sorted_paired hid horder (one_paired hid hgroup hfound)).bind fun left left' hleft => ?_
  rw [hpaged, hpaged]
  refine .ok ?_
  rw [List.forall₂_map_left_iff, List.forall₂_map_right_iff]
  exact hleft

omit hrows

theorem total_paired : s.total now parameters table = s.total now parameters table' := by
  apply Except.Rel.eq
  refine (matching_paired h).bind fun found found' hfound => .ok ?_
  have hids : found.map (·.row.id) = found'.map (·.row.id) := by
    rw [← List.forall₂_eq_eq_eq, List.forall₂_map_left_iff, List.forall₂_map_right_iff]
    exact hfound.imp fun x x' hx => hid _ _ hx
  rw [hids]

end Statement

end DocQuery
