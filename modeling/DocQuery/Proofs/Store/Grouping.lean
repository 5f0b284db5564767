/-
  DocQuery.Proofs.Store.Grouping — one row for each group.

  Group keys are texts: an identity and the texts of objects. On such keys, of one length, the
  engine's comparison is the order of lists, so sorting brings equal keys together and what is
  left after dropping repetitions has every key once (`groups_representatives`). How often a row
  comes back is then how many keys it has (`Representatives.count`).
-/

import Mathlib.Data.List.Lex
import Mathlib.Data.Set.Card
import Mathlib.Data.String.Basic
import DocQuery.Store.Selection

namespace DocQuery

namespace Statement

/-! ## Keys of texts -/

theorem compareTexts_eq (s t : String) : Cell.compareTexts s t = if s < t then .lt else if s = t then .eq else .gt := by
  unfold Cell.compareTexts
  by_cases h : s = t <;> simp [h]

/-- Keys of texts are compared as lists of texts are. -/
theorem compareCells_texts {a b : List String} (h : a.length = b.length) :
    compareCells (a.map .text) (b.map .text) = if a < b then .lt else if a = b then .eq else .gt := by
  induction a generalizing b with
  | nil =>
    cases b with
    | nil => simp [compareCells]
    | cons y ys => simp at h
  | cons x xs ih =>
    cases b with
    | nil => simp at h
    | cons y ys =>
      have hrest := ih (b := ys) (by simpa using h)
      simp only [List.map_cons, compareCells, Cell.order, compareTexts_eq, hrest, List.cons_lt_cons_iff,
        List.cons.injEq]
      rcases lt_trichotomy x y with hlt | rfl | hgt
      · simp [hlt]
      · simp
      · have hne : x ≠ y := hgt.ne'
        simp [hgt.not_gt, hne]

/-- A key of `n` texts. -/
def TextKey (n : Nat) (k : List Cell) : Prop := ∃ texts : List String, texts.length = n ∧ k = texts.map .text

def cellText : Cell → String
  | .text s => s
  | _ => ""

def keyTexts (k : List Cell) : List String := k.map cellText

theorem keyTexts_texts (texts : List String) : keyTexts (texts.map .text) = texts := by
  rw [keyTexts, List.map_map]
  exact List.map_id texts

variable {n : Nat}

theorem TextKey.compare_eq {a b : List Cell} (ha : TextKey n a) (hb : TextKey n b) : compareCells a b =
    if keyTexts a < keyTexts b then .lt else if keyTexts a = keyTexts b then .eq else .gt := by
  obtain ⟨x, hx, rfl⟩ := ha
  obtain ⟨y, hy, rfl⟩ := hb
  rw [keyTexts_texts, keyTexts_texts]
  exact compareCells_texts (hx.trans hy.symm)

theorem TextKey.le_iff {a b : List Cell} (ha : TextKey n a) (hb : TextKey n b) :
    (compareCells a b != .gt) = decide (keyTexts a ≤ keyTexts b) := by
  rw [ha.compare_eq hb]
  rcases lt_trichotomy (keyTexts a) (keyTexts b) with h | h | h
  · simp [h, h.le]
  · simp [h]
  · simp [h.not_gt, h.ne', h.not_ge]

theorem TextKey.eq_iff {a b : List Cell} (ha : TextKey n a) (hb : TextKey n b) :
    (compareCells a b == .eq) = true ↔ keyTexts a = keyTexts b := by
  rw [ha.compare_eq hb]
  rcases lt_trichotomy (keyTexts a) (keyTexts b) with h | h | h
  · simp [h, h.ne]
  · simp [h]
  · simp [h.not_gt, h.ne']

/-! ## Dropping repetitions -/

theorem mem_of_mem_dropRepeated {l : List (List Cell × Joined)} {p : List Cell × Joined} (h : p ∈ dropRepeated l) :
    p ∈ l := by
  induction l using dropRepeated.induct with
  | case1 a b rest heq ih =>
    rw [dropRepeated, if_pos heq] at h
    rcases List.mem_cons.mp (ih h) with rfl | h
    · exact List.mem_cons_self ..
    · exact List.mem_cons_of_mem _ (List.mem_cons_of_mem _ h)
  | case2 a b rest hne ih =>
    rw [dropRepeated, if_neg hne] at h
    rcases List.mem_cons.mp h with rfl | h
    · exact List.mem_cons_self ..
    · exact List.mem_cons_of_mem _ (ih h)
  | case3 rest hrest =>
    unfold dropRepeated at h
    split at h
    · exact absurd rfl (hrest _ _ _)
    · exact h

theorem dropRepeated_complete {l : List (List Cell × Joined)} (hl : ∀ p ∈ l, TextKey n p.1) :
    ∀ p ∈ l, ∃ q ∈ dropRepeated l, keyTexts q.1 = keyTexts p.1 := by
  induction l using dropRepeated.induct with
  | case1 a b rest heq ih =>
    rw [dropRepeated, if_pos heq]
    have ha := hl a (List.mem_cons_self ..)
    have hb := hl b (List.mem_cons_of_mem _ (List.mem_cons_self ..))
    have hih := ih fun p hp => hl p (by
      rcases List.mem_cons.mp hp with rfl | hp
      · exact List.mem_cons_self ..
      · exact List.mem_cons_of_mem _ (List.mem_cons_of_mem _ hp))
    intro p hp
    rcases List.mem_cons.mp hp with rfl | hp
    · exact hih p (List.mem_cons_self ..)
    · rcases List.mem_cons.mp hp with rfl | hp
      · obtain ⟨q, hq, e⟩ := hih a (List.mem_cons_self ..)
        exact ⟨q, hq, e.trans ((ha.eq_iff hb).mp heq)⟩
      · exact hih p (List.mem_cons_of_mem _ hp)
  | case2 a b rest hne ih =>
    rw [dropRepeated, if_neg hne]
    intro p hp
    rcases List.mem_cons.mp hp with rfl | hp
    · exact ⟨p, List.mem_cons_self .., rfl⟩
    · obtain ⟨q, hq, e⟩ := ih (fun p hp => hl p (List.mem_cons_of_mem _ hp)) p hp
      exact ⟨q, List.mem_cons_of_mem _ hq, e⟩
  | case3 rest hrest =>
    intro p hp
    refine ⟨p, ?_, rfl⟩
    unfold dropRepeated
    split
    · exact absurd rfl (hrest _ _ _)
    · exact hp

/-- Of keys in order no key is left twice. -/
theorem dropRepeated_nodup {l : List (List Cell × Joined)} (hl : ∀ p ∈ l, TextKey n p.1)
    (hs : l.Pairwise fun a b => keyTexts a.1 ≤ keyTexts b.1) : ((dropRepeated l).map fun p => keyTexts p.1).Nodup := by
  induction l using dropRepeated.induct with
  | case1 a b rest heq ih =>
    rw [dropRepeated, if_pos heq]
    obtain ⟨ha, hrest⟩ := List.pairwise_cons.mp hs
    refine ih (fun p hp => hl p ?_) (List.pairwise_cons.mpr ⟨fun p hp => ha p (List.mem_cons_of_mem _ hp),
      (List.pairwise_cons.mp hrest).2⟩)
    rcases List.mem_cons.mp hp with rfl | hp
    · exact List.mem_cons_self ..
    · exact List.mem_cons_of_mem _ (List.mem_cons_of_mem _ hp)
  | case2 a b rest hne ih =>
    rw [dropRepeated, if_neg hne]
    obtain ⟨ha, hrest⟩ := List.pairwise_cons.mp hs
    refine List.nodup_cons.mpr ⟨fun hm => ?_, ih (fun p hp => hl p (List.mem_cons_of_mem _ hp)) hrest⟩
    obtain ⟨p, hp, e⟩ := List.mem_map.mp hm
    -- The key of `a` would stand again behind `b`, so `b` would have it too.
    have hka := hl a (List.mem_cons_self ..)
    have hkb := hl b (List.mem_cons_of_mem _ (List.mem_cons_self ..))
    have hab := ha b (List.mem_cons_self ..)
    have hba : keyTexts b.1 ≤ keyTexts a.1 := by
      rcases List.mem_cons.mp (mem_of_mem_dropRepeated hp) with rfl | hp
      · exact e.le
      · exact ((List.pairwise_cons.mp hrest).1 p hp).trans e.le
    exact hne ((hka.eq_iff hkb).mpr (le_antisymm hab hba))
  | case3 rest hrest =>
    unfold dropRepeated
    split
    · exact absurd rfl (hrest _ _ _)
    · rename_i hne
      match rest, hne with
      | [], _ => simp
      | [a], _ => simp
      | a :: b :: more, hne => exact absurd rfl (hne a b more)

/-! ## Groups -/

variable {joins : List ArrayJoin} {rows : List Joined}

def textsOf (joins : List ArrayJoin) (r : Joined) : List String := keyTexts (groupKey joins r)

/-- The keyed rows in the order of their keys. -/
def keyed (joins : List ArrayJoin) (rows : List Joined) : List (List Cell × Joined) :=
  (rows.map fun r => (groupKey joins r, r)).mergeSort fun a b => compareCells a.1 b.1 != .gt

theorem mem_keyed {p : List Cell × Joined} (h : p ∈ keyed joins rows) : p.2 ∈ rows ∧ p.1 = groupKey joins p.2 := by
  obtain ⟨r, hr, rfl⟩ := List.mem_map.mp ((List.mergeSort_perm _ _).mem_iff.mp h)
  exact ⟨hr, rfl⟩

/-- Sorting by the engine's comparison puts keys of texts in order. -/
theorem keyed_pairwise (h : ∀ r ∈ rows, TextKey n (groupKey joins r)) :
    (keyed joins rows).Pairwise fun a b => keyTexts a.1 ≤ keyTexts b.1 := by
  have hsort : keyed joins rows = (rows.map fun r => (groupKey joins r, r)).mergeSort
      fun a b => decide (keyTexts a.1 ≤ keyTexts b.1) := by
    have hmap := List.map_mergeSort (r := fun a b => compareCells a.1 b.1 != .gt)
      (s := fun a b => decide (keyTexts a.1 ≤ keyTexts b.1)) (f := id)
      (l := rows.map fun r => (groupKey joins r, r)) (fun a ha b hb => ?_)
    · simpa [keyed] using hmap
    · obtain ⟨r, hr, rfl⟩ := List.mem_map.mp ha
      obtain ⟨r', hr', rfl⟩ := List.mem_map.mp hb
      exact (h r hr).le_iff (h r' hr')
  rw [hsort]
  have hpair : ((rows.map fun r => (groupKey joins r, r)).mergeSort fun a b =>
      decide (keyTexts a.1 ≤ keyTexts b.1)).Pairwise fun a b => decide (keyTexts a.1 ≤ keyTexts b.1) = true :=
    List.pairwise_mergeSort (fun a b c hab hbc => by simp only [decide_eq_true_eq] at *; exact hab.trans hbc)
      (fun a b => by simpa using le_total (keyTexts a.1) (keyTexts b.1)) _
  exact hpair.imp fun hab => by simpa using hab

theorem keyed_textKey (h : ∀ r ∈ rows, TextKey n (groupKey joins r)) : ∀ p ∈ keyed joins rows, TextKey n p.1 := by
  intro p hp
  obtain ⟨hr, hk⟩ := mem_keyed hp
  exact hk ▸ h p.2 hr

theorem mem_of_mem_groups {r : Joined} (h : r ∈ groups joins rows) : r ∈ rows := by
  obtain ⟨p, hp, rfl⟩ := List.mem_map.mp h
  exact (mem_keyed (mem_of_mem_dropRepeated hp)).1

/-- Every key is left. -/
theorem groups_complete (h : ∀ r ∈ rows, TextKey n (groupKey joins r)) :
    ∀ r ∈ rows, ∃ r' ∈ groups joins rows, textsOf joins r' = textsOf joins r := by
  intro r hr
  have hp : (groupKey joins r, r) ∈ keyed joins rows :=
    (List.mergeSort_perm _ _).mem_iff.mpr (List.mem_map.mpr ⟨r, hr, rfl⟩)
  obtain ⟨q, hq, e⟩ := dropRepeated_complete (keyed_textKey h) _ hp
  have hk := (mem_keyed (mem_of_mem_dropRepeated hq)).2
  exact ⟨q.2, List.mem_map.mpr ⟨q, hq, rfl⟩, by rw [textsOf, ← hk]; exact e⟩

/-- No key is left twice. -/
theorem groups_nodup (h : ∀ r ∈ rows, TextKey n (groupKey joins r)) :
    ((groups joins rows).map (textsOf joins)).Nodup := by
  have hnodup := dropRepeated_nodup (keyed_textKey h) (keyed_pairwise h)
  have hmap : (groups joins rows).map (textsOf joins) =
      (dropRepeated (keyed joins rows)).map fun p => keyTexts p.1 := by
    show ((dropRepeated (keyed joins rows)).map (·.2)).map (textsOf joins) = _
    rw [List.map_map]
    refine List.map_congr_left fun p hp => ?_
    rw [(mem_keyed (mem_of_mem_dropRepeated hp)).2]; rfl
  rw [hmap]; exact hnodup

/-! ## One of each key -/

/-- Of every key that is found one row is left. -/
structure Representatives {β : Type} (key : Joined → β) (found : Joined → Prop) (left : List Joined) : Prop where
  sound : ∀ r ∈ left, found r
  complete : ∀ r, found r → ∃ r' ∈ left, key r' = key r
  nodup : (left.map key).Nodup

theorem groups_representatives (h : ∀ r ∈ rows, TextKey n (groupKey joins r)) :
    Representatives (textsOf joins) (· ∈ rows) (groups joins rows) :=
  ⟨fun _ hr => mem_of_mem_groups hr, groups_complete h, groups_nodup h⟩

namespace Representatives

variable {β : Type} {key : Joined → β} {found : Joined → Prop} {left : List Joined}

theorem refl (h : (left.map key).Nodup) : Representatives key (· ∈ left) left :=
  ⟨fun _ hr => hr, fun r hr => ⟨r, hr, rfl⟩, h⟩

theorem congr {found' : Joined → Prop} (h : Representatives key found left) (e : ∀ r, found r ↔ found' r) :
    Representatives key found' left :=
  ⟨fun r hr => (e r).mp (h.sound r hr), fun r hr => h.complete r ((e r).mpr hr), h.nodup⟩

theorem perm {left' : List Joined} (h : Representatives key found left) (hp : left'.Perm left) :
    Representatives key found left' := by
  refine ⟨fun r hr => h.sound r (hp.mem_iff.mp hr), fun r hr => ?_, (hp.map key).nodup_iff.mpr h.nodup⟩
  obtain ⟨r', hr', e⟩ := h.complete r hr
  exact ⟨r', hp.mem_iff.mpr hr', e⟩

variable (hrow : ∀ r r', found r → found r' → key r = key r' → r.row = r'.row)

include hrow

/-- A row is left if it is found. -/
theorem mem_row (h : Representatives key found left) (row : Row) :
    row ∈ left.map (·.row) ↔ ∃ r, found r ∧ r.row = row := by
  rw [List.mem_map]
  constructor
  · rintro ⟨r, hr, e⟩; exact ⟨r, h.sound r hr, e⟩
  · rintro ⟨r, hr, rfl⟩
    obtain ⟨r', hr', e⟩ := h.complete r hr
    exact ⟨r', hr', hrow r' r (h.sound r' hr') hr e⟩

/-- A row is left as often as it has keys. -/
theorem count [DecidableEq β] (h : Representatives key found left) (row : Row) :
    ((left.map (·.row)).count row : ℕ∞) = {k | ∃ r, found r ∧ r.row = row ∧ key r = k}.encard := by
  have hfilter : (left.map (·.row)).count row = (left.filter fun r => r.row == row).length := by
    rw [List.count, List.countP_map, List.countP_eq_length_filter]; rfl
  have hnodup : ((left.filter fun r => r.row == row).map key).Nodup := (List.filter_sublist.map key).nodup h.nodup
  have hset : {k | ∃ r, found r ∧ r.row = row ∧ key r = k} =
      (((left.filter fun r => r.row == row).map key).toFinset : Set β) := by
    ext k
    simp only [Set.mem_ofPred_eq, List.coe_toFinset, List.mem_map, List.mem_filter, beq_iff_eq]
    constructor
    · rintro ⟨r, hr, rfl, rfl⟩
      obtain ⟨r', hr', e⟩ := h.complete r hr
      exact ⟨r', ⟨hr', hrow r' r (h.sound r' hr') hr e⟩, e⟩
    · rintro ⟨r, ⟨hr, e⟩, rfl⟩
      exact ⟨r, h.sound r hr, e, rfl⟩
  rw [hset, Set.encard_coe_eq_coe_finsetCard, List.toFinset_card_of_nodup hnodup, List.length_map, hfilter]

end Representatives

end Statement

end DocQuery
