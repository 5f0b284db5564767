/-
  DocQuery.Proofs.Store.Completion — choosing more elements.

  What a query says under a choice depends on the elements of the arrays that its paths cross and
  on no others (`BoundTree.truth_agree`, `BoundTree.fits_agree`). So from a choice that fits one
  query one can go on to the arrays of another, outermost first: either all of them have elements,
  or one is met that is empty or not there (`fits_or_vacant`).
-/

import DocQuery.Proofs.Store.Evaluation

namespace DocQuery.Statement

open DocQuery.Path

/-! ## What a query depends on -/

variable {now : Nat} {doc : Json} {ch ch' : Choice}

theorem read_agree {r : ResolvedPath} (hk : r.terminal.kind ≠ .objectArray) (h : Agree r.labels ch ch') :
    ch.read doc r = ch'.read doc r := by
  rw [ch.read_eq doc hk, ch'.read_eq doc hk]
  exact valueAt_congr r.place_reaches h

theorem fits_agree {r : ResolvedPath} (h : Agree r.labels ch ch') (hfits : ch.Fits doc r) : ch'.Fits doc r := by
  rw [Choice.fits_iff] at hfits ⊢
  intro c hc
  rw [← valueAt_congr (ResolvedPath.array_reaches hc) h, ← h _ (List.mem_map.mpr ⟨c, hc, rfl⟩)]
  exact hfits c hc

theorem Bound.truth_agree {b : Bound} (h : ∀ r, b.path? = some r → ch.read doc r = ch'.read doc r)
    (hidden : ResolvedPath → Bool) (row : Row) : b.truth now hidden row doc ch = b.truth now hidden row doc ch' := by
  cases b with
  | identityNull negated => rfl
  | identityCompare c v => rfl
  | isNull negated r => simp only [Bound.truth, Choice.cell, h r rfl]
  | compare c r type v => simp only [Bound.truth, Choice.cell, h r rfl]
  | member negated r type v => simp only [Bound.truth, Choice.members, h r rfl]

namespace BoundTree

/-- The arrays that a query's paths cross. -/
def crossed (t : BoundTree) : List Crossing := t.paths.flatMap (·.arrays)

def labels (t : BoundTree) : List String := t.crossed.map fun c => dotted c.names

theorem labels_path {t : BoundTree} {r : ResolvedPath} (h : r ∈ t.paths) : r.labels ⊆ t.labels := by
  intro label hl
  obtain ⟨c, hc, rfl⟩ := List.mem_map.mp hl
  exact List.mem_map.mpr ⟨c, List.mem_flatMap.mpr ⟨r, h, hc⟩, rfl⟩

theorem fits_agree {t : BoundTree} (h : Agree t.labels ch ch') (hfits : ∀ r ∈ t.paths, ch.Fits doc r) :
    ∀ r ∈ t.paths, ch'.Fits doc r :=
  fun r hr => Statement.fits_agree (h.mono (labels_path hr)) (hfits r hr)

theorem truth_agree {schema : Schema} {t : BoundTree} (ht : t.Sound schema) (h : Agree t.labels ch ch')
    (hidden : ResolvedPath → Bool) (row : Row) : t.truth now hidden row doc ch = t.truth now hidden row doc ch' := by
  have hread : ∀ r ∈ t.paths, ch.read doc r = ch'.read doc r := by
    intro r hr
    obtain ⟨path, hres⟩ := ht.resolved r hr
    exact read_agree (resolve_declared hres).2 (h.mono (labels_path hr))
  clear h ht
  induction t with
  | leaf b => exact Bound.truth_agree (fun r hr => hread r (by simp [paths, hr])) hidden row
  | binary c left right ihl ihr =>
    rw [truth, truth, ihl fun r hr => hread r (List.mem_append_left _ hr),
      ihr fun r hr => hread r (List.mem_append_right _ hr)]

end BoundTree

/-! ## Going on -/

/-- No element can be chosen there. -/
def Vacant (ch : Choice) (doc : Json) (l : Location) : Prop :=
  ∀ items, ch.valueAt doc l = some (.array items) → items = []

/-- A choice has an element of every kept join's array, which it reads from kept elements. -/
def Keeps (ch : Choice) (doc : Json) (kept : List String) (joins : List ArrayJoin) : Prop :=
  ∀ j ∈ joins, j.label ∈ kept → Joined.Reaches kept j.array ∧
    ∃ items, ch.valueAt doc j.array = some (.array items) ∧ ch j.label ∈ items

theorem Keeps.next {kept : List String} {j : ArrayJoin} {rest : List ArrayJoin} (h : Keeps ch doc kept (j :: rest))
    (hagree : Agree kept ch ch') : Keeps ch' doc kept rest := by
  intro k hk hmem
  obtain ⟨hreach, items, hitems, hin⟩ := h k (List.mem_cons_of_mem _ hk) hmem
  exact ⟨hreach, items, valueAt_congr hreach hagree ▸ hitems, hagree _ hmem ▸ hin⟩

theorem exists_element_of_not_vacant {l : Location} (h : ¬ Vacant ch doc l) :
    ∃ items, ch.valueAt doc l = some (.array items) ∧ ∃ e, e ∈ items := by
  simp only [Vacant, not_forall] at h
  obtain ⟨items, hitems, hne⟩ := h
  exact ⟨items, hitems, List.exists_mem_of_ne_nil items hne⟩

/-- A choice that fits some of the joins goes on to one that fits all, or to an array without elements. -/
theorem fits_or_vacant {good : String → Json → Prop} {kept bound : List String} {joins : List ArrayJoin}
    (hp : Pending good doc ch bound joins) (hkept : Keeps ch doc kept joins) :
    ∃ ch', Agree (kept ++ bound) ch ch' ∧
      (FitsJoins doc ch' joins ∨ ∃ j ∈ joins, j.label ∉ kept ∧ Vacant ch' doc j.array) := by
  induction joins generalizing bound ch with
  | nil => exact ⟨ch, .refl ch, Or.inl (List.forall_mem_nil _)⟩
  | cons j rest ih =>
    -- Going on from an element of this join's array is going on from the join.
    have hon : ∀ ch₁ items, Agree (kept ++ bound) ch ch₁ → ch.valueAt doc j.array = some (.array items) →
        ch₁ j.label ∈ items → ∃ ch', Agree (kept ++ bound) ch ch' ∧
          (FitsJoins doc ch' (j :: rest) ∨ ∃ k ∈ j :: rest, k.label ∉ kept ∧ Vacant ch' doc k.array) := by
      intro ch₁ items hagree hitems hmem
      have hbound : Agree bound ch ch₁ := hagree.mono (List.subset_append_right ..)
      obtain ⟨ch', hagree', hor⟩ := ih (hp.next hbound hitems hmem)
        (hkept.next (hagree.mono (List.subset_append_left ..)))
      have hall : Agree (kept ++ bound) ch ch' :=
        hagree.trans (hagree'.mono ((List.sublist_cons_self ..).append_left kept).subset)
      refine ⟨ch', hall, ?_⟩
      rcases hor with hfits | ⟨k, hk, hvacant⟩
      · have hlabel : ch₁ j.label = ch' j.label := hagree' _ (List.mem_append_right _ List.mem_cons_self)
        have harray : ch.valueAt doc j.array = ch'.valueAt doc j.array :=
          valueAt_congr hp.reaches (hall.mono (List.subset_append_right ..))
        exact Or.inl (fitsJoins_cons.mpr ⟨⟨items, harray ▸ hitems, hlabel ▸ hmem⟩, hfits⟩)
      · exact Or.inr ⟨k, List.mem_cons_of_mem _ hk, hvacant⟩
    by_cases hk : j.label ∈ kept
    · obtain ⟨-, items, hitems, hmem⟩ := hkept j List.mem_cons_self hk
      exact hon ch items (.refl ch) hitems hmem
    · by_cases hv : Vacant ch doc j.array
      · exact ⟨ch, .refl ch, Or.inr ⟨j, List.mem_cons_self, hk, hv⟩⟩
      · obtain ⟨items, hitems, e, he⟩ := exists_element_of_not_vacant hv
        have hnew : j.label ∉ kept ++ bound := List.not_mem_append hk hp.new
        exact hon (choose ch j.label e) items (choose_agree ch hnew e) hitems ((choose_self ch j.label e).symm ▸ he)

section queries

variable {schema : Schema} (hs : schema.Built) {a b : BoundTree} (ha : a.Sound schema) (hb : b.Sound schema)
  {row : Row} (hrow : row.Holds schema doc)

include hs ha hb hrow

/-- A choice that fits one query goes on to one that fits another as well, or to an array that only the
other crosses and that has no elements. -/
theorem goes_on (hfits : ∀ r ∈ a.paths, ch.Fits doc r) : ∃ ch', Agree a.labels ch ch' ∧
    ((∀ r ∈ b.paths, ch'.Fits doc r) ∨ ∃ c ∈ b.crossed, c ∉ a.crossed ∧ Vacant ch' doc c.array) := by
  have hpaths : requestPaths (some (.binary .or a b)) [] = a.paths ++ b.paths := by simp [requestPaths, BoundTree.paths]
  have hr : AllResolved schema (requestPaths (some (.binary .or a b)) []) := by
    intro r hr
    rw [hpaths] at hr
    exact (List.mem_append.mp hr).elim (ha.resolved r) (hb.resolved r)
  have hkept : Keeps ch doc a.labels (requestJoins (some (.binary .or a b)) []) := by
    intro j hj hl
    obtain ⟨c, hc, hlabel⟩ := List.mem_map.mp hl
    obtain ⟨r, hmem, hcr⟩ := List.mem_flatMap.mp hc
    obtain ⟨k, hk, hklabel, harray⟩ := requestJoins_complete hs hr (hpaths ▸ List.mem_append_left _ hmem) hcr
    obtain rfl := List.inj_on_of_nodup_map (requestJoins_nodup _ _) hk hj (hklabel.trans hlabel)
    rw [harray, hklabel]
    exact ⟨fun label h => BoundTree.labels_path hmem (ResolvedPath.array_reaches hcr label h),
      (Choice.fits_iff ch doc r).mp (hfits r hmem) c hcr⟩
  obtain ⟨ch', hagree, hor⟩ := fits_or_vacant (requestJoins_pending hs hr hrow ch) hkept
  refine ⟨ch', hagree.mono (List.subset_append_left ..), ?_⟩
  rcases hor with hall | ⟨j, hj, hlabel, hvacant⟩
  · exact Or.inl fun r hmem => (fitsJoins_iff hs hr).mp hall r (hpaths ▸ List.mem_append_right _ hmem)
  · obtain ⟨r, hmem, c, hc, hcl, harray⟩ := requestJoins_sound hj
    have hnot : c ∉ a.crossed := fun h => hlabel (hcl ▸ List.mem_map.mpr ⟨c, h, rfl⟩)
    rw [hpaths] at hmem
    rcases List.mem_append.mp hmem with hmem | hmem
    · exact absurd (List.mem_flatMap.mpr ⟨r, hmem, hc⟩) hnot
    · exact Or.inr ⟨c, List.mem_flatMap.mpr ⟨r, hmem, hc⟩, hnot, harray ▸ hvacant⟩

end queries

end DocQuery.Statement
