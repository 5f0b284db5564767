/-
  DocQuery.Proofs.Join.Canonical — the emission order of joins forgets how the plan grew.

  Positions in a plan are the order in which paths were added. What is emitted depends on the set of
  its joins alone: the joins of one parent are those whose arrays are read from its element
  (`mem_children_array`), strictly ordered by their keys (`children_ordered`), so two plans with the
  same joins list the same ones below equal sources (`children_eq`), level after level (`below_eq_of_mem_iff`, `arrayJoins_eq`).
-/

import Mathlib.Data.String.Basic
import DocQuery.Proofs.Join.Order

namespace DocQuery

open DocQuery.Path Statement

namespace Join.Plan

/-! ## Siblings -/

/-- Joins in strict byte order of their keys. -/
def KeyOrdered (entries : List (Nat × Join)) : Prop := entries.Pairwise fun e f => e.2.key < f.2.key

theorem KeyOrdered.insertByKey {e : Nat × Join} {entries : List (Nat × Join)} (h : KeyOrdered entries)
    (hne : ∀ f ∈ entries, e.2.key ≠ f.2.key) : KeyOrdered (insertByKey e entries) := by
  induction entries with
  | nil => exact List.pairwise_singleton _ _
  | cons f rest ih =>
    obtain ⟨hlt, hrest⟩ := List.pairwise_cons.mp h
    obtain ⟨hef, hne⟩ := List.forall_mem_cons.mp hne
    unfold Plan.insertByKey
    by_cases he : e.2.key < f.2.key
    · rw [if_pos he]
      refine List.pairwise_cons.mpr ⟨fun x hx => ?_, h⟩
      rcases List.mem_cons.mp hx with rfl | hx
      · exact he
      · exact he.trans (hlt x hx)
    · rw [if_neg he]
      have hfe : f.2.key < e.2.key := lt_of_le_of_ne (le_of_not_gt he) (Ne.symm hef)
      refine List.pairwise_cons.mpr ⟨fun x hx => ?_, ih hrest hne⟩
      rcases List.mem_cons.mp ((insertByKey_perm e rest).mem_iff.mp hx) with rfl | hx
      · exact hfe
      · exact hlt x hx

theorem foldr_insertByKey_ordered {entries : List (Nat × Join)} (h : (entries.map (·.2.key)).Nodup) :
    KeyOrdered (entries.foldr insertByKey []) := by
  induction entries with
  | nil => exact List.Pairwise.nil
  | cons e rest ih =>
    obtain ⟨hnew, hrest⟩ := List.nodup_cons.mp h
    refine (ih hrest).insertByKey fun f hf heq => hnew ?_
    have hmem : f ∈ rest := (foldr_insertByKey_perm rest).mem_iff.mp hf
    exact List.mem_map.mpr ⟨f, hmem, heq.symm⟩

/-- The joins of one parent are strictly ordered by their keys. -/
theorem children_ordered {p : Plan} (h : p.keys.Nodup) (parent : Option Nat) : KeyOrdered (p.children parent) := by
  refine foldr_insertByKey_ordered ?_
  have hkeys : (p.joins.zipIdx.map fun e => e.1.key) = p.keys := by
    rw [keys, ← List.zipIdx_map_fst 0 p.joins, List.map_map, List.zipIdx_map_fst]
    rfl
  rw [List.map_map]
  exact (List.filter_sublist.map _).nodup (hkeys ▸ h)

/-! ## Plans with the same joins -/

theorem Names.unique {p : Plan} (h : p.keys.Nodup) {a b : Option Nat} {source : Source} (ha : p.Names a source)
    (hb : p.Names b source) : a = b := by
  cases a with
  | none =>
    cases b with
    | none => rfl
    | some k =>
      obtain ⟨key, -, hk⟩ := hb
      cases (show source = .document from ha).symm.trans hk
  | some i =>
    obtain ⟨key, hi, rfl⟩ := ha
    cases b with
    | none => cases (show Source.element key = .document from hb)
    | some k =>
      obtain ⟨key', hk, e⟩ := hb
      cases e
      obtain ⟨hlt, -⟩ := List.getElem?_eq_some_iff.mp hi
      rw [(List.getElem?_inj hlt h).mp (hi.trans hk.symm)]

variable {p q : Plan} {seen sorted seen' sorted' : List Crossing}

theorem mem_arrayJoins (h : p.Upward) {a : ArrayJoin} : a ∈ arrayJoins p ↔ ∃ j ∈ p.joins, arrayJoin p j = a := by
  rw [arrayJoins, List.mem_map]
  simp only [(ordered_perm h).mem_iff]

theorem arrayJoins_length (h : p.Upward) : (arrayJoins p).length = p.joins.length := by
  rw [arrayJoins, List.length_map, (ordered_perm h).length_eq]

theorem arrayJoins_nodup (h : p.Covers seen sorted) : (arrayJoins p).Nodup :=
  List.Nodup.of_map _ ((arrayJoins_labels h.parent_lt).nodup_iff.mpr h.nodup)

/-- The joins of one parent are those whose arrays are read from what it stands for. -/
theorem mem_children_array (h : p.Covers seen sorted) {parent : Option Nat} {source : Source}
    (hn : p.Names parent source) {a : ArrayJoin} :
    a ∈ (p.children parent).map (fun e => arrayJoin p e.2) ↔ a ∈ arrayJoins p ∧ a.array.source = source := by
  rw [mem_arrayJoins h.parent_lt, List.mem_map]
  constructor
  · intro hmem
    obtain ⟨e, he, ha⟩ := hmem
    obtain ⟨hj, hparent⟩ := mem_children.mp he
    refine ⟨⟨e.2, List.mem_of_getElem? hj, ha⟩, ?_⟩
    rw [← ha, arrayJoin, hparent]
    exact hn.sourceOf
  · intro hmem
    obtain ⟨⟨j, hj, ha⟩, hsource⟩ := hmem
    obtain ⟨i, hi⟩ := List.mem_iff_getElem?.mp hj
    obtain ⟨c, -, -, hnames, -⟩ := h.sound j hj
    -- The join's own parent stands for the same source.
    have hsame : c.array.source = source := by
      rw [← hsource, ← ha, arrayJoin]
      exact hnames.sourceOf.symm
    exact ⟨(i, j), mem_children.mpr ⟨hi, (hsame ▸ hnames).unique h.nodup hn⟩, ha⟩

/-- A listed join's position stands for its element. -/
theorem child_names {parent : Option Nat} {e : Nat × Join} (h : e ∈ p.children parent) :
    p.Names (some e.1) (.element (arrayJoin p e.2).label) := by
  obtain ⟨hj, -⟩ := mem_children.mp h
  refine ⟨e.2.key, by rw [getElem?_keys, hj]; rfl, ?_⟩
  rw [arrayJoin, label_eq hj]

theorem children_labels (h : p.keys.Nodup) (parent : Option Nat) :
    ((p.children parent).map fun e => arrayJoin p e.2).Pairwise fun a b => a.label < b.label := by
  refine List.pairwise_map.mpr ((children_ordered h parent).imp_of_mem fun {e f} he hf hlt => ?_)
  rw [arrayJoin, arrayJoin, label_eq (mem_children.mp he).1, label_eq (mem_children.mp hf).1]
  exact hlt

theorem children_eq (hp : p.Covers seen sorted) (hq : q.Covers seen' sorted')
    (h : ∀ a, a ∈ arrayJoins p ↔ a ∈ arrayJoins q) {i k : Option Nat} {source : Source} (hi : p.Names i source)
    (hk : q.Names k source) :
    (p.children i).map (fun e => arrayJoin p e.2) = (q.children k).map fun e => arrayJoin q e.2 := by
  have hpOrdered := children_labels hp.nodup i
  have hqOrdered := children_labels hq.nodup k
  have hne : ∀ {a b : ArrayJoin}, a.label < b.label → a ≠ b := fun hlt e => lt_irrefl _ (e ▸ hlt)
  have hperm := (List.perm_ext_iff_of_nodup (hpOrdered.imp hne) (hqOrdered.imp hne)).mpr fun a => by
    rw [mem_children_array hp hi, mem_children_array hq hk, h]
  exact hperm.eq_of_pairwise (fun a b _ _ hab hba => absurd hba (lt_asymm hab)) hpOrdered hqOrdered

theorem flatMap_eq_of_map_eq {α β γ δ : Type} {f : α → γ} {g : β → γ} {f' : α → List δ} {g' : β → List δ}
    {as : List α} {bs : List β} (h : as.map f = bs.map g)
    (hsame : ∀ a ∈ as, ∀ b ∈ bs, f a = g b → f' a = g' b) : as.flatMap f' = bs.flatMap g' := by
  induction as generalizing bs with
  | nil =>
    rw [List.map_nil, eq_comm, List.map_eq_nil_iff] at h
    rw [h]
    rfl
  | cons a as ih =>
    obtain ⟨b, bs, rfl, hab, hrest⟩ := List.map_eq_cons_iff.mp h.symm
    rw [List.flatMap_cons, List.flatMap_cons, hsame a List.mem_cons_self b List.mem_cons_self hab.symm,
      ih hrest.symm fun a ha b hb => hsame a (List.mem_cons_of_mem _ ha) b (List.mem_cons_of_mem _ hb)]

/-- Below equal sources two plans with the same joins list the same ones, level after level. -/
theorem below_eq_of_mem_iff (hp : p.Covers seen sorted) (hq : q.Covers seen' sorted')
    (h : ∀ a, a ∈ arrayJoins p ↔ a ∈ arrayJoins q) (depth : Nat) {i k : Option Nat} {source : Source}
    (hi : p.Names i source) (hk : q.Names k source) :
    (p.below depth i).map (arrayJoin p) = (q.below depth k).map (arrayJoin q) := by
  induction depth generalizing i k source with
  | zero => rfl
  | succ depth ih =>
    simp only [below, List.map_flatMap, List.map_cons]
    refine flatMap_eq_of_map_eq (children_eq hp hq h hi hk) fun e he f hf heq => ?_
    rw [heq, ih (child_names he) (heq ▸ child_names hf)]

/-- Two plans with the same joins emit them in the same order, whatever was added first. -/
theorem arrayJoins_eq (hp : p.Covers seen sorted) (hq : q.Covers seen' sorted')
    (h : ∀ a, a ∈ arrayJoins p ↔ a ∈ arrayJoins q) : arrayJoins p = arrayJoins q := by
  -- Both go down as many levels as they have joins.
  have hdepth : p.joins.length = q.joins.length := by
    rw [← arrayJoins_length hp.parent_lt, ← arrayJoins_length hq.parent_lt]
    exact ((List.perm_ext_iff_of_nodup (arrayJoins_nodup hp) (arrayJoins_nodup hq)).mpr h).length_eq
  unfold arrayJoins ordered
  rw [hdepth]
  exact below_eq_of_mem_iff hp hq h _ (show p.Names none .document from rfl) (show q.Names none .document from rfl)

end Join.Plan

end DocQuery
