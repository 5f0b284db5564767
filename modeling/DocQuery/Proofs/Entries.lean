/-
  DocQuery.Proofs.Entries — values under keys, in byte order of the keys.

  Putting a value in its place keeps the order (`Ordered.insertSorted`), takes the place of the value its key
  had (`mem_insertSorted_iff`), and when the key is new only adds it (`insertSorted_perm`). So entries are sorted
  to the last one of each key (`mem_sortEntries_iff`), and those of distinct keys to the same entries in order
  (`sortEntries_ordered`, `sortEntries_perm`), whatever is done to their values (`sortEntries_map`); entries in
  order stay as they are (`sortEntries_of_ordered`).
-/

import Mathlib.Data.List.Induction
import Mathlib.Data.List.Nodup
import Mathlib.Data.String.Basic
import DocQuery.Entries

namespace DocQuery

variable {α β : Type}

/-- Keys in strict byte order. -/
def Ordered (entries : List (String × α)) : Prop := entries.Pairwise fun e f => e.1 < f.1

/-- Of the others stay those with other keys. -/
theorem mem_insertSorted_iff {key : String} {v : α} {entries : List (String × α)} (h : Ordered entries)
    {e : String × α} : e ∈ insertSorted key v entries ↔ e = (key, v) ∨ e ∈ entries ∧ e.1 ≠ key := by
  induction entries with
  | nil => simp [insertSorted]
  | cons first rest ih =>
    obtain ⟨k, w⟩ := first
    obtain ⟨hlt, hrest⟩ := List.pairwise_cons.mp h
    unfold insertSorted
    rcases lt_trichotomy key k with hk | rfl | hk
    · -- All keys come after the new one.
      have hne : e ∈ (k, w) :: rest → e.1 ≠ key := by
        intro he
        rcases List.mem_cons.mp he with rfl | he
        · exact hk.ne'
        · exact (hk.trans (hlt e he)).ne'
      rw [if_pos hk, List.mem_cons]
      exact or_congr_right (iff_self_and.mpr hne)
    · rw [if_neg (lt_irrefl key), if_neg (lt_irrefl key), List.mem_cons, List.mem_cons]
      refine or_congr_right ⟨fun he => ⟨.inr he, (hlt e he).ne'⟩, ?_⟩
      rintro ⟨rfl | he, hne⟩
      · exact absurd rfl hne
      · exact he
    · rw [if_neg (lt_asymm hk), if_pos hk, List.mem_cons, List.mem_cons, ih hrest]
      constructor
      · rintro (rfl | rfl | ⟨he, hne⟩)
        · exact .inr ⟨.inl rfl, hk.ne⟩
        · exact .inl rfl
        · exact .inr ⟨.inr he, hne⟩
      · rintro (rfl | ⟨rfl | he, hne⟩)
        · exact .inr (.inl rfl)
        · exact .inl rfl
        · exact .inr (.inr ⟨he, hne⟩)

theorem Ordered.insertSorted {entries : List (String × α)} (h : Ordered entries) (key : String) (v : α) :
    Ordered (insertSorted key v entries) := by
  induction entries with
  | nil => exact List.pairwise_singleton _ _
  | cons first rest ih =>
    obtain ⟨k, w⟩ := first
    obtain ⟨hlt, hrest⟩ := List.pairwise_cons.mp h
    unfold DocQuery.insertSorted
    split
    · rename_i hk
      refine List.pairwise_cons.mpr ⟨fun e he => ?_, h⟩
      rcases List.mem_cons.mp he with rfl | he
      · exact hk
      · exact hk.trans (hlt e he)
    · rename_i hk
      split
      · rename_i hk'
        refine List.pairwise_cons.mpr ⟨fun e he => ?_, ih hrest⟩
        rcases (mem_insertSorted_iff hrest).mp he with rfl | ⟨he, -⟩
        · exact hk'
        · exact hlt e he
      · rename_i hk'
        have hsame : key = k := le_antisymm (le_of_not_gt hk') (le_of_not_gt hk)
        subst hsame
        exact List.pairwise_cons.mpr ⟨hlt, hrest⟩

theorem insertSorted_perm {key : String} {entries : List (String × α)} (h : key ∉ entries.map (·.1)) (v : α) :
    (insertSorted key v entries).Perm ((key, v) :: entries) := by
  induction entries with
  | nil => exact .refl _
  | cons first rest ih =>
    obtain ⟨k, w⟩ := first
    obtain ⟨hne, hrest⟩ : key ≠ k ∧ key ∉ rest.map (·.1) := by simpa using h
    unfold insertSorted
    rcases lt_trichotomy key k with hlt | heq | hgt
    · rw [if_pos hlt]
    · exact absurd heq hne
    · rw [if_neg (lt_asymm hgt), if_pos hgt]
      exact ((ih hrest).cons (k, w)).trans (.swap _ _ _)

theorem insertSorted_map (g : α → β) (key : String) (v : α) (entries : List (String × α)) :
    insertSorted key (g v) (entries.map fun e => (e.1, g e.2)) =
      (insertSorted key v entries).map fun e => (e.1, g e.2) := by
  induction entries with
  | nil => rfl
  | cons first rest ih =>
    rw [List.map_cons]
    unfold insertSorted
    split
    · rfl
    · split
      · rw [ih, List.map_cons]
      · rfl

/-! ## Sorting -/

theorem sortEntries_ordered (entries : List (String × α)) : Ordered (sortEntries entries) := by
  suffices h : ∀ acc, Ordered acc → Ordered (entries.foldl (fun acc e => insertSorted e.1 e.2 acc) acc) from
    h [] List.Pairwise.nil
  induction entries with
  | nil => exact fun acc h => h
  | cons e rest ih => exact fun acc h => ih _ (h.insertSorted e.1 e.2)

/-- The entry is the last one with its key. -/
def Last (entries : List (String × α)) (e : String × α) : Prop :=
  ∃ before after, entries = before ++ e :: after ∧ e.1 ∉ after.map (·.1)

theorem not_last_nil (e : String × α) : ¬ Last [] e := by
  rintro ⟨before, after, h, -⟩
  simp at h

theorem last_concat_iff {entries : List (String × α)} {last e : String × α} :
    Last (entries ++ [last]) e ↔ e = last ∨ Last entries e ∧ e.1 ≠ last.1 := by
  constructor
  · rintro ⟨before, after, h, hafter⟩
    rcases after.eq_nil_or_concat' with rfl | ⟨after, x, rfl⟩
    · exact .inl (List.singleton_injective (List.append_inj' h rfl).2).symm
    · have hsplit : entries ++ [last] = (before ++ e :: after) ++ [x] := by simpa using h
      obtain ⟨rfl, hx⟩ := List.append_inj' hsplit rfl
      obtain rfl := List.singleton_injective hx
      rw [List.map_append, List.mem_append, not_or] at hafter
      exact .inr ⟨⟨before, after, rfl, hafter.1⟩, by simpa using hafter.2⟩
  · rintro (rfl | ⟨⟨before, after, rfl, hafter⟩, hne⟩)
    · exact ⟨entries, [], rfl, by simp⟩
    · refine ⟨before, after ++ [last], by simp, ?_⟩
      rw [List.map_append, List.mem_append, not_or]
      exact ⟨hafter, by simpa using hne⟩

/-- What is left of the entries is the last one of each key. -/
theorem mem_sortEntries_iff {entries : List (String × α)} {e : String × α} :
    e ∈ sortEntries entries ↔ Last entries e := by
  induction entries using List.reverseRecOn with
  | nil => simp [sortEntries, not_last_nil]
  | append_singleton entries last ih =>
    have hstep : sortEntries (entries ++ [last]) = insertSorted last.1 last.2 (sortEntries entries) := by
      simp [sortEntries]
    rw [hstep, mem_insertSorted_iff (sortEntries_ordered entries), ih, last_concat_iff]

theorem mem_sortEntries {entries : List (String × α)} {e : String × α} (h : e ∈ sortEntries entries) : e ∈ entries := by
  obtain ⟨before, after, rfl, -⟩ := mem_sortEntries_iff.mp h
  simp

/-- Every key has a last entry. -/
theorem exists_last {entries : List (String × α)} {key : String} (h : key ∈ entries.map (·.1)) :
    ∃ e, Last entries e ∧ e.1 = key := by
  induction entries using List.reverseRecOn with
  | nil => simp at h
  | append_singleton entries last ih =>
    by_cases hkey : last.1 = key
    · exact ⟨last, last_concat_iff.mpr (.inl rfl), hkey⟩
    · rw [List.map_append, List.mem_append] at h
      obtain ⟨e, he, rfl⟩ := ih (h.resolve_right (by simpa using Ne.symm hkey))
      exact ⟨e, last_concat_iff.mpr (.inr ⟨he, Ne.symm hkey⟩), rfl⟩

theorem key_mem_sortEntries {entries : List (String × α)} {key : String} :
    key ∈ (sortEntries entries).map (·.1) ↔ key ∈ entries.map (·.1) := by
  constructor
  · intro h
    obtain ⟨e, he, rfl⟩ := List.mem_map.mp h
    exact List.mem_map_of_mem (mem_sortEntries he)
  · intro h
    obtain ⟨e, he, rfl⟩ := exists_last h
    exact List.mem_map_of_mem (mem_sortEntries_iff.mpr he)

theorem sortEntries_perm {entries : List (String × α)} (h : (entries.map (·.1)).Nodup) :
    (sortEntries entries).Perm entries := by
  suffices hs : ∀ acc, ((acc ++ entries).map (·.1)).Nodup →
      (entries.foldl (fun acc e => insertSorted e.1 e.2 acc) acc).Perm (acc ++ entries) from hs [] h
  clear h
  induction entries with
  | nil => intro acc _; rw [List.append_nil]; exact .refl _
  | cons e rest ih =>
    intro acc h
    have hfresh : e.1 ∉ acc.map (·.1) := by
      rw [List.map_append, List.map_cons] at h
      exact fun hm => (List.disjoint_of_nodup_append h hm) List.mem_cons_self
    have hstep : (insertSorted e.1 e.2 acc ++ rest).Perm (acc ++ e :: rest) :=
      ((insertSorted_perm hfresh e.2).append_right rest).trans List.perm_middle.symm
    exact (ih _ ((hstep.map _).nodup_iff.mpr h)).trans hstep

/-- Entries in order are sorted already. -/
theorem sortEntries_of_ordered {entries : List (String × α)} (h : Ordered entries) :
    sortEntries entries = entries := by
  have hkeys : (entries.map (·.1)).Nodup := by
    rw [List.Nodup, List.pairwise_map]
    exact h.imp fun hlt => hlt.ne
  have hasymm : ∀ e f, e ∈ sortEntries entries → f ∈ entries → e.1 < f.1 → f.1 < e.1 → e = f := by
    intro e f _ _ hef hfe
    exact absurd hfe (lt_asymm hef)
  exact (sortEntries_perm hkeys).eq_of_pairwise hasymm (sortEntries_ordered entries) h

theorem sortEntries_map (g : α → β) (entries : List (String × α)) :
    sortEntries (entries.map fun e => (e.1, g e.2)) = (sortEntries entries).map fun e => (e.1, g e.2) := by
  suffices h : ∀ acc : List (String × α),
      (entries.map fun e => (e.1, g e.2)).foldl (fun acc e => insertSorted e.1 e.2 acc) (acc.map fun e => (e.1, g e.2)) =
        (entries.foldl (fun acc e => insertSorted e.1 e.2 acc) acc).map fun e => (e.1, g e.2) from h []
  induction entries with
  | nil => exact fun acc => rfl
  | cons e rest ih =>
    intro acc
    have hfirst := insertSorted_map g e.1 e.2 acc
    simp only [List.map_cons, List.foldl_cons, hfirst, ih]

end DocQuery
