/-
  DocQuery.Proofs.Store.Ascending — rows in the order of their identities.

  Identities are in the order of the numbers they are. Their texts are in the same order: all have the
  digits one after another and the hyphens in the same places (`Guid.text_lt_iff`). So rows that
  are sorted by identity stand in ascending order of it (`sorted_ascending`).
-/

import DocQuery.Proofs.Store.Selection

namespace DocQuery

namespace Guid

instance : LT Guid := ⟨fun g h => g.digits < h.digits⟩

theorem lt_of_not_gt_of_ne {g h : Guid} (hgt : ¬ h < g) (hne : g ≠ h) : g < h := by
  have hdigits : g.digits ≠ h.digits := by
    intro e
    apply hne
    cases g
    cases h
    congr
  exact lt_of_le_of_ne (not_lt.mp hgt) hdigits

theorem append_lt_append_iff {α : Type} [LinearOrder α] {a b r s : List α} (h : a.length = b.length) :
    a ++ r < b ++ s ↔ a < b ∨ a = b ∧ r < s := by
  induction a generalizing b with
  | nil =>
    obtain rfl := List.length_eq_zero_iff.mp h.symm
    simp
  | cons x xs ih =>
    cases b with
    | nil => simp at h
    | cons y ys =>
      have hrest := ih (b := ys) (by simpa using h)
      simp only [List.cons_append, List.cons_lt_cons_iff, hrest, List.cons.injEq]
      tauto

theorem hexChar_lt : ∀ a b : Fin 16, hexChar a < hexChar b ↔ a < b := by decide

theorem map_hexChar_lt {a b : List (Fin 16)} : a.map hexChar < b.map hexChar ↔ a < b := by
  induction a generalizing b with
  | nil => cases b <;> simp
  | cons x xs ih =>
    cases b with
    | nil => simp
    | cons y ys =>
      have hsame : hexChar x = hexChar y ↔ x = y := ⟨hexChar_injective x y, congrArg hexChar⟩
      simp only [List.map_cons, List.cons_lt_cons_iff, hexChar_lt, hsame, ih]

/-- Texts are in the order of their identities. -/
theorem text_lt_iff {g h : Guid} : g.text < h.text ↔ g < h := by
  obtain ⟨a, ha⟩ := g
  obtain ⟨b, hb⟩ := h
  have la : (a.map hexChar).length = 32 := by simpa using ha
  have lb : (b.map hexChar).length = 32 := by simpa using hb
  show String.ofList _ < String.ofList _ ↔ a < b
  rw [← map_hexChar_lt, String.lt_iff_toList_lt, String.toList_ofList, String.toList_ofList]
  dsimp only
  generalize a.map hexChar = x at la ⊢
  generalize b.map hexChar = y at lb ⊢
  conv_rhs => rw [groups_append x, groups_append y]
  simp (disch := simp [la, lb]) only [List.append_assoc, List.cons_append, append_lt_append_iff,
    List.cons_lt_cons_iff, lt_irrefl, false_or, true_and]

end Guid

namespace Statement

/-- The first identity is not the greater one. -/
def notAfter (a b : Joined) : Bool := decide (a.row.id.text ≤ b.row.id.text)

theorem compareKeys_identified (a b : Joined) :
    (compareKeys [.identity .ascending] [.text a.row.id.text] [.text b.row.id.text] != .gt) = notAfter a b := by
  simp only [compareKeys, Cell.order, compareTexts_eq, directed, Order.direction, notAfter]
  rcases lt_trichotomy a.row.id.text b.row.id.text with hlt | heq | hgt
  · simp [hlt, hlt.le]
  · simp [heq]
  · simp [hgt.not_gt, hgt.ne', hgt.not_ge]

theorem sorted_identity (now : Nat) (rows : List Joined) :
    sorted now [.identity .ascending] rows = .ok (rows.mergeSort notAfter) := by
  have hcells : ∀ x ∈ rows, [Order.identity .ascending].mapM (Order.cell now x) = .ok [.text x.row.id.text] :=
    fun _ _ => rfl
  simpa only [compareKeys_identified] using sorted_eq hcells

/-- Rows sorted by identity stand in its order. -/
theorem sorted_ascending {now : Nat} {rows left : List Joined} (h : sorted now [.identity .ascending] rows = .ok left) :
    left.Pairwise fun a b => ¬ b.row.id < a.row.id := by
  obtain rfl := Except.ok.inj ((sorted_identity now rows).symm.trans h)
  have hpairwise : (rows.mergeSort notAfter).Pairwise fun a b => notAfter a b = true :=
    List.pairwise_mergeSort (fun a b c => by simpa [notAfter] using le_trans)
      (fun a b => by simpa [notAfter] using le_total _ _) rows
  apply hpairwise.imp
  intro a b hab
  rw [← Guid.text_lt_iff, not_lt]
  exact of_decide_eq_true hab

end Statement

end DocQuery
