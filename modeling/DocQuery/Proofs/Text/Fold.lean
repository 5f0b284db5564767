/-
  DocQuery.Proofs.Text.Fold — letter case and texts.

  Digits have no case, so numbers are written the same in lower case (`lower_repr`).
-/

import DocQuery.Text.Fold

namespace DocQuery.Text

theorem lower_append (a b : String) : lower (a ++ b) = lower a ++ lower b := by
  apply String.toList_inj.mp
  simp [lower]

theorem toLower_digit {c : Char} (h : c.isDigit = true) : c.toLower = c := by
  simp only [Char.isDigit, Bool.and_eq_true, decide_eq_true_eq] at h
  have h57 : c.toNat ≤ 57 := h.2
  refine dif_neg fun hupper => ?_
  have h65 : 65 ≤ c.toNat := hupper.1
  omega

/-- A number is written the same in lower case. -/
theorem lower_repr (n : Nat) : lower n.repr = n.repr := by
  apply String.toList_inj.mp
  rw [lower, String.toList_ofList, Nat.toList_repr]
  have hdigit : ∀ c ∈ Nat.toDigits 10 n, c.toLower = id c := by
    intro c hc
    exact toLower_digit (Nat.isDigit_of_mem_toDigits (by omega) (by omega) hc)
  rw [List.map_congr_left hdigit, List.map_id]

theorem any_sameIgnoringCase {names : List String} {name : String} :
    names.any (sameIgnoringCase name) = true ↔ lower name ∈ names.map lower := by
  simp only [List.any_eq_true, sameIgnoringCase, beq_iff_eq, List.mem_map]
  exact exists_congr fun x => and_congr_right fun _ => eq_comm

/-- A character that has none of the name's letters for its small letter tells a text from the name. -/
theorem not_sameIgnoringCase_of_mem {s name : String} {c : Char} (h : c ∈ s.toList)
    (hc : c.toLower ∉ (lower name).toList) : sameIgnoringCase s name = false := by
  rw [sameIgnoringCase, beq_eq_false_iff_ne]
  intro he
  rw [← he, lower, String.toList_ofList] at hc
  exact hc (List.mem_map_of_mem h)

end DocQuery.Text
