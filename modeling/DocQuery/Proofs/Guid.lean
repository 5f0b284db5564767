/-
  DocQuery.Proofs.Guid — the text that is written for a guid.

  It has the digits in groups, with hyphens between them, and is read as the guid (`read?_text`). So no two guids
  are written alike (`text_injective`).
-/

import Mathlib.Data.List.Basic
import DocQuery.Guid

namespace DocQuery.Guid

/-! ## Digits -/

theorem hexDigit?_hexChar : ∀ d : Fin 16, hexDigit? (hexChar d) = some d := by decide

theorem hexChar_injective : ∀ a b : Fin 16, hexChar a = hexChar b → a = b := by decide

theorem hexChar_ne_bracket : ∀ d : Fin 16, hexChar d ≠ '[' ∧ hexChar d ≠ '\x7b' := by decide

theorem hexDigits?_map (ds : List (Fin 16)) : hexDigits? (ds.map hexChar) = some ds := by
  induction ds with
  | nil => rfl
  | cons d ds ih => simp [hexDigits?, hexDigit?_hexChar, ih]

theorem hexDigits?_hyphen {a b : List Char} : hexDigits? (a ++ '-' :: b) = none := by
  induction a with
  | nil => rfl
  | cons c a ih =>
    simp only [List.cons_append, hexDigits?, ih]
    cases hexDigit? c <;> rfl

/-! ## Groups -/

/-- The groups that hyphens are put between make up all digits. -/
theorem groups_append (x : List Char) :
    x = x.take 8 ++ ((x.drop 8).take 4 ++ ((x.drop 12).take 4 ++ ((x.drop 16).take 4 ++ x.drop 20))) := by
  have h16 : (x.drop 16).take 4 ++ x.drop 20 = x.drop 16 := by
    simpa using List.take_append_drop 4 (x.drop 16)
  have h12 : (x.drop 12).take 4 ++ x.drop 16 = x.drop 12 := by
    simpa using List.take_append_drop 4 (x.drop 12)
  have h8 : (x.drop 8).take 4 ++ x.drop 12 = x.drop 8 := by
    simpa using List.take_append_drop 4 (x.drop 8)
  rw [h16, h12, h8, List.take_append_drop]

theorem ungroup?_groups {a b c d e : List Char} (ha : a.length = 8) (hb : b.length = 4) (hc : c.length = 4)
    (hd : d.length = 4) (he : e.length = 12) :
    ungroup? (a ++ '-' :: b ++ '-' :: c ++ '-' :: d ++ '-' :: e) = some (a ++ b ++ c ++ d ++ e) := by
  simp [ungroup?, ha, hb, hc, hd, he, List.drop_append, List.drop_eq_nil_of_le]

/-- What is written for a guid is read as it. -/
theorem read?_text (g : Guid) : read? g.text = some g := by
  have hlength : (g.digits.map hexChar).length = 32 := by rw [List.length_map, g.length_digits]
  have hungroup : ungroup? g.text.toList = some (g.digits.map hexChar) := by
    unfold text
    rw [String.toList_ofList, ungroup?_groups (by simp [hlength]) (by simp [hlength]) (by simp [hlength])
      (by simp [hlength]) (by simp [hlength])]
    simp only [List.append_assoc]
    exact congrArg some (groups_append _).symm
  have hplain : plain? g.text.toList = none := by
    unfold text plain?
    rw [String.toList_ofList, hexDigits?_hyphen]
    rfl
  have hgrouped : grouped? g.text.toList = some g := by
    unfold grouped? plain? ofDigits?
    rw [hungroup]
    simp [hexDigits?_map, g.length_digits]
  simp [read?, hplain, hgrouped]

theorem text_injective {g h : Guid} (e : g.text = h.text) : g = h := by
  have hread := g.read?_text
  rw [e, h.read?_text] at hread
  exact (Option.some.inj hread).symm

/-! ## Characters -/

/-- A written guid begins with one of its digits. -/
theorem text_head (g : Guid) : ∃ d, g.text.toList.head? = some (hexChar d) := by
  cases hd : g.digits with
  | nil =>
    have hlength := g.length_digits
    rw [hd] at hlength
    cases hlength
  | cons d ds => exact ⟨d, by simp [text, hd]⟩

/-- The fifth character belongs to the first group. -/
theorem text_fifth (g : Guid) : ∃ d, g.text.toList[4]? = some (hexChar d) := by
  have hlength : 4 < g.digits.length := by rw [g.length_digits]; decide
  refine ⟨g.digits[4], ?_⟩
  simp [text, g.length_digits]

theorem mem_text {g : Guid} {c : Char} (h : c ∈ g.text.toList) : c = '-' ∨ ∃ d, c = hexChar d := by
  have hdigit : c ∈ g.digits.map hexChar → ∃ d, c = hexChar d := by
    intro hc
    obtain ⟨d, -, rfl⟩ := List.mem_map.mp hc
    exact ⟨d, rfl⟩
  simp only [text, String.toList_ofList, List.mem_append, List.mem_cons] at h
  rcases h with (((h | h | h) | h | h) | h | h) | h | h
  · exact .inr (hdigit (List.mem_of_mem_take h))
  · exact .inl h
  · exact .inr (hdigit (List.mem_of_mem_drop (List.mem_of_mem_take h)))
  · exact .inl h
  · exact .inr (hdigit (List.mem_of_mem_drop (List.mem_of_mem_take h)))
  · exact .inl h
  · exact .inr (hdigit (List.mem_of_mem_drop (List.mem_of_mem_take h)))
  · exact .inl h
  · exact .inr (hdigit (List.mem_of_mem_drop h))

theorem count_hyphen (g : Guid) : 2 ≤ g.text.toList.count '-' := by
  simp only [text, String.toList_ofList, List.count_append, List.count_cons_self]
  omega

end DocQuery.Guid
