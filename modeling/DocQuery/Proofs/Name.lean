/-
  DocQuery.Proofs.Name — identifiers, character by character.

  The characters of an identifier are ASCII letters, digits and underscores (`isPart_bounds`), and so
  no blanks. A name that passes its check is an identifier (`identifier_of_check`).
-/

import Mathlib.Data.List.Basic
import DocQuery.Name
import DocQuery.Text.Blank

namespace DocQuery

namespace Name

def Identifier (name : String) : Prop := isIdentifier name.toList = true

theorem Identifier.ne_nil {name : String} (h : Identifier name) : name.toList ≠ [] := by
  intro e; simp [Identifier, e, isIdentifier] at h

theorem isPart_of_isStart {c : Char} (h : isStart c = true) : isPart c = true := by
  simp only [isStart, isPart, Bool.or_eq_true, beq_iff_eq, Char.isAlphanum] at h ⊢
  rcases h with h | h
  · exact Or.inl (Or.inl h)
  · exact Or.inr h

theorem isPart_of_isDigit {c : Char} (h : c.isDigit = true) : isPart c = true := by
  simp only [isPart, Char.isAlphanum, h, Bool.or_true, Bool.true_or]

theorem isPart_bounds {c : Char} (h : isPart c = true) :
    (48 ≤ c.toNat ∧ c.toNat ≤ 57) ∨ (65 ≤ c.toNat ∧ c.toNat ≤ 90) ∨ (97 ≤ c.toNat ∧ c.toNat ≤ 122) ∨ c = '_' := by
  unfold isPart Char.isAlphanum Char.isAlpha Char.isUpper Char.isLower Char.isDigit at h
  simp only [Bool.or_eq_true, Bool.and_eq_true, decide_eq_true_eq, beq_iff_eq] at h
  rcases h with ((h | h) | h) | h
  · exact .inr (.inl ⟨h.1, h.2⟩)
  · exact .inr (.inr (.inl ⟨h.1, h.2⟩))
  · exact .inl ⟨h.1, h.2⟩
  · exact .inr (.inr (.inr h))

theorem isPart_lt {c : Char} (h : isPart c = true) : c.toNat < 128 := by
  rcases isPart_bounds h with hb | hb | hb | rfl
  · omega
  · omega
  · omega
  · decide

/-- Every character of an identifier comes after the dot. -/
theorem dot_lt_of_isPart {c : Char} (h : isPart c = true) : '.' < c := by
  have hdot : 46 < c.toNat := by
    rcases isPart_bounds h with hb | hb | hb | rfl
    · omega
    · omega
    · omega
    · decide
  exact hdot

theorem not_blank_of_isPart {c : Char} (h : isPart c = true) : Text.isBlank c = false := by
  by_contra hc
  simp only [Text.isBlank, Bool.not_eq_false, Bool.or_eq_true, Bool.and_eq_true, decide_eq_true_eq, beq_iff_eq] at hc
  rcases isPart_bounds h with hb | hb | hb | rfl
  · omega
  · omega
  · omega
  · revert hc; decide

theorem not_blank_of_isDigit {c : Char} (h : c.isDigit = true) : Text.isBlank c = false :=
  not_blank_of_isPart (isPart_of_isDigit h)

theorem Identifier.isPart {name : String} (h : Identifier name) {c : Char} (hc : c ∈ name.toList) :
    isPart c = true := by
  unfold Identifier at h
  cases hn : name.toList with
  | nil => rw [hn] at hc; cases hc
  | cons x rest =>
    rw [hn] at h hc
    simp only [isIdentifier, Bool.and_eq_true, List.all_eq_true] at h
    rcases List.mem_cons.mp hc with rfl | hc
    · exact isPart_of_isStart h.1
    · exact h.2 c hc

/-- A character that is no part of identifiers stands in none. -/
theorem Identifier.not_mem {name : String} (h : Identifier name) {c : Char} (hc : Name.isPart c = false) :
    c ∉ name.toList := fun hm => by rw [h.isPart hm] at hc; cases hc

theorem identifier_of_fault? {name : String} (h : fault? name = none) : Identifier name := by
  unfold fault? at h
  by_cases he : name.isEmpty = true
  · simp [he] at h
  by_cases hi : isIdentifier name.toList = true
  · exact hi
  · simp [he, hi] at h

theorem identifier_of_check {name : String} (h : checkFieldName name = .ok ()) : Identifier name := by
  unfold checkFieldName at h
  cases hf : fault? name with
  | none => exact identifier_of_fault? hf
  | some fault => rw [hf] at h; cases h

end Name

end DocQuery
