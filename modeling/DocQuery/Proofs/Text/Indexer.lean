/-
  DocQuery.Proofs.Text.Indexer — an index in brackets.

  Between the brackets stand digits, of whatever kind a place takes, with blanks before and after them. Digits are
  neither blanks nor brackets, so an indexer ends where the next closing bracket does (`close_not_mem_inner`),
  and its text says where each of its parts begins (`eq_of_inner_eq`).
-/

import Mathlib.Data.List.TakeWhile
import DocQuery.Proofs.Text.Cut
import DocQuery.Text.Blank

namespace DocQuery.Text

@[ext] structure Indexer (digit : Char → Bool) where
  front : List Char
  digits : List Char
  back : List Char
  front_blank : ∀ c ∈ front, isBlank c = true
  digits_ne_nil : digits ≠ []
  digits_digit : ∀ c ∈ digits, digit c = true
  back_blank : ∀ c ∈ back, isBlank c = true

namespace Indexer

variable {digit : Char → Bool}

/-- What stands between the brackets. -/
def inner (i : Indexer digit) : List Char := i.front ++ (i.digits ++ i.back)

def chars (i : Indexer digit) : List Char := '[' :: (i.inner ++ [']'])

theorem not_mem_inner (i : Indexer digit) {c : Char} (hdigit : digit c = false) (hblank : isBlank c = false) :
    c ∉ i.inner := by
  simp only [inner, List.mem_append, not_or]
  refine ⟨fun hm => ?_, fun hm => ?_, fun hm => ?_⟩
  · rw [i.front_blank _ hm] at hblank
    cases hblank
  · rw [i.digits_digit _ hm] at hdigit
    cases hdigit
  · rw [i.back_blank _ hm] at hblank
    cases hblank

theorem close_not_mem_inner (h : digit ']' = false) (i : Indexer digit) : ']' ∉ i.inner :=
  i.not_mem_inner h (by decide)

section
variable (h : ∀ c, digit c = true → isBlank c = false) (i : Indexer digit)
include h

theorem digits_head (s : List Char) : ∀ c, (i.digits ++ s).head? = some c → isBlank c = false := by
  obtain ⟨d, more, hdigits⟩ := List.exists_cons_of_ne_nil i.digits_ne_nil
  intro c hc
  rw [hdigits] at hc
  cases hc
  exact h d (i.digits_digit d (by rw [hdigits]; exact List.mem_cons_self))

theorem back_head : ∀ c, i.back.head? = some c → digit c = false := by
  intro c hc
  by_contra hd
  have hblank := h c (eq_true_of_ne_false hd)
  rw [i.back_blank c (List.mem_of_mem_head? hc)] at hblank
  cases hblank

/-- Each part is the run of its kind. -/
theorem eq_of_inner_eq {j : Indexer digit} (hij : i.inner = j.inner) : i = j := by
  have hparts : ∀ k : Indexer digit, k.inner.takeWhile isBlank = k.front ∧ k.inner.dropWhile isBlank = k.digits ++ k.back :=
    fun k => ⟨takeWhile_run k.front_blank (k.digits_head h _), dropWhile_run k.front_blank (k.digits_head h _)⟩
  have hrest : ∀ k : Indexer digit,
      (k.digits ++ k.back).takeWhile digit = k.digits ∧ (k.digits ++ k.back).dropWhile digit = k.back :=
    fun k => ⟨takeWhile_run k.digits_digit (k.back_head h), dropWhile_run k.digits_digit (k.back_head h)⟩
  have htail : i.digits ++ i.back = j.digits ++ j.back := by rw [← (hparts i).2, ← (hparts j).2, hij]
  apply Indexer.ext
  · rw [← (hparts i).1, ← (hparts j).1, hij]
  · rw [← (hrest i).1, ← (hrest j).1, htail]
  · rw [← (hrest i).2, ← (hrest j).2, htail]

end

end Indexer

end DocQuery.Text
