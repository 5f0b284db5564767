/-
  DocQuery.Proofs.Text.Trim — trimming takes away the blanks around a text and nothing else.
-/

import Mathlib.Data.List.TakeWhile
import DocQuery.Proofs.Text.Cut
import DocQuery.Text.Blank

namespace DocQuery.Text

variable {front s back : List Char}

theorem trimChars_between (hfront : ∀ c ∈ front, isBlank c = true) (hback : ∀ c ∈ back, isBlank c = true)
    (hhead : ∀ c, s.head? = some c → isBlank c = false) (hlast : ∀ c, s.getLast? = some c → isBlank c = false) :
    trimChars (front ++ (s ++ back)) = s := by
  have hopen : (front ++ (s ++ back)).dropWhile isBlank = if s = [] then [] else s ++ back := by
    cases s with
    | nil =>
      rw [if_pos rfl, List.dropWhile_eq_nil_iff]
      intro c hc
      exact (List.mem_append.mp hc).elim (hfront c) (hback c)
    | cons c r =>
      rw [if_neg (List.cons_ne_nil c r)]
      exact dropWhile_run hfront hhead
  have hclose : (back.reverse ++ s.reverse).dropWhile isBlank = s.reverse := by
    refine dropWhile_run (fun c hc => hback c (List.mem_reverse.mp hc)) fun c hc => hlast c ?_
    rwa [List.head?_reverse] at hc
  unfold trimChars
  rw [hopen]
  split
  · rename_i hnil
    rw [hnil]
    rfl
  · rw [List.reverse_append, hclose, List.reverse_reverse]

/-- Without blanks there is nothing to trim. -/
theorem trimChars_eq_self (h : ∀ c ∈ s, isBlank c = false) : trimChars s = s := by
  have hnone : ∀ c ∈ ([] : List Char), isBlank c = true := by simp
  have htrim := trimChars_between hnone hnone (s := s) (fun c hc => h c (List.mem_of_mem_head? hc))
    fun c hc => h c (List.mem_of_mem_getLast? hc)
  rwa [List.nil_append, List.append_nil] at htrim

/-- Nothing but blanks is taken away. -/
theorem exists_trimmed (s : List Char) :
    ∃ front back, (∀ c ∈ front, isBlank c = true) ∧ (∀ c ∈ back, isBlank c = true) ∧
      s = front ++ (trimChars s ++ back) := by
  have hsplit : ∀ s : List Char, s = s.takeWhile isBlank ++ s.dropWhile isBlank := fun s =>
    (List.takeWhile_append_dropWhile ..).symm
  let back := ((s.dropWhile isBlank).reverse.takeWhile isBlank).reverse
  have htrimmed : s.dropWhile isBlank = trimChars s ++ back := by
    rw [← List.reverse_reverse (s.dropWhile isBlank), hsplit (s.dropWhile isBlank).reverse, List.reverse_append]
    rfl
  refine ⟨s.takeWhile isBlank, back, fun _ hc => List.mem_takeWhile_imp hc,
    fun _ hc => List.mem_takeWhile_imp (List.mem_reverse.mp hc), ?_⟩
  rw [← htrimmed]
  exact hsplit s

end DocQuery.Text
