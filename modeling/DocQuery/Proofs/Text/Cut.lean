/-
  DocQuery.Proofs.Text.Cut — taking texts apart from the front.
-/

import DocQuery.Text.Fold

namespace DocQuery.Text

/-- Neither text starts with the other. -/
def Clash (a b : List Char) : Prop := ¬ a <+: b ∧ ¬ b <+: a

instance (a b : List Char) : Decidable (Clash a b) := inferInstanceAs (Decidable (_ ∧ _))

/-- Texts that clash go on to nothing in common. -/
theorem Clash.append_ne {a b x y : List Char} (h : Clash a b) : a ++ x ≠ b ++ y := by
  intro e
  rcases List.prefix_or_prefix_of_prefix (List.prefix_append a x) (e ▸ List.prefix_append b y) with hp | hp
  · exact h.1 hp
  · exact h.2 hp

/-- Two texts end where a mark comes that stands in neither. -/
theorem cut {c : Char} {a b x y : List Char} (ha : c ∉ a) (hb : c ∉ b) (h : a ++ c :: x = b ++ c :: y) :
    a = b ∧ x = y := by
  induction a generalizing b with
  | nil =>
    cases b with
    | nil => exact ⟨rfl, (List.cons.inj h).2⟩
    | cons d rest => exact absurd ((List.cons.inj h).1 ▸ List.mem_cons_self ..) hb
  | cons d rest ih =>
    cases b with
    | nil => exact absurd ((List.cons.inj h).1 ▸ List.mem_cons_self ..) ha
    | cons e more =>
      obtain ⟨rfl, hrest⟩ := List.cons.inj h
      obtain ⟨rfl, hxy⟩ :=
        ih (fun hm => ha (List.mem_cons_of_mem _ hm)) (fun hm => hb (List.mem_cons_of_mem _ hm)) hrest
      exact ⟨rfl, hxy⟩

/-! ## Runs -/

section
variable {α : Type} {p : α → Bool} {a b : List α}

/-- A run ends before the first that is not of its kind. -/
theorem takeWhile_run (ha : ∀ x ∈ a, p x = true) (hb : ∀ x, b.head? = some x → p x = false) :
    (a ++ b).takeWhile p = a := by
  rw [List.takeWhile_append_of_pos ha]
  cases b with
  | nil => exact List.append_nil a
  | cons x r => rw [List.takeWhile_cons_of_neg (by simp [hb x rfl]), List.append_nil]

theorem dropWhile_run (ha : ∀ x ∈ a, p x = true) (hb : ∀ x, b.head? = some x → p x = false) :
    (a ++ b).dropWhile p = b := by
  rw [List.dropWhile_append_of_pos ha]
  cases b with
  | nil => rfl
  | cons x r => exact List.dropWhile_cons_of_neg (by simp [hb x rfl])

end

/-! ## Marks -/

section
variable {c : Char} {front : List Char}

theorem ne_mark (h : c ∉ front) : ∀ x ∈ front, (x != c) = true :=
  fun _ hx => bne_iff_ne.mpr fun e => h (e ▸ hx)

theorem takeWhile_mark (h : c ∉ front) (back : List Char) : (front ++ c :: back).takeWhile (· != c) = front :=
  takeWhile_run (ne_mark h) fun _ hx => by simp [← Option.some.inj hx]

theorem dropWhile_mark (h : c ∉ front) (back : List Char) : (front ++ c :: back).dropWhile (· != c) = c :: back :=
  dropWhile_run (ne_mark h) fun _ hx => by simp [← Option.some.inj hx]

theorem takeWhile_unmarked (h : c ∉ front) : front.takeWhile (· != c) = front := by
  have hrun := takeWhile_run (ne_mark h) (b := []) nofun
  rwa [List.append_nil] at hrun

theorem dropWhile_unmarked (h : c ∉ front) : front.dropWhile (· != c) = [] := by
  have hrun := dropWhile_run (ne_mark h) (b := []) nofun
  rwa [List.append_nil] at hrun

end

end DocQuery.Text
