/-
  DocQuery.Proofs.Outcome — steps that may fail.

  A chain of steps succeeds when each of them does (`bind_eq_ok`, `map_eq_ok`) and fails as the first that
  does not (`bind_eq_error`), and a list is gone through exactly when no element of it fails (`mapM_eq_ok`,
  `forM_eq_ok`, `filterM_eq_ok`). Two chains whose steps are related, failures included, have related outcomes
  (`Rel.bind`, `Rel.mapM`, `Rel.filterM`).
-/

import Mathlib.Data.List.Perm.Basic

namespace DocQuery.Except

variable {ε α β : Type}

theorem bind_eq_ok {x : Except ε α} {f : α → Except ε β} {b : β} :
    x.bind f = .ok b ↔ ∃ a, x = .ok a ∧ f a = .ok b := by
  cases x <;> simp [Except.bind]

theorem bind_eq_error {x : Except ε α} {f : α → Except ε β} {e : ε} :
    x.bind f = .error e ↔ x = .error e ∨ ∃ a, x = .ok a ∧ f a = .error e := by
  cases x <;> simp [Except.bind]

theorem map_eq_ok {x : Except ε α} {f : α → β} {b : β} : x.map f = .ok b ↔ ∃ a, x = .ok a ∧ f a = b := by
  cases x <;> simp [Except.map]

theorem map_eq_error {x : Except ε α} {f : α → β} {e : ε} : x.map f = .error e ↔ x = .error e := by
  cases x <;> simp [Except.map]

@[simp] theorem mapError_ok {ε' : Type} {f : ε → ε'} (a : α) : (Except.ok a).mapError f = .ok a := rfl

theorem mapError_eq_ok {ε' : Type} {f : ε → ε'} {x : Except ε α} {a : α} : x.mapError f = .ok a ↔ x = .ok a := by
  cases x <;> simp [Except.mapError]

theorem ok_getD {x : Except ε α} {a : α} (h : x = .ok a) (d : α) : x = .ok (x.toOption.getD d) := by rw [h]; rfl

theorem mapM_ok {f : α → Except ε β} {g : α → β} {l : List α} (h : ∀ a ∈ l, f a = .ok (g a)) :
    l.mapM f = .ok (l.map g) := by
  induction l with
  | nil => rfl
  | cons a rest ih =>
    rw [List.mapM_cons, h a (List.mem_cons_self ..), ih fun b hb => h b (List.mem_cons_of_mem _ hb)]
    rfl

/-- A list that is gone through has no element that fails. -/
theorem mapM_eq_ok {f : α → Except ε β} {l : List α} {out : List β} (d : β) :
    l.mapM f = .ok out ↔ (∀ a ∈ l, ∃ b, f a = .ok b) ∧ out = l.map fun a => (f a).toOption.getD d := by
  have hall : l.mapM f = .ok out → ∀ a ∈ l, ∃ b, f a = .ok b := by
    induction l generalizing out with
    | nil => intro _ a ha; cases ha
    | cons a rest ih =>
      intro h
      rw [List.mapM_cons] at h
      obtain ⟨b, hb, h⟩ := bind_eq_ok.mp h
      obtain ⟨more, hmore, -⟩ := bind_eq_ok.mp h
      exact List.forall_mem_cons.mpr ⟨⟨b, hb⟩, ih hmore⟩
  have hvalues : (∀ a ∈ l, ∃ b, f a = .ok b) → l.mapM f = .ok (l.map fun a => (f a).toOption.getD d) := by
    intro h
    apply mapM_ok
    intro a ha
    obtain ⟨b, hb⟩ := h a ha
    exact ok_getD hb d
  constructor
  · intro h
    exact ⟨hall h, Except.ok.inj (h.symm.trans (hvalues (hall h)))⟩
  · rintro ⟨h, rfl⟩
    exact hvalues h

/-- What a list is gone through to, element by element. -/
theorem mapM_forall₂ {f : α → Except ε β} {l : List α} {out : List β} :
    l.mapM f = .ok out ↔ List.Forall₂ (fun a b => f a = .ok b) l out := by
  induction l generalizing out with
  | nil =>
    rw [List.mapM_nil, List.forall₂_nil_left_iff]
    exact ⟨fun h => (Except.ok.inj h).symm, fun h => h ▸ rfl⟩
  | cons a rest ih =>
    rw [List.mapM_cons, List.forall₂_cons_left_iff]
    constructor
    · intro h
      obtain ⟨b, hb, h⟩ := bind_eq_ok.mp h
      obtain ⟨more, hmore, h⟩ := bind_eq_ok.mp h
      exact ⟨b, more, hb, ih.mp hmore, (Except.ok.inj h).symm⟩
    · rintro ⟨b, more, hb, hmore, rfl⟩
      rw [hb, ih.mpr hmore]
      rfl

/-- What comes of a list comes of its elements. -/
theorem mem_mapM {f : α → Except ε β} {l : List α} {out : List β} (h : l.mapM f = .ok out) {b : β} :
    b ∈ out ↔ ∃ a ∈ l, f a = .ok b := by
  induction mapM_forall₂.mp h with
  | nil => simp
  | @cons a b' rest more ha _ ih =>
    have hrest := ih (mapM_forall₂.mpr ‹_›)
    rw [List.mem_cons, List.exists_mem_cons_iff, hrest, ha, Except.ok.injEq, eq_comm]

/-- A list that is not gone through fails as one of its elements does. -/
theorem mapM_error {f : α → Except ε β} {l : List α} {e : ε} (h : l.mapM f = .error e) : ∃ a ∈ l, f a = .error e := by
  induction l with
  | nil => cases h
  | cons a rest ih =>
    rw [List.mapM_cons] at h
    rcases bind_eq_error.mp h with ha | ⟨b, -, h⟩
    · exact ⟨a, List.mem_cons_self, ha⟩
    · rcases bind_eq_error.mp h with hrest | ⟨more, -, h⟩
      · obtain ⟨a', ha', he⟩ := ih hrest
        exact ⟨a', List.mem_cons_of_mem a ha', he⟩
      · cases h

theorem mapM_congr {f g : α → Except ε β} {l : List α} (h : ∀ a ∈ l, f a = g a) : l.mapM f = l.mapM g := by
  induction l with
  | nil => rfl
  | cons a rest ih =>
    obtain ⟨ha, hrest⟩ := List.forall_mem_cons.mp h
    rw [List.mapM_cons, List.mapM_cons, ha, ih hrest]

theorem mapM_length {f : α → Except ε β} {l : List α} {out : List β} (h : l.mapM f = .ok out) :
    out.length = l.length := by
  induction l generalizing out with
  | nil => cases h; rfl
  | cons a rest ih =>
    rw [List.mapM_cons] at h
    obtain ⟨b, -, h⟩ := bind_eq_ok.mp h
    obtain ⟨more, hmore, h⟩ := bind_eq_ok.mp h
    cases h
    exact congrArg (· + 1) (ih hmore)

/-- What the results and the elements have in common is the same list. -/
theorem mapM_map {γ : Type} {f : α → Except ε β} {key : β → γ} {key' : α → γ} (hf : ∀ a b, f a = .ok b → key b = key' a)
    {l : List α} {out : List β} (h : l.mapM f = .ok out) : out.map key = l.map key' := by
  induction mapM_forall₂.mp h with
  | nil => rfl
  | @cons a b rest more ha _ ih => rw [List.map_cons, List.map_cons, hf a b ha, ih (mapM_forall₂.mpr ‹_›)]

/-- A list in another order is gone through to the same in another order. -/
theorem mapM_perm {f : α → Except ε β} {l l' : List α} {out : List β} (hp : l.Perm l') (h : l.mapM f = .ok out) :
    ∃ out', l'.mapM f = .ok out' ∧ out.Perm out' := by
  obtain ⟨out', hout', hperm⟩ := List.perm_comp_forall₂ hp.symm (mapM_forall₂.mp h)
  exact ⟨out', mapM_forall₂.mpr hout', hperm.symm⟩

theorem forM_ok {f : α → Except ε PUnit} {l : List α} (h : ∀ a ∈ l, f a = .ok ()) : l.forM f = .ok () := by
  induction l with
  | nil => rfl
  | cons a rest ih =>
    obtain ⟨ha, hrest⟩ := List.forall_mem_cons.mp h
    show (f a).bind (fun _ => rest.forM f) = .ok ()
    rw [ha]
    exact ih hrest

theorem forM_eq_ok {f : α → Except ε PUnit} {l : List α} : l.forM f = .ok () ↔ ∀ a ∈ l, f a = .ok () := by
  refine ⟨fun h => ?_, forM_ok⟩
  induction l with
  | nil => intro a ha; cases ha
  | cons a rest ih =>
    obtain ⟨_, ha, hrest⟩ := bind_eq_ok.mp (show (f a).bind (fun _ => rest.forM f) = .ok () from h)
    exact List.forall_mem_cons.mpr ⟨ha, ih hrest⟩

theorem filterM_ok {f : α → Except ε Bool} {p : α → Bool} {l : List α} (h : ∀ a ∈ l, f a = .ok (p a)) :
    l.filterM f = .ok (l.filter p) := by
  have aux : ∀ acc : List α, l.filterAuxM f acc = .ok ((l.filter p).reverse ++ acc) := by
    induction l with
    | nil => intro acc; rfl
    | cons a rest ih =>
      intro acc
      simp only [List.filterAuxM, h a (List.mem_cons_self ..), bind, Except.bind]
      rw [ih fun b hb => h b (List.mem_cons_of_mem _ hb)]
      cases hp : p a <;> simp [hp]
  simp only [List.filterM, aux, bind, Except.bind]
  simp [pure, Except.pure]

theorem filterM_eq_ok {f : α → Except ε Bool} {l out : List α} :
    l.filterM f = .ok out ↔ (∀ a ∈ l, ∃ b, f a = .ok b) ∧ out = l.filter fun a => (f a).toOption.getD false := by
  have haux : ∀ {acc out : List α}, l.filterAuxM f acc = .ok out → ∀ a ∈ l, ∃ b, f a = .ok b := by
    induction l with
    | nil => intro acc out _ a ha; cases ha
    | cons a rest ih =>
      intro acc out h
      obtain ⟨b, hb, h⟩ := bind_eq_ok.mp h
      exact List.forall_mem_cons.mpr ⟨⟨b, hb⟩, ih h⟩
  have hvalues : (∀ a ∈ l, ∃ b, f a = .ok b) → l.filterM f = .ok (l.filter fun a => (f a).toOption.getD false) := by
    intro h
    apply filterM_ok
    intro a ha
    obtain ⟨b, hb⟩ := h a ha
    exact ok_getD hb false
  constructor
  · intro h
    obtain ⟨kept, hkept, -⟩ := bind_eq_ok.mp (show (l.filterAuxM f []).bind _ = .ok out from h)
    exact ⟨haux hkept, Except.ok.inj (h.symm.trans (hvalues (haux hkept)))⟩
  · rintro ⟨h, rfl⟩
    exact hvalues h

/-! ## Two outcomes side by side -/

section pairs

variable {ε α α' β β' : Type}

/-- Both succeed with related results, or both fail in the same way. -/
inductive Rel (R : α → α' → Prop) : Except ε α → Except ε α' → Prop
  | ok {a : α} {a' : α'} : R a a' → Rel R (.ok a) (.ok a')
  | error (e : ε) : Rel R (.error e) (.error e)

variable {R : α → α' → Prop} {S : β → β' → Prop} {x : Except ε α} {x' : Except ε α'}

theorem Rel.refl {R : α → α → Prop} (hR : ∀ a, R a a) (x : Except ε α) : Rel R x x := by
  cases x with
  | ok a => exact .ok (hR a)
  | error e => exact .error e

theorem Rel.mono {R' : α → α' → Prop} (h : Rel R x x') (hR : ∀ a a', R a a' → R' a a') : Rel R' x x' := by
  cases h with
  | ok ha => exact .ok (hR _ _ ha)
  | error e => exact .error e

theorem Rel.bind {f : α → Except ε β} {f' : α' → Except ε β'} (h : Rel R x x')
    (hf : ∀ a a', R a a' → Rel S (f a) (f' a')) : Rel S (x.bind f) (x'.bind f') := by
  cases h with
  | ok ha => exact hf _ _ ha
  | error e => exact .error e

theorem Rel.map {f : α → β} {f' : α' → β'} (h : Rel R x x') (hf : ∀ a a', R a a' → S (f a) (f' a')) :
    Rel S (x.map f) (x'.map f') := by
  cases h with
  | ok ha => exact .ok (hf _ _ ha)
  | error e => exact .error e

theorem Rel.eq {x x' : Except ε α} (h : Rel Eq x x') : x = x' := by
  cases h with
  | ok ha => rw [ha]
  | error e => rfl

theorem Rel.mapM {f : α → Except ε β} {f' : α' → Except ε β'} {l : List α} {l' : List α'}
    (h : List.Forall₂ (fun a a' => Rel S (f a) (f' a')) l l') : Rel (List.Forall₂ S) (l.mapM f) (l'.mapM f') := by
  induction h with
  | nil => exact .ok .nil
  | cons ha _ ih =>
    rw [List.mapM_cons, List.mapM_cons]
    exact ha.bind fun b b' hb => ih.bind fun bs bs' hbs => .ok (.cons hb hbs)

/-- Of related elements the same are kept. -/
theorem Rel.filterM {p : α → Except ε Bool} {p' : α' → Except ε Bool} {l : List α} {l' : List α'}
    (h : List.Forall₂ (fun a a' => R a a' ∧ Rel Eq (p a) (p' a')) l l') :
    Rel (List.Forall₂ R) (l.filterM p) (l'.filterM p') := by
  have haux : ∀ {acc acc'}, List.Forall₂ R acc acc' → Rel (List.Forall₂ R) (l.filterAuxM p acc) (l'.filterAuxM p' acc') := by
    induction h with
    | nil => exact fun hacc => .ok hacc
    | cons ha _ ih =>
      intro acc acc' hacc
      refine ha.2.bind fun b b' hb => ?_
      subst hb
      cases b with
      | true => exact ih (.cons ha.1 hacc)
      | false => exact ih hacc
  exact (haux .nil).bind fun kept kept' hkept => .ok (List.rel_reverse hkept)

end pairs

end DocQuery.Except
