/-
  DocQuery.Proofs.Store.Admission — the statements that a store answers.

  A statement that the store does not admit is refused before a row is looked at (`query_refused`,
  `count_refused`); one that it admits is answered from its table (`query_admitted`, `count_admitted`). Whether
  it is admitted hangs on its tests, joins, sort keys and parameters, and on no row:
  - `Admits.mono`: a statement is admitted where one is that has as much of everything. So either side of a
    connective is admitted where the whole is (`admits_left`, `admits_right`), and every page where one is
    (`admits_page`).
  - `admits_test`: a single test without joins is within all bounds. It is admitted, unless it is one of
    membership and the function that lists members is hidden.
-/

import DocQuery.Proofs.Statement.Request
import DocQuery.Proofs.Store.Meaning

namespace DocQuery

namespace Store

variable {s : Store} {c : Compiled} {r : Relation}

theorem target_refused (h : ¬ s.Admits c) : s.target c = .error .storage := if_neg h

theorem target_admitted (h : s.Admits c) (hr : s.relation c.statement.table = .ok r) : s.target c = .ok r :=
  (if_pos h).trans hr

theorem query_refused (h : ¬ s.Admits c) : s.query c = .error .storage := by
  unfold query
  rw [target_refused h]
  rfl

theorem count_refused (h : ¬ s.Admits c) : s.count c = .error .storage := by
  unfold count
  rw [target_refused h]
  rfl

theorem query_admitted (h : s.Admits c) (hr : s.relation c.statement.table = .ok r) :
    s.query c = c.statement.rows s.clock (cells c) r.rows := by
  unfold query
  rw [target_admitted h hr]
  rfl

theorem count_admitted (h : s.Admits c) (hr : s.relation c.statement.table = .ok r) :
    s.count c = c.statement.total s.clock (cells c) r.rows := by
  unfold count
  rw [target_admitted h hr]
  rfl

end Store

namespace Statement

/-! ## Depth -/

/-- The numbers of its parameters do not make a condition deeper. -/
theorem BoundTree.height_condition (t : BoundTree) (n : Nat) : (t.condition n).height = (t.condition 0).height := by
  induction t generalizing n with
  | leaf b => cases b <;> rfl
  | binary c left right ihl ihr =>
    simp only [condition, Condition.height]
    rw [ihl n, ihr (n + left.values.length), ihr (0 + left.values.length)]

theorem BoundTree.hasMember_condition (t : BoundTree) (n : Nat) :
    (t.condition n).hasMember = (t.condition 0).hasMember := by
  induction t generalizing n with
  | leaf b => cases b <;> rfl
  | binary c left right ihl ihr =>
    simp only [condition, Condition.hasMember]
    rw [ihl n, ihr (n + left.values.length), ihr (0 + left.values.length)]

theorem Bound.hasMember_condition (b : Bound) (n : Nat) : (b.condition n).hasMember = b.memberPath?.isSome := by
  cases b <;> rfl

/-- A test is not deep. -/
theorem Bound.depth_condition (b : Bound) (n : Nat) : (b.condition n).depth ≤ 6 := by
  cases b with
  | identityNull negated => exact Nat.le_of_ble_eq_true rfl
  | identityCompare c v => exact Nat.le_of_ble_eq_true rfl
  | isNull negated r => exact Nat.le_of_ble_eq_true rfl
  | compare c r type v => cases type <;> exact Nat.le_of_ble_eq_true rfl
  | member negated r type v => cases negated <;> cases type <;> exact Nat.le_of_ble_eq_true rfl

/-! ## Larger requests -/

/-- What has fewer paths has fewer joins. -/
theorem requestJoins_length_le {t t' : Option BoundTree} {keys keys' : List BoundKey}
    (h : requestPaths t keys ⊆ requestPaths t' keys') :
    (requestJoins t keys).length ≤ (requestJoins t' keys').length := by
  have hlabels : (requestJoins t keys).map (·.label) ⊆ (requestJoins t' keys').map (·.label) := by
    intro label hl
    obtain ⟨j, hj, rfl⟩ := List.mem_map.mp hl
    obtain ⟨r, hr, c, hc, hlabel, -⟩ := requestJoins_sound hj
    exact requestPaths_labels (h hr) (List.mem_map.mpr ⟨c, hc, hlabel.symm⟩)
  simpa using ((requestJoins_nodup t keys).subperm hlabels).length_le

/-- The condition is at most as deep as the other, and lists members only if the other does. -/
structure Condition.Within (k k' : Condition) : Prop where
  height : k.height ≤ k'.height
  member : k.hasMember = true → k'.hasMember = true

theorem Condition.Within.refl (k : Condition) : k.Within k := ⟨le_refl _, id⟩

theorem Condition.Within.depth {k k' : Condition} (h : k.Within k') : k.depth ≤ k'.depth := by
  have hheight := h.height
  unfold Condition.depth
  by_cases hm : k.hasMember = true
  · rw [if_pos hm, if_pos (h.member hm)]
    omega
  · rw [if_neg hm]
    omega

theorem BoundTree.within_left (c : Connective) (left right : BoundTree) :
    (left.condition 0).Within ((binary c left right).condition 0) where
  height := by
    simp only [condition, Condition.height]
    omega
  member h := by simp [condition, Condition.hasMember, h]

theorem BoundTree.within_right (c : Connective) (left right : BoundTree) :
    (right.condition 0).Within ((binary c left right).condition 0) where
  height := by
    simp only [condition, Condition.height]
    rw [right.height_condition (0 + left.values.length)]
    omega
  member h := by
    simp only [condition, Condition.hasMember]
    rw [right.hasMember_condition (0 + left.values.length), h, Bool.or_true]

end Statement

namespace Store

open Statement

variable {s : Store}

/-- A statement is admitted where one is that has as much of everything; its sort keys count for themselves. -/
theorem Admits.mono {c c' : Compiled} (h : s.Admits c')
    (hcondition : ∀ k ∈ c.statement.condition, ∃ k' ∈ c'.statement.condition, k.Within k')
    (hjoins : c.statement.joins.length ≤ c'.statement.joins.length)
    (horder : c.statement.order.length ≤ 2000)
    (hparameters : c.parameters.length ≤ c'.parameters.length) : s.Admits c where
  fits :=
    { depth := fun k hk => by
        obtain ⟨k', hk', hwithin⟩ := hcondition k hk
        exact hwithin.depth.trans (h.fits.depth k' hk')
      joins := hjoins.trans_lt h.fits.joins
      order := horder
      parameters := hparameters.trans h.fits.parameters }
  seen hlists := by
    refine h.seen ?_
    unfold listsMembers at hlists ⊢
    rcases Bool.or_eq_true_iff.mp hlists with hsome | hmember
    · have hlength : 0 < c.statement.joins.length := List.length_pos_iff.mpr (by simpa using hsome)
      have hne : c'.statement.joins ≠ [] := List.ne_nil_of_length_pos (hlength.trans_le hjoins)
      simp [hne]
    · obtain ⟨k, hk, hmember⟩ := Option.any_eq_true _ _ |>.mp hmember
      obtain ⟨k', hk', hwithin⟩ := hcondition k hk
      simp [Option.mem_def.mp hk', hwithin.member hmember]

section requests

variable {d : Dialect} {table : Table} {page : Page} {keys : List BoundKey}

theorem admits_left {c : Connective} {left right : BoundTree}
    (h : s.Admits (requestCompiled d table page (some (.binary c left right), keys))) :
    s.Admits (requestCompiled d table page (some left, keys)) := by
  refine h.mono ?_ (requestJoins_length_le ?_) h.fits.order ?_
  · intro k hk
    obtain rfl := Option.some.inj hk
    exact ⟨_, rfl, BoundTree.within_left c left right⟩
  · intro r hr
    simp only [requestPaths, Option.elim, BoundTree.paths, List.mem_append] at hr ⊢
    exact hr.imp_left Or.inl
  · simp [requestCompiled, BoundTree.values]

theorem admits_right {c : Connective} {left right : BoundTree}
    (h : s.Admits (requestCompiled d table page (some (.binary c left right), keys))) :
    s.Admits (requestCompiled d table page (some right, keys)) := by
  refine h.mono ?_ (requestJoins_length_le ?_) h.fits.order ?_
  · intro k hk
    obtain rfl := Option.some.inj hk
    exact ⟨_, rfl, BoundTree.within_right c left right⟩
  · intro r hr
    simp only [requestPaths, Option.elim, BoundTree.paths, List.mem_append] at hr ⊢
    exact hr.imp_left Or.inr
  · simp [requestCompiled, BoundTree.values]

/-- Which page of the rows is asked for does not matter. -/
theorem admits_page {request : Option BoundTree × List BoundKey} (page' : Page)
    (h : s.Admits (requestCompiled d table page request)) : s.Admits (requestCompiled d table page' request) :=
  h.mono (fun k hk => ⟨k, hk, .refl k⟩) le_rfl h.fits.order le_rfl

/-- A single test without joins is admitted, one of membership where the members are seen. -/
theorem admits_test {b : Bound} (hjoins : requestJoins (some (.leaf b)) keys = []) (hkeys : keys.length ≤ 2000)
    (hseen : b.memberPath? ≠ none → s.SeesMembers) : s.Admits (requestCompiled d table page (some (.leaf b), keys)) where
  fits :=
    { depth := fun k hk => by
        obtain rfl := Option.some.inj hk
        exact (b.depth_condition 0).trans (by decide)
      joins := by
        show (requestJoins (some (.leaf b)) keys).length < 64
        rw [hjoins]
        decide
      order := by simpa [requestCompiled] using hkeys
      parameters := by
        show b.value?.toList.length ≤ 32766
        cases b.value? <;> exact Nat.le_of_ble_eq_true rfl }
  seen hlists := by
    refine hseen ?_
    have hmember : (b.condition 0).hasMember = true := by
      have hlists : (!(requestJoins (some (.leaf b)) keys).isEmpty || (b.condition 0).hasMember) = true := hlists
      rwa [hjoins] at hlists
    rw [b.hasMember_condition] at hmember
    exact Option.isSome_iff_ne_none.mp hmember

end requests

end Store

end DocQuery
