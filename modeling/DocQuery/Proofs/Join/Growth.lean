/-
  DocQuery.Proofs.Join.Growth — how a plan of joins grows.

  Adding a path appends joins and never moves one, so a binding handed out once stays good:
  `add_place` gives the location a path is read at, whatever the plan held before. `Covers` is
  what the plan knows of the arrays that have been asked for: one join for each, found under the
  array's key, reading where the array is read, with its parent before it. It holds of the empty
  plan and every added path keeps it (`Covers.add`).
-/

import DocQuery.Proofs.Path.Position
import DocQuery.Statement.Compile

namespace DocQuery

open DocQuery.Path Statement

namespace Join.Plan

def keys (p : Plan) : List String := p.joins.map (·.key)

/-- Joins are appended and keep their keys. -/
def Extends (p q : Plan) : Prop := p.keys <+: q.keys

theorem Extends.refl (p : Plan) : p.Extends p := List.prefix_refl _

theorem Extends.trans {p q r : Plan} (h : p.Extends q) (h' : q.Extends r) : p.Extends r :=
  List.IsPrefix.trans h h'

theorem getElem?_keys (p : Plan) (i : Nat) : p.keys[i]? = p.joins[i]?.map (·.key) := by
  simp [keys]

/-! ## Steps -/

theorem keys_mark (p : Plan) (i : Nat) : (p.mark i).keys = p.keys := by
  simp only [keys, mark]
  refine List.ext_getElem? fun k => ?_
  simp only [List.getElem?_map, List.getElem?_modify]
  split <;> cases p.joins[k]? <;> rfl

theorem mark_extends (p : Plan) (i : Nat) : p.Extends (p.mark i) := ⟨[], by rw [keys_mark, List.append_nil]⟩

theorem label_eq {p : Plan} {i : Nat} {j : Join} (h : p.joins[i]? = some j) : j.label = j.key :=
  p.labelled j (List.mem_of_getElem? h)

theorem position?_eq (p : Plan) (key : String) : p.position? key = p.joins.findIdx? (·.key == key) := p.indexed key

theorem joins_push (p : Plan) (key : String) (parent : Option Nat) (pointer : List String) (h : p.position? key = none) :
    (p.push key parent pointer h).joins = p.joins ++ [⟨key, key, parent, pointer, false⟩] := rfl

theorem keys_push (p : Plan) (key : String) (parent : Option Nat) (pointer : List String) (h : p.position? key = none) :
    (p.push key parent pointer h).keys = p.keys ++ [key] := by
  simp [keys, push]

theorem push_extends (p : Plan) (key : String) (parent : Option Nat) (pointer : List String) (h : p.position? key = none) :
    p.Extends (p.push key parent pointer h) := ⟨[key], (keys_push p key parent pointer h).symm⟩

/-- A key is found where it stands, or its join is put last. -/
theorem obtain_cases (p : Plan) (key : String) (parent : Option Nat) (pointer : List String) :
    (∃ i, p.keys[i]? = some key ∧ p.obtain key parent pointer = (p, i)) ∨
    (key ∉ p.keys ∧ ∃ h, p.obtain key parent pointer = (p.push key parent pointer h, p.joins.length)) := by
  unfold Plan.obtain
  split
  · rename_i i h
    left
    rw [position?_eq] at h
    obtain ⟨hi, hk, -⟩ := List.findIdx?_eq_some_iff_getElem.mp h
    refine ⟨i, ?_, rfl⟩
    rw [getElem?_keys, List.getElem?_eq_getElem hi]
    simpa using hk
  · rename_i h
    right
    refine ⟨fun hm => ?_, h, rfl⟩
    rw [position?_eq] at h
    obtain ⟨j, hj, rfl⟩ := List.mem_map.mp hm
    have := List.findIdx?_eq_none_iff.mp h j hj
    simp at this

theorem obtain_extends (p : Plan) (key : String) (parent : Option Nat) (pointer : List String) :
    p.Extends (p.obtain key parent pointer).1 := by
  rcases obtain_cases p key parent pointer with ⟨i, -, h⟩ | ⟨-, hnew, h⟩
  · rw [h]; exact Extends.refl p
  · rw [h]; exact push_extends p key parent pointer hnew

theorem obtain_key (p : Plan) (key : String) (parent : Option Nat) (pointer : List String) :
    (p.obtain key parent pointer).1.keys[(p.obtain key parent pointer).2]? = some key := by
  rcases obtain_cases p key parent pointer with ⟨i, hi, h⟩ | ⟨-, hnew, h⟩
  · rw [h]; exact hi
  · rw [h]; simp [keys, push]

/-- The plan after one array of a path: its join is there, and marked if a sort key goes through. -/
def visit (fromSort : Bool) (p : Plan) (key : String) (parent : Option Nat) (pointer : List String) : Plan :=
  let q := p.obtain key parent pointer
  if fromSort then q.1.mark q.2 else q.1

theorem keys_visit (fromSort : Bool) (p : Plan) (key : String) (parent : Option Nat) (pointer : List String) :
    (p.visit fromSort key parent pointer).keys = (p.obtain key parent pointer).1.keys := by
  unfold visit; cases fromSort
  · rfl
  · exact keys_mark _ _

theorem follow_array {n : Node} (h : n.kind = .objectArray) (fromSort : Bool) (p : Plan) (parent : Option Nat)
    (seen pointer : List String) (rest : List Node) :
    follow fromSort p parent seen pointer (n :: rest) =
      follow fromSort (p.visit fromSort (dotted (seen ++ [n.name])) parent (pointer ++ [n.name]))
        (some (p.obtain (dotted (seen ++ [n.name])) parent (pointer ++ [n.name])).2) (seen ++ [n.name]) [] rest := by
  simp [follow, h, visit]

theorem follow_member {n : Node} (h : n.kind ≠ .objectArray) (fromSort : Bool) (p : Plan) (parent : Option Nat)
    (seen pointer : List String) (rest : List Node) :
    follow fromSort p parent seen pointer (n :: rest) =
      follow fromSort p parent (seen ++ [n.name]) (pointer ++ [n.name]) rest := by
  simp [follow, h]

/-! ## Bindings -/

/-- The join is in the plan, and its elements are read from `source`. -/
def Names (p : Plan) (join : Option Nat) (source : Source) : Prop :=
  match join with
  | none => source = .document
  | some i => ∃ key, p.keys[i]? = some key ∧ source = .element key

theorem Names.extend {p q : Plan} {join : Option Nat} {source : Source} (h : p.Names join source)
    (hq : p.Extends q) : q.Names join source := by
  cases join with
  | none => exact h
  | some i =>
    obtain ⟨key, hk, rfl⟩ := h
    obtain ⟨hi, hk⟩ := List.getElem?_eq_some_iff.mp hk
    refine ⟨key, ?_, rfl⟩
    obtain ⟨more, hm⟩ := hq
    rw [← hm, List.getElem?_append_left hi, List.getElem?_eq_getElem hi, hk]

theorem Names.sourceOf {p : Plan} {join : Option Nat} {source : Source} (h : p.Names join source) :
    sourceOf p join = source := by
  cases join with
  | none => exact h.symm
  | some i =>
    obtain ⟨key, hk, rfl⟩ := h
    rw [getElem?_keys] at hk
    obtain ⟨j, hj, rfl⟩ := Option.map_eq_some_iff.mp hk
    simp [Statement.sourceOf, hj, label_eq hj]

theorem visit_names (fromSort : Bool) (p : Plan) (key : String) (parent : Option Nat) (pointer : List String) :
    (p.visit fromSort key parent pointer).Names (some (p.obtain key parent pointer).2) (.element key) :=
  ⟨key, by rw [keys_visit]; exact obtain_key p key parent pointer, rfl⟩

theorem visit_extends (fromSort : Bool) (p : Plan) (key : String) (parent : Option Nat) (pointer : List String) :
    p.Extends (p.visit fromSort key parent pointer) := by
  unfold Extends; rw [keys_visit]; exact obtain_extends p key parent pointer

/-- Following nodes from a position ends where the walk along them ends. -/
theorem follow_position (fromSort : Bool) (nodes : List Node) (p : Plan) (parent : Option Nat) (pos : Position)
    (hp : p.Names parent pos.place.source) :
    p.Extends (follow fromSort p parent pos.names pos.place.path nodes).1 ∧
    (follow fromSort p parent pos.names pos.place.path nodes).1.Names
      (follow fromSort p parent pos.names pos.place.path nodes).2.1 (pos.after nodes).place.source ∧
    (follow fromSort p parent pos.names pos.place.path nodes).2.2 = (pos.after nodes).place.path := by
  induction nodes generalizing p parent pos with
  | nil => exact ⟨Extends.refl p, hp, rfl⟩
  | cons n rest ih =>
    by_cases h : n.kind = .objectArray
    · rw [follow_array h, Position.after_cons, Position.next_array h]
      obtain ⟨he, hn, hs⟩ := ih _ _ ⟨pos.names ++ [n.name], ⟨.element (dotted (pos.names ++ [n.name])), []⟩⟩
        (visit_names fromSort p (dotted (pos.names ++ [n.name])) parent (pos.place.path ++ [n.name]))
      exact ⟨(visit_extends fromSort p _ _ _).trans he, hn, hs⟩
    · rw [follow_member h, Position.after_cons, Position.next_member h]
      exact ih p parent ⟨pos.names ++ [n.name], pos.member n.name⟩ hp

theorem add_extends (p : Plan) (r : ResolvedPath) (fromSort : Bool) : p.Extends (p.add r fromSort).1 :=
  (follow_position fromSort r.before p none .start rfl).1

/-- A path is read at the place that its nodes lead to, in every plan it is added to. -/
theorem add_place (p : Plan) (r : ResolvedPath) (fromSort : Bool) :
    (⟨sourceOf (p.add r fromSort).1 (p.add r fromSort).2.join, (p.add r fromSort).2.suffix⟩ : Location) = r.place := by
  obtain ⟨-, hn, hs⟩ := follow_position fromSort r.before p none .start rfl
  have hsource : sourceOf (p.add r fromSort).1 (p.add r fromSort).2.join = r.place.source := hn.sourceOf
  have hsuffix : (p.add r fromSort).2.suffix = r.place.path := congrArg (· ++ [r.terminal.name]) hs
  rw [hsource, hsuffix]

/-! ## The arrays of a plan -/

theorem mark_joins (p : Plan) (i k : Nat) :
    (p.mark i).joins[k]? = p.joins[k]?.map fun j => if k = i then { j with grouped := true } else j := by
  simp only [mark, List.getElem?_modify]
  by_cases h : i = k
  · subst h; cases p.joins[i]? <;> simp
  · have hk : ¬ k = i := fun e => h e.symm
    cases p.joins[k]? <;> simp [h, hk]

/-- A marked plan's join stands where the old one stood and differs in its mark only. -/
theorem unmarked_of_mark {p : Plan} {i k : Nat} {j' : Join} (h : (p.mark i).joins[k]? = some j') :
    ∃ j : Join, p.joins[k]? = some j ∧ j'.key = j.key ∧ j'.parent = j.parent ∧ j'.pointer = j.pointer ∧
      (j'.grouped = true ↔ k = i ∨ j.grouped = true) := by
  rw [mark_joins] at h
  obtain ⟨j, hj, rfl⟩ := Option.map_eq_some_iff.mp h
  refine ⟨j, hj, ?_⟩
  by_cases hk : k = i <;> simp [hk]

theorem Names.parent_lt {p : Plan} {k : Nat} {source : Source} (h : p.Names (some k) source) : k < p.joins.length := by
  obtain ⟨key, hkey, -⟩ := h
  obtain ⟨hlt, -⟩ := List.getElem?_eq_some_iff.mp hkey
  simpa [keys] using hlt

/-- The plan has one join for each of the arrays in `seen`, and those in `sorted` are marked. -/
structure Covers (p : Plan) (seen sorted : List Crossing) : Prop where
  nodup : p.keys.Nodup
  parent_lt : ∀ i (j : Join), p.joins[i]? = some j → ∀ k, j.parent = some k → k < i
  sound : ∀ j ∈ p.joins, ∃ c ∈ seen, j.key = dotted c.names ∧ p.Names j.parent c.array.source ∧
    j.pointer = c.array.path
  complete : ∀ c ∈ seen, dotted c.names ∈ p.keys
  sorted_mem : ∀ c ∈ sorted, dotted c.names ∈ p.keys
  grouped : ∀ j ∈ p.joins, j.grouped = true ↔ ∃ c ∈ sorted, dotted c.names = j.key

theorem Covers.empty : Plan.empty.Covers [] [] where
  nodup := List.nodup_nil
  parent_lt i j h := by simp [Plan.empty] at h
  sound := List.forall_mem_nil _
  complete := List.forall_mem_nil _
  sorted_mem := List.forall_mem_nil _
  grouped := List.forall_mem_nil _

variable {p : Plan} {seen sorted : List Crossing}

theorem Covers.seen_mono {more : List Crossing} (h : p.Covers seen sorted)
    (hm : ∀ c ∈ more, dotted c.names ∈ p.keys) : p.Covers (seen ++ more) sorted where
  nodup := h.nodup
  parent_lt := h.parent_lt
  sound j hj := by
    obtain ⟨c, hc, hrest⟩ := h.sound j hj
    exact ⟨c, List.mem_append_left _ hc, hrest⟩
  complete := List.forall_mem_append.mpr ⟨h.complete, hm⟩
  sorted_mem := h.sorted_mem
  grouped := h.grouped

/-- A new join is put after all others and is not marked yet. -/
theorem Covers.push {parent : Option Nat} (h : p.Covers seen sorted) (c : Crossing)
    (hp : p.Names parent c.array.source) (hnew : dotted c.names ∉ p.keys) (hnone : p.position? (dotted c.names) = none) :
    (p.push (dotted c.names) parent c.array.path hnone).Covers (seen ++ [c]) sorted := by
  have hkeys := keys_push p (dotted c.names) parent c.array.path hnone
  have hjoins := joins_push p (dotted c.names) parent c.array.path hnone
  have hext := push_extends p (dotted c.names) parent c.array.path hnone
  exact {
    nodup := by
      rw [hkeys]
      refine List.nodup_append.mpr ⟨h.nodup, by simp, fun a ha b hb e => hnew ?_⟩
      rwa [e, List.mem_singleton.mp hb] at ha
    parent_lt := by
      intro i j hj k hk
      rw [hjoins, List.getElem?_append] at hj
      split at hj
      · exact h.parent_lt i j hj k hk
      · rename_i hi
        obtain rfl := List.mem_singleton.mp (List.mem_of_getElem? hj)
        obtain rfl : parent = some k := hk
        exact Nat.lt_of_lt_of_le hp.parent_lt (Nat.le_of_not_lt hi)
    sound := by
      rw [hjoins]
      refine List.forall_mem_append.mpr ⟨fun j hj => ?_, List.forall_mem_singleton.mpr ?_⟩
      · obtain ⟨c', hc', hk, hn, hptr⟩ := h.sound j hj
        exact ⟨c', List.mem_append_left _ hc', hk, hn.extend hext, hptr⟩
      · exact ⟨c, List.mem_append_right _ List.mem_cons_self, rfl, hp.extend hext, rfl⟩
    complete := by
      rw [hkeys]
      refine List.forall_mem_append.mpr ⟨fun c' hc' => ?_, List.forall_mem_singleton.mpr ?_⟩
      · exact List.mem_append_left _ (h.complete c' hc')
      · exact List.mem_append_right _ List.mem_cons_self
    sorted_mem := by
      intro c' hc'
      rw [hkeys]
      exact List.mem_append_left _ (h.sorted_mem c' hc')
    grouped := by
      rw [hjoins]
      refine List.forall_mem_append.mpr ⟨h.grouped, List.forall_mem_singleton.mpr ?_⟩
      simp only [Bool.false_eq_true, false_iff, not_exists, not_and]
      intro c' hc' e
      exact hnew (e ▸ h.sorted_mem c' hc') }

theorem Covers.obtain (h : p.Covers seen sorted) {parent : Option Nat} (c : Crossing)
    (hp : p.Names parent c.array.source) :
    (p.obtain (dotted c.names) parent c.array.path).1.Covers (seen ++ [c]) sorted := by
  rcases obtain_cases p (dotted c.names) parent c.array.path with ⟨i, hi, e⟩ | ⟨hnew, hnone, e⟩
  · rw [e]
    refine h.seen_mono fun c' hc' => ?_
    simp only [List.mem_singleton] at hc'
    subst hc'; exact List.mem_of_getElem? hi
  · rw [e]; exact h.push c hp hnew hnone

/-- Marking the join of an array leaves the other joins as they are. -/
theorem Covers.mark (h : p.Covers seen sorted) {i : Nat} (c : Crossing) (hi : p.keys[i]? = some (dotted c.names)) :
    (p.mark i).Covers seen (sorted ++ [c]) where
  nodup := (keys_mark p i).symm ▸ h.nodup
  parent_lt k j' hj' q hq := by
    obtain ⟨j, hj, -, hpar, -⟩ := unmarked_of_mark hj'
    exact h.parent_lt k j hj q (hpar ▸ hq)
  sound j' hj' := by
    obtain ⟨k, hk⟩ := List.mem_iff_getElem?.mp hj'
    obtain ⟨j, hj, hkey, hpar, hptr, -⟩ := unmarked_of_mark hk
    obtain ⟨c', hc', e, hn, hp⟩ := h.sound j (List.mem_of_getElem? hj)
    exact ⟨c', hc', hkey.trans e, hpar ▸ hn.extend (mark_extends p i), hptr.trans hp⟩
  complete := (keys_mark p i).symm ▸ h.complete
  sorted_mem := by
    rw [keys_mark]
    exact List.forall_mem_append.mpr ⟨h.sorted_mem, List.forall_mem_singleton.mpr (List.mem_of_getElem? hi)⟩
  grouped j' hj' := by
    obtain ⟨k, hk⟩ := List.mem_iff_getElem?.mp hj'
    obtain ⟨j, hj, hkey, -, -, hg⟩ := unmarked_of_mark hk
    have hkj : p.keys[k]? = some j.key := by rw [getElem?_keys, hj]; rfl
    -- Keys are distinct, so the marked place is the only one with the array's key.
    have hplace : k = i ↔ dotted c.names = j.key := by
      constructor
      · rintro rfl
        exact Option.some.inj (hi.symm.trans hkj)
      · intro e
        obtain ⟨hlt, -⟩ := List.getElem?_eq_some_iff.mp hkj
        exact (List.getElem?_inj hlt h.nodup).mp (hkj.trans (e ▸ hi.symm))
    simp only [hg, h.grouped j (List.mem_of_getElem? hj), hkey, hplace, List.mem_append, List.mem_singleton, or_and_right,
      exists_or, exists_eq_left]
    exact or_comm

theorem Covers.visit (h : p.Covers seen sorted) (fromSort : Bool) {parent : Option Nat} (c : Crossing)
    (hp : p.Names parent c.array.source) :
    (p.visit fromSort (dotted c.names) parent c.array.path).Covers (seen ++ [c])
      (sorted ++ if fromSort then [c] else []) := by
  unfold Plan.visit
  cases fromSort
  · simpa using h.obtain c hp
  · exact (h.obtain c hp).mark c (obtain_key p _ _ _)

theorem Covers.follow (fromSort : Bool) (nodes : List Node) (parent : Option Nat) (pos : Position)
    (h : p.Covers seen sorted) (hp : p.Names parent pos.place.source) :
    (Plan.follow fromSort p parent pos.names pos.place.path nodes).1.Covers (seen ++ crossingsFrom pos nodes)
      (sorted ++ if fromSort then crossingsFrom pos nodes else []) := by
  induction nodes generalizing p parent pos seen sorted with
  | nil => simpa [Plan.follow, crossingsFrom] using h
  | cons n rest ih =>
    by_cases ha : n.kind = .objectArray
    · rw [follow_array ha, crossingsFrom_array ha, Position.next_array ha]
      have := ih _ ⟨pos.names ++ [n.name], ⟨.element (dotted (pos.names ++ [n.name])), []⟩⟩
        (h.visit fromSort ⟨pos.names ++ [n.name], pos.member n.name⟩ hp)
        (visit_names fromSort p _ parent _)
      cases fromSort <;> simpa using this
    · rw [follow_member ha, crossingsFrom_member ha, Position.next_member ha]
      exact ih parent ⟨pos.names ++ [n.name], pos.member n.name⟩ h hp

/-- An added path's arrays are joined, and marked if the path is a sort key's. -/
theorem Covers.add (h : p.Covers seen sorted) (r : ResolvedPath) (fromSort : Bool) :
    (p.add r fromSort).1.Covers (seen ++ r.arrays) (sorted ++ if fromSort then r.arrays else []) :=
  h.follow fromSort r.before none .start rfl

/-- The plan with many paths added, first to last. -/
def addAll (p : Plan) (fromSort : Bool) (paths : List ResolvedPath) : Plan :=
  paths.foldl (fun p r => (p.add r fromSort).1) p

theorem addAll_append (p : Plan) (fromSort : Bool) (a b : List ResolvedPath) :
    p.addAll fromSort (a ++ b) = (p.addAll fromSort a).addAll fromSort b := by
  simp [addAll]

theorem Covers.addAll (paths : List ResolvedPath) (fromSort : Bool) (h : p.Covers seen sorted) :
    (p.addAll fromSort paths).Covers (seen ++ paths.flatMap (·.arrays))
      (sorted ++ if fromSort then paths.flatMap (·.arrays) else []) := by
  induction paths generalizing p seen sorted with
  | nil => simpa [Plan.addAll] using h
  | cons r rest ih =>
    have := ih (h.add r fromSort)
    cases fromSort <;> simpa [Plan.addAll] using this

end Join.Plan

end DocQuery
