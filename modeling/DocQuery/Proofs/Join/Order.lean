/-
  DocQuery.Proofs.Join.Order — the emission order of a plan's joins.

  A plan whose joins have their parents before them is a forest: going up from a join ends at a
  root. Listing it depth first passes every join exactly once (`ordered_perm`), and no
  join before the one its array is read from (`arrayJoins_scoped`).
-/

import Mathlib.Data.List.Nodup
import DocQuery.Proofs.Join.Growth

namespace DocQuery

open Statement

namespace Join.Plan

/-! ## Children -/

theorem insertByKey_perm (e : Nat × Join) (l : List (Nat × Join)) : (insertByKey e l).Perm (e :: l) := by
  induction l with
  | nil => exact List.Perm.refl _
  | cons x rest ih =>
    simp only [insertByKey]
    split
    · exact List.Perm.refl _
    · exact (ih.cons x).trans (List.Perm.swap e x rest)

theorem foldr_insertByKey_perm (l : List (Nat × Join)) : (l.foldr insertByKey []).Perm l := by
  induction l with
  | nil => exact List.Perm.refl _
  | cons e rest ih => exact (insertByKey_perm e _).trans (ih.cons e)

theorem children_perm (p : Plan) (parent : Option Nat) :
    (p.children parent).Perm ((p.joins.zipIdx.filter fun e => e.1.parent == parent).map fun e => (e.2, e.1)) :=
  foldr_insertByKey_perm _

theorem mem_children {p : Plan} {parent : Option Nat} {e : Nat × Join} :
    e ∈ p.children parent ↔ p.joins[e.1]? = some e.2 ∧ e.2.parent = parent := by
  rw [(children_perm p parent).mem_iff]
  simp only [List.mem_map, List.mem_filter, beq_iff_eq]
  constructor
  · rintro ⟨⟨j, i⟩, ⟨hm, hpar⟩, rfl⟩
    exact ⟨List.mem_zipIdx_iff_getElem?.mp hm, hpar⟩
  · rintro ⟨hi, hpar⟩
    exact ⟨(e.2, e.1), ⟨List.mem_zipIdx_iff_getElem?.mpr hi, hpar⟩, rfl⟩

theorem children_nodup (p : Plan) (parent : Option Nat) : ((p.children parent).map (·.1)).Nodup := by
  have hidx : (p.joins.zipIdx.map (·.2)).Nodup := by
    rw [List.zipIdx_map_snd]; exact List.nodup_range'
  refine ((children_perm p parent).map _).nodup_iff.mpr ?_
  rw [List.map_map]
  exact (List.filter_sublist.map _).nodup hidx

/-! ## The forest -/

/-- The joins below a parent with their positions, as `below` lists them. -/
def entriesBelow (p : Plan) : Nat → Option Nat → List (Nat × Join)
  | 0, _ => []
  | depth + 1, parent => (p.children parent).flatMap fun e => e :: p.entriesBelow depth (some e.1)

theorem below_eq (p : Plan) (depth : Nat) (parent : Option Nat) :
    p.below depth parent = (p.entriesBelow depth parent).map (·.2) := by
  induction depth generalizing parent with
  | zero => rfl
  | succ d ih =>
    simp only [below, entriesBelow, List.map_flatMap, List.map_cons]
    refine congrArg (fun f => List.flatMap f _) (funext fun e => ?_)
    rw [ih]

/-- Going up from `i` comes to `c`. -/
inductive Under (p : Plan) (c : Nat) : Nat → Prop
  | self : Under p c c
  | child {i k : Nat} {j : Join} : p.joins[i]? = some j → j.parent = some k → Under p c k → Under p c i

theorem Under.trans {p : Plan} {a b i : Nat} (hab : p.Under a b) (hbi : p.Under b i) : p.Under a i := by
  induction hbi with
  | self => exact hab
  | child hj hk _ ih => exact .child hj hk ih

theorem mem_entriesBelow {p : Plan} {depth : Nat} {parent : Option Nat} {e : Nat × Join}
    (h : e ∈ p.entriesBelow depth parent) :
    p.joins[e.1]? = some e.2 ∧ ∃ c ∈ p.children parent, p.Under c.1 e.1 := by
  induction depth generalizing parent with
  | zero => cases h
  | succ d ih =>
    obtain ⟨c, hc, he⟩ := List.mem_flatMap.mp h
    rcases List.mem_cons.mp he with rfl | he
    · exact ⟨(mem_children.mp hc).1, e, hc, .self⟩
    · obtain ⟨hi, c', hc', hu⟩ := ih he
      obtain ⟨hj, hpar⟩ := mem_children.mp hc'
      exact ⟨hi, c, hc, (Under.child hj hpar .self).trans hu⟩

/-- A child and what is listed below it are joins under the child. -/
theorem mem_subtree {p : Plan} {depth : Nat} {parent : Option Nat} {c e : Nat × Join} (hc : c ∈ p.children parent)
    (he : e ∈ c :: p.entriesBelow depth (some c.1)) : p.joins[e.1]? = some e.2 ∧ p.Under c.1 e.1 := by
  rcases List.mem_cons.mp he with rfl | he
  · exact ⟨(mem_children.mp hc).1, .self⟩
  · obtain ⟨hi, c', hc', hu⟩ := mem_entriesBelow he
    obtain ⟨hj, hpar⟩ := mem_children.mp hc'
    exact ⟨hi, (Under.child hj hpar .self).trans hu⟩

/-- The position of every join is above its parent's. -/
def Upward (p : Plan) : Prop := ∀ i (j : Join), p.joins[i]? = some j → ∀ k, j.parent = some k → k < i

theorem Under.le {p : Plan} (h : p.Upward) {c i : Nat} (hu : p.Under c i) : c ≤ i := by
  induction hu with
  | self => exact Nat.le_refl _
  | child hj hk _ ih => have := h _ _ hj _ hk; omega

/-- Two joins of one parent have nothing below them in common. -/
theorem Under.sibling {p : Plan} (h : p.Upward) {a b i : Nat} {ja jb : Join} (ha : p.joins[a]? = some ja)
    (hb : p.joins[b]? = some jb) (hp : ja.parent = jb.parent) (hai : p.Under a i) (hbi : p.Under b i) :
    a = b := by
  induction hai with
  | self =>
    cases hbi with
    | self => rfl
    | child hj hk hu =>
      -- `b` would have to stand between `a` and the parent they share.
      rw [ha] at hj; cases hj
      have := h _ _ hb _ (hp ▸ hk)
      have := hu.le h
      omega
  | child hj hk hu ih =>
    cases hbi with
    | self =>
      rw [hb] at hj; cases hj
      have := h _ _ ha _ (hp ▸ hk)
      have := hu.le h
      omega
    | child hj' hk' hu' =>
      rw [hj] at hj'; cases hj'
      rw [hk] at hk'; cases hk'
      exact ih hu'

theorem entriesBelow_nodup {p : Plan} (h : p.Upward) (depth : Nat) (parent : Option Nat) :
    ((p.entriesBelow depth parent).map (·.1)).Nodup := by
  induction depth generalizing parent with
  | zero => exact List.nodup_nil
  | succ d ih =>
    simp only [entriesBelow, List.map_flatMap, List.map_cons]
    refine List.nodup_flatMap.mpr ⟨fun c hc => ?_, ?_⟩
    · refine List.nodup_cons.mpr ⟨fun hm => ?_, ih _⟩
      obtain ⟨e, he, hce⟩ := List.mem_map.mp hm
      obtain ⟨-, c', hc', hu⟩ := mem_entriesBelow he
      obtain ⟨hj, hpar⟩ := mem_children.mp hc'
      have := h _ _ hj _ hpar
      have := hu.le h
      omega
    · have hnodup : (p.children parent).Pairwise fun a b => a.1 ≠ b.1 :=
        List.pairwise_map.mp (children_nodup p parent)
      refine hnodup.imp_of_mem fun {a b} ha hb hne i hia hib => hne ?_
      have under : ∀ c : Nat × Join, c ∈ p.children parent →
          i ∈ c.1 :: (p.entriesBelow d (some c.1)).map (·.1) → p.Under c.1 i := by
        intro c hc hi
        obtain ⟨e, he, rfl⟩ := List.mem_map.mp (show i ∈ (c :: p.entriesBelow d (some c.1)).map (·.1) from hi)
        exact (mem_subtree hc he).2
      obtain ⟨hja, hpa⟩ := mem_children.mp ha
      obtain ⟨hjb, hpb⟩ := mem_children.mp hb
      exact Under.sibling h hja hjb (hpa.trans hpb.symm) (under a ha hia) (under b hb hib)

theorem entriesBelow_mono {p : Plan} {depth : Nat} {parent : Option Nat} {e : Nat × Join}
    (h : e ∈ p.entriesBelow depth parent) : e ∈ p.entriesBelow (depth + 1) parent := by
  induction depth generalizing parent with
  | zero => cases h
  | succ d ih =>
    obtain ⟨c, hc, he⟩ := List.mem_flatMap.mp h
    refine List.mem_flatMap.mpr ⟨c, hc, ?_⟩
    rcases List.mem_cons.mp he with rfl | he
    · exact List.mem_cons_self ..
    · exact List.mem_cons_of_mem _ (ih he)

theorem entriesBelow_le {p : Plan} {d d' : Nat} {parent : Option Nat} {e : Nat × Join} (hd : d ≤ d')
    (h : e ∈ p.entriesBelow d parent) : e ∈ p.entriesBelow d' parent := by
  induction hd with
  | refl => exact h
  | step _ ih => exact entriesBelow_mono ih

theorem entriesBelow_child {p : Plan} {depth : Nat} {parent : Option Nat} {e c : Nat × Join}
    (h : e ∈ p.entriesBelow depth parent) (hc : c ∈ p.children (some e.1)) :
    c ∈ p.entriesBelow (depth + 1) parent := by
  induction depth generalizing parent with
  | zero => cases h
  | succ d ih =>
    obtain ⟨x, hx, he⟩ := List.mem_flatMap.mp h
    refine List.mem_flatMap.mpr ⟨x, hx, List.mem_cons_of_mem _ ?_⟩
    rcases List.mem_cons.mp he with rfl | he
    · exact List.mem_flatMap.mpr ⟨c, hc, List.mem_cons_self ..⟩
    · exact ih he

/-- A join is found from the roots in as many levels as there are joins up to it. -/
theorem mem_entriesBelow_root {p : Plan} (h : p.Upward) (i : Nat) :
    ∀ j, p.joins[i]? = some j → (i, j) ∈ p.entriesBelow (i + 1) none := by
  induction i using Nat.strongRecOn with
  | _ i ih =>
    intro j hj
    cases hpar : j.parent with
    | none => exact List.mem_flatMap.mpr ⟨(i, j), mem_children.mpr ⟨hj, hpar⟩, List.mem_cons_self ..⟩
    | some k =>
      have hk := h i j hj k hpar
      obtain ⟨hi, -⟩ := List.getElem?_eq_some_iff.mp hj
      have hroot := ih k hk _ (List.getElem?_eq_getElem (by omega))
      exact entriesBelow_le (by omega) (entriesBelow_child hroot (mem_children.mpr ⟨hj, hpar⟩))

/-- The emission order passes every join once. -/
theorem ordered_perm {p : Plan} (h : p.Upward) : p.ordered.Perm p.joins := by
  have hentries : (p.entriesBelow p.joins.length none).Perm (p.joins.zipIdx.map fun e => (e.2, e.1)) := by
    refine (List.perm_ext_iff_of_nodup (List.Nodup.of_map _ (entriesBelow_nodup h _ _)) ?_).mpr fun e => ?_
    · refine List.Nodup.of_map (·.1) ?_
      rw [List.map_map]
      exact (List.zipIdx_map_snd 0 p.joins) ▸ List.nodup_range'
    · simp only [List.mem_map]
      constructor
      · intro he
        exact ⟨(e.2, e.1), List.mem_zipIdx_iff_getElem?.mpr (mem_entriesBelow he).1, rfl⟩
      · rintro ⟨x, hx, rfl⟩
        have hj := List.mem_zipIdx_iff_getElem?.mp hx
        obtain ⟨hi, -⟩ := List.getElem?_eq_some_iff.mp hj
        exact entriesBelow_le hi (mem_entriesBelow_root h x.2 x.1 hj)
  have hjoins : (p.joins.zipIdx.map fun e => (e.2, e.1)).map (·.2) = p.joins := by
    rw [List.map_map]; exact List.zipIdx_map_fst 0 p.joins
  have := hentries.map (·.2)
  rw [hjoins] at this
  rwa [ordered, below_eq]

end Join.Plan

/-! ## Scopes -/

namespace Statement

/-- Every join's array is in the document or in the element of an earlier join. -/
def Scoped : List String → List ArrayJoin → Prop
  | _, [] => True
  | bound, j :: rest =>
    (∀ label, j.array.source = .element label → label ∈ bound) ∧ Scoped (j.label :: bound) rest

theorem Scoped.mono {joins : List ArrayJoin} {bound more : List String} (h : Scoped bound joins)
    (hb : ∀ l ∈ bound, l ∈ more) : Scoped more joins := by
  induction joins generalizing bound more with
  | nil => trivial
  | cons j rest ih =>
    refine ⟨fun l hl => hb l (h.1 l hl), ih h.2 fun l hl => ?_⟩
    rcases List.mem_cons.mp hl with rfl | hl
    · exact List.mem_cons_self ..
    · exact List.mem_cons_of_mem _ (hb l hl)

theorem Scoped.append {a b : List ArrayJoin} {bound : List String} (ha : Scoped bound a) (hb : Scoped bound b) :
    Scoped bound (a ++ b) := by
  induction a generalizing bound with
  | nil => exact hb
  | cons j rest ih => exact ⟨ha.1, ih ha.2 (hb.mono fun l hl => List.mem_cons_of_mem _ hl)⟩

theorem sourceOf_element {p : Join.Plan} {o : Option Nat} {label : String} (h : sourceOf p o = .element label) :
    ∃ i, o = some i ∧ p.keys[i]? = some label := by
  cases o with
  | none => cases h
  | some i =>
    refine ⟨i, rfl, ?_⟩
    rw [Join.Plan.getElem?_keys]
    cases hj : p.joins[i]? with
    | none => simp [sourceOf, hj] at h
    | some j => simpa [sourceOf, hj, Join.Plan.label_eq hj] using h

theorem below_scoped (p : Join.Plan) (depth : Nat) (parent : Option Nat) (bound : List String)
    (hb : ∀ i label, parent = some i → p.keys[i]? = some label → label ∈ bound) :
    Scoped bound ((p.below depth parent).map (arrayJoin p)) := by
  induction depth generalizing parent bound with
  | zero => trivial
  | succ d ih =>
    simp only [Join.Plan.below, List.map_flatMap, List.map_cons]
    have hchildren : ∀ e ∈ p.children parent, p.joins[e.1]? = some e.2 ∧ e.2.parent = parent :=
      fun e he => Join.Plan.mem_children.mp he
    generalize p.children parent = entries at hchildren
    induction entries with
    | nil => trivial
    | cons e rest ihr =>
      obtain ⟨hj, hpar⟩ := hchildren e (List.mem_cons_self ..)
      have hhead : Scoped bound (arrayJoin p e.2 :: (p.below d (some e.1)).map (arrayJoin p)) := by
        refine ⟨fun label hl => ?_, ih (some e.1) _ fun i label hi hk => ?_⟩
        · obtain ⟨i, hi, hk⟩ := sourceOf_element hl
          exact hb i label (hpar.symm.trans hi) hk
        · cases hi
          rw [Join.Plan.getElem?_keys, hj] at hk
          cases hk
          rw [arrayJoin, Join.Plan.label_eq hj]
          exact List.mem_cons_self ..
      exact hhead.append (ihr fun x hx => hchildren x (List.mem_cons_of_mem _ hx))

theorem arrayJoins_scoped (p : Join.Plan) : Scoped [] (arrayJoins p) :=
  below_scoped p _ none [] fun i label hi => by cases hi

theorem arrayJoins_labels {p : Join.Plan} (h : p.Upward) : ((arrayJoins p).map (·.label)).Perm p.keys := by
  have hlabels : p.joins.map (·.label) = p.keys := List.map_congr_left p.labelled
  rw [arrayJoins, List.map_map, ← hlabels]
  exact (Join.Plan.ordered_perm h).map _

/-- Every emitted join is that of an array that was asked for, read where the array is. -/
theorem arrayJoins_sound {p : Join.Plan} {seen sorted : List Path.Crossing} (h : p.Covers seen sorted) {j : ArrayJoin}
    (hj : j ∈ arrayJoins p) : ∃ c ∈ seen, j.label = Path.dotted c.names ∧ j.array = c.array := by
  obtain ⟨i, hi, rfl⟩ := List.mem_map.mp hj
  have hmem := (Join.Plan.ordered_perm h.parent_lt).mem_iff.mp hi
  obtain ⟨c, hc, hk, hn, hp⟩ := h.sound i hmem
  refine ⟨c, hc, (p.labelled i hmem).trans hk, ?_⟩
  rw [arrayJoin, hn.sourceOf, hp]

end Statement

end DocQuery
