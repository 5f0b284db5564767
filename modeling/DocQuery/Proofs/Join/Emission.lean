/-
  DocQuery.Proofs.Join.Emission — the emission order of joins is the order of their keys.

  `ordered` lists a plan's joins depth first, siblings by key. A stack does the same: the children of the
  join that is taken off go on top (`Drains`), and it is empty after as many turns as there are joins
  (`drains_ordered`). For the paths of a built schema this is no other order than that of the keys
  themselves, in which the index lists them (`byKey`). Two reasons: the dot sorts below every character of a
  name, so a join and all below it stay together, ahead of every key that only begins like theirs
  (`dotted_lt_of_apart`); and an array that another array's path goes through is a join of its own between
  the two, so no sibling's names begin with all the names of another (`Covers.siblings_apart`).
-/

import DocQuery.Proofs.Join.Canonical
import DocQuery.Proofs.Join.Runs
import DocQuery.Proofs.Entries
import DocQuery.Proofs.Text.Order

namespace DocQuery

open DocQuery.Path Statement

/-! ## Dotted names -/

namespace Path

theorem dotted_append {a b : List String} (ha : a ≠ []) (hb : b ≠ []) :
    (dotted (a ++ b)).toList = (dotted a).toList ++ '.' :: (dotted b).toList := by
  have h : dotted (a ++ b) = dotted a ++ "." ++ dotted b := String.intercalate_append_of_ne_nil ha hb
  rw [h]
  simp

/-- The characters of dotted identifiers. -/
theorem dotted_char {names : List String} (h : ∀ n ∈ names, Name.Identifier n) {c : Char}
    (hc : c ∈ (dotted names).toList) : c = '.' ∨ Name.isPart c = true := by
  induction names with
  | nil => cases hc
  | cons n rest ih =>
    obtain ⟨hn, hrest⟩ := List.forall_mem_cons.mp h
    by_cases hnil : rest = []
    · subst hnil
      rw [toList_dotted] at hc
      simp only [List.map_cons, List.map_nil, List.intercalate_singleton] at hc
      exact .inr (hn.isPart hc)
    · have hsplit : (dotted ([n] ++ rest)).toList = _ := dotted_append (List.cons_ne_nil n []) hnil
      rw [List.singleton_append] at hsplit
      rw [hsplit] at hc
      rcases List.mem_append.mp hc with hc | hc
      · rw [toList_dotted] at hc
        simp only [List.map_cons, List.map_nil, List.intercalate_singleton] at hc
        exact .inr (hn.isPart hc)
      · exact (List.mem_cons.mp hc).elim .inl (ih hrest)

/-- Names whose text goes on with a dot begin with all the names of the shorter text. -/
theorem prefix_of_dotted {a b : List String} (ha : ∀ n ∈ a, Name.Identifier n) (hb : ∀ n ∈ b, Name.Identifier n)
    (hane : a ≠ []) {rest : List Char} (h : (dotted b).toList = (dotted a).toList ++ '.' :: rest) : a <+: b := by
  have hbne : b ≠ [] := by
    rintro rfl
    simp [dotted] at h
  have hsplit := separated_split (c := '.') (by decide) hb hbne
  rw [← toList_dotted, h, List.splitOn_append_cons_self, toList_dotted,
    separated_split (c := '.') (by decide) ha hane] at hsplit
  exact (List.prefix_map_iff_of_injective fun _ _ => String.toList_inj.mp).mp ⟨_, hsplit⟩

/-- More names come behind a dot. -/
theorem dotted_begins {a x : List String} (hane : a ≠ []) (h : a <+: x) :
    x = a ∨ (dotted a).toList ++ ['.'] <+: (dotted x).toList := by
  obtain ⟨more, rfl⟩ := h
  by_cases hmore : more = []
  · exact .inl (by rw [hmore, List.append_nil])
  · exact .inr ⟨_, by rw [dotted_append hane hmore, List.append_assoc, List.singleton_append]⟩

/-- A text stays before another whose names do not begin with its own, whatever names are added to either. -/
theorem dotted_lt_of_apart {a b x y : List String} (ha : ∀ n ∈ a, Name.Identifier n) (hb : ∀ n ∈ b, Name.Identifier n)
    (hane : a ≠ []) (hbne : b ≠ []) (hax : a <+: x) (hby : b <+: y) (hlt : dotted a < dotted b) (hapart : ¬ a <+: b) :
    dotted x < dotted y := by
  have hbegins : ∀ {u v : List String}, u ≠ [] → u <+: v → (dotted u).toList <+: (dotted v).toList := by
    intro u v hu huv
    rcases dotted_begins hu huv with rfl | hdot
    · exact List.prefix_refl _
    · exact (List.prefix_append _ _).trans hdot
  rw [String.lt_iff]
  rcases Text.prefix_or_precedes (String.lt_iff.mp hlt) with ⟨rest, hrest⟩ | hpart
  · -- The longer text goes on with a character of a name, which comes after the dot.
    cases rest with
    | nil =>
      rw [List.append_nil] at hrest
      exact absurd (dotted_injective ha hb (String.toList_inj.mp hrest) ▸ List.prefix_refl a) hapart
    | cons c more =>
      have hc : Name.isPart c = true := by
        refine (dotted_char hb (hrest ▸ List.mem_append_right _ List.mem_cons_self)).resolve_left ?_
        rintro rfl
        exact hapart (prefix_of_dotted ha hb hane hrest.symm)
      have hgoes : (dotted a).toList ++ [c] <+: (dotted y).toList :=
        List.IsPrefix.trans ⟨more, by rw [← hrest, List.append_assoc]; rfl⟩ (hbegins hbne hby)
      rcases dotted_begins hane hax with rfl | hdot
      · obtain ⟨z, hz⟩ := hgoes
        rw [← hz, List.append_assoc]
        exact Text.lt_append (by simp)
      · exact Text.Precedes.lt ⟨_, '.', c, Name.dot_lt_of_isPart hc, hdot, hgoes⟩
  · exact (hpart.mono (hbegins hane hax) (hbegins hbne hby)).lt

/-! ## Arrays on the way to arrays -/

/-- A walk that has passed at least these names reads from a source labelled with at least these. -/
def Position.Beyond (names : List String) (p : Position) : Prop :=
  ∃ above, Labelled above p.place.source ∧ p.names = above ++ p.place.path ∧ names <+: above

theorem Position.beyond_element {names : List String} (h : names ≠ []) :
    Position.Beyond names ⟨names, ⟨.element (dotted names), []⟩⟩ :=
  ⟨names, ⟨h, rfl⟩, (List.append_nil _).symm, List.prefix_refl _⟩

theorem Position.Beyond.next {names : List String} {p : Position} (h : p.Beyond names) (n : Node) :
    (p.next n).Beyond names := by
  obtain ⟨above, hl, hn, hbegins⟩ := h
  by_cases hk : n.kind = .objectArray
  · rw [next_array hk]
    refine ⟨p.names ++ [n.name], ⟨by simp, rfl⟩, by simp, ?_⟩
    rw [hn, List.append_assoc]
    exact hbegins.trans (List.prefix_append _ _)
  · rw [next_member hk]
    exact ⟨above, hl, by simp [hn], hbegins⟩

theorem Position.Beyond.after {names : List String} {p : Position} (h : p.Beyond names) (nodes : List Node) :
    (p.after nodes).Beyond names := by
  induction nodes generalizing p with
  | nil => exact h
  | cons n rest ih => exact ih (h.next n)

theorem Position.after_append (p : Position) (a b : List Node) : p.after (a ++ b) = (p.after a).after b :=
  List.foldl_append

end Path

namespace ResolvedPath

variable {s : Schema} {path path' : String} {r r' : ResolvedPath}

/-- An array whose names go on behind those of another array of the schema is read from within that one. -/
theorem crossed_above (h : resolve s path = .ok r) (h' : resolve s path' = .ok r') {c c' : Crossing}
    (hc : c ∈ r.arrays) (hc' : c' ∈ r'.arrays) (hbegins : c.names <+: c'.names) (hne : c.names ≠ c'.names) :
    ∃ above, Labelled above c'.array.source ∧ c.names <+: above ∧ above <+: c'.names := by
  obtain ⟨a, n, b, hr, hn, rfl⟩ := mem_crossingsFrom.mp hc
  obtain ⟨x, m, y, hr', -, rfl⟩ := mem_crossingsFrom.mp hc'
  simp only [Position.after_names, Position.start, List.nil_append] at hbegins hne
  have hnames : (a ++ [n]).map (·.name) <+: x.map (·.name) := by
    rw [List.map_append, List.map_singleton]
    exact (List.prefix_concat_iff.mp hbegins).resolve_left hne
  -- The same declared names are the same nodes.
  have htake : a ++ [n] = x.take (a ++ [n]).length := by
    refine @Declared.eq_of_names s (.object s.root) _ _ ?_ ?_ ?_
    · exact Declared.append (b := b ++ [r.terminal]) (by simpa [nodes, hr] using (resolve_declared h).1)
    · refine Declared.append (b := x.drop (a ++ [n]).length ++ m :: y ++ [r'.terminal]) ?_
      have hdeclared := (resolve_declared h').1
      rw [nodes, hr'] at hdeclared
      rw [← List.append_assoc, ← List.append_assoc, List.take_append_drop]
      exact hdeclared
    · rw [List.map_take]
      have := List.prefix_iff_eq_take.mp hnames
      rwa [List.length_map] at this
  have hx : x = a ++ n :: x.drop (a ++ [n]).length := by
    conv_lhs => rw [← List.take_append_drop (a ++ [n]).length x, ← htake]
    simp
  have hbeyond : (Position.start.after x).Beyond ((Position.start.after a).names ++ [n.name]) := by
    rw [hx, Position.after_append, Position.after_cons, Position.next_array hn]
    exact (Position.beyond_element (by simp)).after _
  obtain ⟨above, hl, habove, hbelow⟩ := hbeyond
  refine ⟨above, hl, hbelow, ?_⟩
  rw [habove, List.append_assoc]
  exact List.prefix_append _ _

end ResolvedPath

namespace Join.Plan

variable {p : Plan} {seen sorted : List Crossing} {s : Schema}

/-! ## Keys along the forest -/

/-- What is under a join has its names, and more. -/
theorem Under.down_begins {c i : Nat} {a b : List String} (h : p.Under c i) (ha : p.Down (some c) a)
    (hb : p.Down (some i) b) : a <+: b := by
  induction h generalizing b with
  | self => exact ha.unique hb ▸ List.prefix_refl a
  | child hj hk _ ih =>
    cases hb with
    | join hj' hparent =>
      rw [hj] at hj'; cases hj'
      exact (ih (hk ▸ hparent)).trans (List.prefix_append _ _)

/-- A join's key comes before all keys under it. -/
theorem Covers.key_lt_of_under (h : p.Covers seen sorted) (hseen : Resolved s seen) {c i : Nat} (hu : p.Under c i)
    (hne : c ≠ i) {jc ji : Join} (hc : p.joins[c]? = some jc) (hi : p.joins[i]? = some ji) : jc.key < ji.key := by
  induction hu generalizing ji with
  | self => exact absurd rfl hne
  | @child i k j hj hk hu ih =>
    rw [hj] at hi; cases hi
    have hlinked := h.linked hseen hj
    rw [Linked, hk] at hlinked
    obtain ⟨-, q, hq, hkey⟩ := hlinked
    have hlt : q.key < j.key := by
      rw [hkey, String.append_assoc, String.lt_iff, String.toList_append]
      exact Text.lt_append (by simp)
    by_cases hck : c = k
    · subst hck
      rw [hc] at hq; cases hq
      exact hlt
    · exact (ih hck hq).trans hlt

theorem Covers.crossing_of_join (h : p.Covers seen sorted) (hs : s.Built) (hseen : Resolved s seen) {i : Nat} {j : Join}
    (hj : p.joins[i]? = some j) {names : List String} (hdown : p.Down (some i) names) :
    ∃ r text c, resolve s text = .ok r ∧ c ∈ r.arrays ∧ c.names = names ∧ j.key = dotted names ∧
      p.Names j.parent c.array.source ∧ names ≠ [] ∧ ∀ n ∈ names, Name.Identifier n := by
  obtain ⟨c, hc, hkey, hnames, -⟩ := h.sound j (List.mem_of_getElem? hj)
  obtain ⟨r, hr, text, hresolve⟩ := hseen c hc
  obtain ⟨-, hne, hid⟩ := ResolvedPath.array_plain hs hresolve hr
  obtain ⟨spelled, hspelled, hidentifiers, hspells⟩ := h.down hs hseen i j hj
  obtain rfl := hdown.unique hspelled
  have hsame : c.names = names := dotted_injective hid hidentifiers (hkey.symm.trans hspells)
  exact ⟨r, text, c, hresolve, hr, hsame, hspells, hnames, hsame ▸ hne, hidentifiers⟩

/-- No sibling's names begin with all the names of another. -/
theorem Covers.siblings_apart (h : p.Covers seen sorted) (hs : s.Built) (hseen : Resolved s seen) {a b : Nat}
    {ja jb : Join} (ha : p.joins[a]? = some ja) (hb : p.joins[b]? = some jb) (hparent : ja.parent = jb.parent)
    (hkey : ja.key ≠ jb.key) {na nb : List String} (hna : p.Down (some a) na) (hnb : p.Down (some b) nb) :
    ¬ na <+: nb := by
  intro hbegins
  obtain ⟨r, text, c, hr, hc, rfl, hkeya, hsource, -, hida⟩ := h.crossing_of_join hs hseen ha hna
  obtain ⟨r', text', c', hr', hc', rfl, hkeyb, hsource', -, hidb⟩ := h.crossing_of_join hs hseen hb hnb
  have hne : c.names ≠ c'.names := fun e => hkey (by rw [hkeya, hkeyb, e])
  obtain ⟨above, hl, hbeyond, hwithin⟩ := ResolvedPath.crossed_above hr hr' hc hc' hbegins hne
  obtain ⟨hpath, above', hl', hnames⟩ := ResolvedPath.array_addressed hc
  -- One parent, one source, and so one list of names above both.
  have hsame : c.array.source = c'.array.source := by
    rw [← hsource.sourceOf, ← hsource'.sourceOf, hparent]
  have habove : above' = above := by
    refine (hsame ▸ hl').injective hl (fun n hn => hida n ?_) fun n hn => hidb n (hwithin.subset hn)
    rw [hnames]
    exact List.mem_append_left _ hn
  have hlength := hbeyond.length_le
  rw [hnames, habove, List.length_append] at hlength
  have hpos : 0 < c.array.path.length := List.length_pos_of_ne_nil hpath
  omega

/-- Depth first, keys only rise. -/
theorem Covers.entriesBelow_ordered (h : p.Covers seen sorted) (hs : s.Built) (hseen : Resolved s seen) (depth : Nat)
    (parent : Option Nat) : KeyOrdered (p.entriesBelow depth parent) := by
  induction depth generalizing parent with
  | zero => exact List.Pairwise.nil
  | succ d ih =>
    refine List.pairwise_flatMap.mpr ⟨fun c hc => List.pairwise_cons.mpr ⟨fun e he => ?_, ih _⟩, ?_⟩
    · obtain ⟨hj, -⟩ := mem_children.mp hc
      obtain ⟨he', hu⟩ := mem_subtree hc (List.mem_cons_of_mem _ he)
      refine h.key_lt_of_under hseen hu ?_ hj he'
      obtain ⟨-, c', hc', hu'⟩ := mem_entriesBelow he
      obtain ⟨hj', hpar⟩ := mem_children.mp hc'
      have hup := h.parent_lt _ _ hj' _ hpar
      have hle := hu'.le h.parent_lt
      omega
    · refine (children_ordered h.nodup parent).imp_of_mem fun {a b} ha hb hlt x hx y hy => ?_
      obtain ⟨hja, hpa⟩ := mem_children.mp ha
      obtain ⟨hjb, hpb⟩ := mem_children.mp hb
      obtain ⟨hjx, hux⟩ := mem_subtree ha hx
      obtain ⟨hjy, huy⟩ := mem_subtree hb hy
      obtain ⟨na, hna, hida, hka⟩ := h.down hs hseen _ _ hja
      obtain ⟨nb, hnb, hidb, hkb⟩ := h.down hs hseen _ _ hjb
      obtain ⟨nx, hnx, -, hkx⟩ := h.down hs hseen _ _ hjx
      obtain ⟨ny, hny, -, hky⟩ := h.down hs hseen _ _ hjy
      have hapart := h.siblings_apart hs hseen hja hjb (hpa.trans hpb.symm) hlt.ne hna hnb
      obtain ⟨-, -, -, -, -, -, -, -, hane, -⟩ := h.crossing_of_join hs hseen hja hna
      obtain ⟨-, -, -, -, -, -, -, -, hbne, -⟩ := h.crossing_of_join hs hseen hjb hnb
      rw [hka, hkb] at hlt
      rw [hkx, hky]
      exact dotted_lt_of_apart hida hidb hane hbne (hux.down_begins hna hnx) (huy.down_begins hnb hny) hlt hapart

theorem Covers.ordered_keys (h : p.Covers seen sorted) (hs : s.Built) (hseen : Resolved s seen) :
    p.ordered.Pairwise fun j k => j.key < k.key := by
  rw [ordered, below_eq]
  exact List.pairwise_map.mpr (h.entriesBelow_ordered hs hseen _ none)

/-! ## The stack -/

/-- The joins that come off a stack when the children of each are put on top in its place, the least key
uppermost, until the stack is empty. -/
inductive Drains (p : Plan) : List (Nat × Join) → List Join → Prop
  | done : Drains p [] []
  | pop {e : Nat × Join} {stack : List (Nat × Join)} {out : List Join} :
      Drains p (p.children (some e.1) ++ stack) out → Drains p (e :: stack) (e.2 :: out)

theorem Drains.unique {stack : List (Nat × Join)} {out out' : List Join} (h : p.Drains stack out)
    (h' : p.Drains stack out') : out = out' := by
  induction h generalizing out' with
  | done => cases h'; rfl
  | pop _ ih =>
    cases h' with
    | pop h' => rw [ih h']

/-- What is below some joins comes off before the rest of the stack. Joins at most `depth` positions before the
last one have at most that many levels below them. -/
theorem drains_below (h : p.Upward) (depth : Nat) (entries : List (Nat × Join))
    (hentries : ∀ e ∈ entries, p.joins.length ≤ e.1 + 1 + depth) {stack : List (Nat × Join)} {out : List Join}
    (hstack : p.Drains stack out) :
    p.Drains (entries ++ stack) ((entries.flatMap fun e => e.2 :: p.below depth (some e.1)) ++ out) := by
  induction depth generalizing entries stack out with
  | zero =>
    induction entries with
    | nil => exact hstack
    | cons e rest ih =>
      obtain ⟨he, hrest⟩ := List.forall_mem_cons.mp hentries
      have hnone : p.children (some e.1) = [] := by
        refine List.eq_nil_iff_forall_not_mem.mpr fun c hc => ?_
        obtain ⟨hj, hpar⟩ := mem_children.mp hc
        obtain ⟨hlt, -⟩ := List.getElem?_eq_some_iff.mp hj
        have hup := h _ _ hj _ hpar
        omega
      refine .pop ?_
      rw [hnone]
      exact ih hrest
  | succ d ihd =>
    induction entries with
    | nil => exact hstack
    | cons e rest ih =>
      obtain ⟨he, hrest⟩ := List.forall_mem_cons.mp hentries
      simp only [List.flatMap_cons, List.cons_append, List.append_assoc]
      refine .pop ?_
      refine ihd (p.children (some e.1)) (fun c hc => ?_) (ih hrest)
      obtain ⟨hj, hpar⟩ := mem_children.mp hc
      have hup := h _ _ hj _ hpar
      omega

/-- The stack of the roots is emptied, and what comes off is the emission order. -/
theorem drains_ordered (h : p.Upward) : p.Drains (p.children none) p.ordered := by
  cases hlength : p.joins.length with
  | zero =>
    have hnone : p.children none = [] := by
      refine List.eq_nil_iff_forall_not_mem.mpr fun c hc => ?_
      obtain ⟨hlt, -⟩ := List.getElem?_eq_some_iff.mp (mem_children.mp hc).1
      omega
    rw [hnone, ordered, hlength]
    exact .done
  | succ d =>
    have hdrains := drains_below h d (p.children none) (fun c _ => by omega) .done
    rw [List.append_nil, List.append_nil] at hdrains
    rw [ordered, hlength]
    exact hdrains

/-! ## The index -/

/-- What every new join and every mark keeps, adding paths keeps. -/
theorem run_induction {P : Plan → Prop} (hpush : ∀ p key parent pointer h, P p → P (p.push key parent pointer h))
    (hmark : ∀ p i, P p → P (p.mark i)) (hp : P p) (requests : List Request) : P (p.run requests) := by
  have hvisit : ∀ p fromSort key parent pointer, P p → P (p.visit fromSort key parent pointer) := by
    intro p fromSort key parent pointer hp
    have hobtain : P (p.obtain key parent pointer).1 := by
      rcases obtain_cases p key parent pointer with ⟨i, -, h⟩ | ⟨-, hnew, h⟩
      · rw [h]; exact hp
      · rw [h]; exact hpush p key parent pointer hnew hp
    unfold visit
    cases fromSort
    · exact hobtain
    · exact hmark _ _ hobtain
  have hfollow : ∀ fromSort nodes p parent seen pointer, P p → P (follow fromSort p parent seen pointer nodes).1 := by
    intro fromSort nodes
    induction nodes with
    | nil => exact fun p parent seen pointer hp => hp
    | cons n rest ih =>
      intro p parent seen pointer hp
      by_cases hn : n.kind = .objectArray
      · rw [follow_array hn]
        exact ih _ _ _ _ (hvisit p fromSort _ _ _ hp)
      · rw [follow_member hn]
        exact ih _ _ _ _ hp
  induction requests generalizing p with
  | nil => exact hp
  | cons r rest ih => exact ih (hfollow r.fromSort r.path.before p none [] [] hp)

/-- The index holds the keys with their positions, the last join first. -/
theorem run_index (requests : List Request) :
    (Plan.empty.run requests).index = (Plan.empty.run requests).keys.zipIdx.reverse := by
  refine run_induction (P := fun p => p.index = p.keys.zipIdx.reverse) ?_ ?_ rfl requests
  · intro p key parent pointer h hp
    rw [keys_push, List.zipIdx_append, List.reverse_append, ← hp]
    simp [push, keys]
  · intro p i hp
    rw [keys_mark]
    exact hp

/-- The joins with their positions as the index lists them, in byte order of the keys. -/
def byKey (p : Plan) : List (Nat × Join) :=
  (sortEntries p.index).filterMap fun e => p.joins[e.2]?.map (e.2, ·)

theorem sortedIndex_perm (hindex : p.index = p.keys.zipIdx.reverse) (hnodup : p.keys.Nodup) :
    (sortEntries p.index).Perm p.keys.zipIdx := by
  have hkeys : (p.index.map (·.1)).Nodup := by
    rw [hindex, List.map_reverse, List.zipIdx_map_fst]
    exact List.nodup_reverse.mpr hnodup
  refine (sortEntries_perm hkeys).trans ?_
  rw [hindex]
  exact List.reverse_perm _

/-- The index lists every join once, with its position. -/
theorem byKey_perm (hindex : p.index = p.keys.zipIdx.reverse) (hnodup : p.keys.Nodup) :
    p.byKey.Perm (p.joins.zipIdx.map fun e => (e.2, e.1)) := by
  have hlisted : p.keys.zipIdx.filterMap (fun e => p.joins[e.2]?.map (e.2, ·)) = p.joins.zipIdx.map fun e => (e.2, e.1) := by
    rw [keys, List.zipIdx_map, List.filterMap_map, ← List.filterMap_eq_map]
    refine List.filterMap_congr fun e he => ?_
    simp [List.mem_zipIdx_iff_getElem?.mp he]
  rw [← hlisted]
  exact (sortedIndex_perm hindex hnodup).filterMap _

theorem byKey_ordered (hindex : p.index = p.keys.zipIdx.reverse) (hnodup : p.keys.Nodup) : KeyOrdered p.byKey := by
  have hkey : ∀ e ∈ sortEntries p.index, ∀ x, p.joins[e.2]?.map (e.2, ·) = some x → x.2.key = e.1 := by
    intro e he x hx
    obtain ⟨j, hj, rfl⟩ := Option.map_eq_some_iff.mp hx
    have hat := List.mem_zipIdx_iff_getElem?.mp ((sortedIndex_perm hindex hnodup).mem_iff.mp he)
    rw [getElem?_keys, hj] at hat
    exact Option.some.inj hat
  refine List.pairwise_filterMap.mpr ((sortEntries_ordered p.index).imp_of_mem fun he hf hlt x hx y hy => ?_)
  rw [hkey _ he x hx, hkey _ hf y hy]
  exact hlt

/-- The index goes through the children of a join in the order in which they are put on the stack. -/
theorem children_eq_filter (hindex : p.index = p.keys.zipIdx.reverse) (hnodup : p.keys.Nodup) (parent : Option Nat) :
    p.children parent = p.byKey.filter fun e => e.2.parent == parent := by
  have hperm := (byKey_perm hindex hnodup).filter fun e => e.2.parent == parent
  rw [List.filter_map] at hperm
  exact ((children_perm p parent).trans hperm.symm).eq_of_pairwise (fun e f _ _ hef hfe => absurd hfe (lt_asymm hef))
    (children_ordered hnodup parent) ((byKey_ordered hindex hnodup).filter _)

/-! ## Emission -/

/-- A list in strict order of keys has what is less ahead of what is greater. -/
theorem sublist_of_key_lt {joins : List Join} (h : joins.Pairwise fun j k => j.key < k.key) {j k : Join}
    (hj : j ∈ joins) (hk : k ∈ joins) (hlt : j.key < k.key) : [j, k].Sublist joins := by
  obtain ⟨before, after, rfl⟩ := List.append_of_mem hj
  obtain ⟨-, hafter, hbefore⟩ := List.pairwise_append.mp h
  refine (List.Sublist.cons_cons j ?_).trans (List.sublist_append_right _ _)
  rcases List.mem_append.mp hk with hk | hk
  · exact absurd hlt (lt_asymm (hbefore k hk j List.mem_cons_self))
  · rcases List.mem_cons.mp hk with rfl | hk
    · exact absurd hlt (lt_irrefl _)
    · exact List.singleton_sublist.mpr hk

/-- Whatever paths of a built schema were added to the empty plan: taking joins off a stack, with the children of
each put on top as the index lists them, comes to an end, and lists every join once, in strict byte order of the
keys. That is the order in which the index lists them all, and every join stands before what is under it. -/
theorem ordered_byKey (hs : s.Built) {requests : List Request} (h : Request.Resolved s requests) :
    let p := Plan.empty.run requests
    (∀ parent, p.children parent = p.byKey.filter fun e => e.2.parent == parent) ∧
      (∀ out, p.Drains (p.children none) out ↔ out = p.ordered) ∧
      p.ordered.Perm p.joins ∧
      (p.ordered.Pairwise fun j k => Text.bytes j.key < Text.bytes k.key) ∧
      p.ordered = p.byKey.map (·.2) ∧
      ∀ i k j q, p.joins[i]? = some j → p.joins[k]? = some q → p.Under i k → i ≠ k → [j, q].Sublist p.ordered := by
  intro p
  have hcov : p.Covers (arraysOf requests) (sortArraysOf requests) := Covers.empty.run requests
  have hseen := h.arrays
  have hindex := run_index requests
  have hordered := hcov.ordered_keys hs hseen
  have hperm : p.ordered.Perm p.joins := ordered_perm hcov.parent_lt
  have hdrains := drains_ordered hcov.parent_lt
  refine ⟨children_eq_filter hindex hcov.nodup, fun out => ⟨fun hout => hout.unique hdrains, fun hout => hout ▸ hdrains⟩,
    hperm, hordered.imp fun hlt => Text.bytes_lt_iff.mpr hlt, ?_, fun i k j q hi hk hu hne => ?_⟩
  · have hlisted := (byKey_perm hindex hcov.nodup).map (·.2)
    rw [List.map_map] at hlisted
    have hsame : p.ordered.Perm (p.byKey.map (·.2)) :=
      hperm.trans (List.zipIdx_map_fst 0 p.joins ▸ hlisted.symm)
    exact hsame.eq_of_pairwise (fun j k _ _ hjk hkj => absurd hkj (lt_asymm hjk)) hordered
      (List.pairwise_map.mpr (byKey_ordered hindex hcov.nodup))
  · exact sublist_of_key_lt hordered (hperm.mem_iff.mpr (List.mem_of_getElem? hi))
      (hperm.mem_iff.mpr (List.mem_of_getElem? hk)) (hcov.key_lt_of_under hseen hu hne hi hk)

/-- Parts that hold parts, in two arrays of which one's name begins with the other's. -/
def assembled : Schema :=
  ⟨"Whole", [
    ⟨"Part", [⟨"A", .array (.object "Part")⟩, ⟨"Name", .scalar .string⟩]⟩,
    ⟨"Whole", [⟨"A", .array (.object "Part")⟩, ⟨"A2", .array (.object "Part")⟩]⟩]⟩

def partsOf (name : String) : Node := ⟨name, .objectArray, .object "Part"⟩

def assembledRequests : List Request :=
  [⟨⟨[partsOf "A2", partsOf "A"], ⟨"Name", .scalar, .scalar .string⟩⟩, false⟩,
    ⟨⟨[partsOf "A", partsOf "A", partsOf "A"], ⟨"Name", .scalar, .scalar .string⟩⟩, true⟩]

theorem assembled_resolved : Request.Resolved assembled assembledRequests := by
  intro r hr
  rcases List.mem_cons.mp hr with rfl | hr
  · exact ⟨"A2.A.Name", by decide +kernel⟩
  · obtain rfl := List.mem_singleton.mp hr
    exact ⟨"A.A.A.Name", by decide +kernel⟩

theorem assembled_byKey :
    assembled.Built ∧ Request.Resolved assembled assembledRequests ∧
      (∀ out, (Plan.empty.run assembledRequests).Drains ((Plan.empty.run assembledRequests).children none) out ↔
        out = (Plan.empty.run assembledRequests).ordered) ∧
      (Plan.empty.run assembledRequests).ordered = (Plan.empty.run assembledRequests).byKey.map (·.2) := by
  have hs : assembled.Built := ⟨"Whole", assembled.types, by decide +kernel⟩
  obtain ⟨-, hdrains, -, -, hordered, -⟩ := ordered_byKey hs assembled_resolved
  exact ⟨hs, assembled_resolved, hdrains, hordered⟩

example : (Plan.empty.run assembledRequests).ordered.map (·.key) = ["A", "A.A", "A.A.A", "A2", "A2.A"] := by
  decide +kernel

end Join.Plan

end DocQuery
