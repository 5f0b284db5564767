/-
  DocQuery.Proofs.Json.Canonical — documents in the form in which they are kept.

  In canonical form the keys of an object stand in order, each once, and a value that has this form
  is its own canonical form (`Canonical.eq`). Reading changes numbers and no keys, so what the
  text of a canonical value is read as is canonical too (`Canonical.reread`). A document is therefore
  got back from the text it is kept as exactly when each of its numbers is (`decode_encode_iff`).
-/

import DocQuery.Collection
import DocQuery.Proofs.Json.RoundTrip
import DocQuery.Proofs.Entries

namespace DocQuery

namespace Json

open Schema

/-- In every object the keys are in order. -/
inductive Canonical : Json → Prop
  | null : Canonical .null
  | bool (b : Bool) : Canonical (.bool b)
  | int (n : Int) : Canonical (.int n)
  | float (x : Float) : Canonical (.float x)
  | string (s : String) : Canonical (.string s)
  | array {items : List Json} : (∀ j ∈ items, Canonical j) → Canonical (.array items)
  | object {members : List (String × Json)} :
    Ordered members → (∀ m ∈ members, Canonical m.2) → Canonical (.object members)

theorem canonicalItems_eq (items : List Json) : canonicalItems items = items.map canonical := by
  induction items with
  | nil => rfl
  | cons j rest ih => rw [canonicalItems, ih, List.map_cons]

theorem canonicalMembers_eq (members : List (String × Json)) :
    canonicalMembers members = members.map fun m => (m.1, m.2.canonical) := by
  induction members with
  | nil => rfl
  | cons m rest ih => rw [canonicalMembers, ih, List.map_cons]

mutual

theorem canonical_isCanonical : (j : Json) → Canonical j.canonical
  | .null => .null
  | .bool b => .bool b
  | .int n => .int n
  | .float x => .float x
  | .string s => .string s
  | .array items => .array (canonicalItems_areCanonical items)
  | .object members => by
    rw [canonical]
    apply Canonical.object (sortEntries_ordered _)
    intro m hm
    exact canonicalMembers_areCanonical members m (mem_sortEntries hm)

theorem canonicalItems_areCanonical : (l : List Json) → ∀ j ∈ canonicalItems l, Canonical j
  | [], _, h => nomatch h
  | j :: rest, k, h => by
    rcases List.mem_cons.mp h with rfl | h
    · exact canonical_isCanonical j
    · exact canonicalItems_areCanonical rest k h

theorem canonicalMembers_areCanonical : (l : List (String × Json)) → ∀ m ∈ canonicalMembers l, Canonical m.2
  | [], _, h => nomatch h
  | (_, j) :: rest, m, h => by
    rcases List.mem_cons.mp h with rfl | h
    · exact canonical_isCanonical j
    · exact canonicalMembers_areCanonical rest m h

end

theorem Canonical.eq {j : Json} (h : Canonical j) : j.canonical = j := by
  induction h with
  | null => rfl
  | bool b => rfl
  | int n => rfl
  | float x => rfl
  | string s => rfl
  | @array items _ ih =>
    rw [canonical, canonicalItems_eq, List.map_congr_left ih, List.map_id']
  | @object members hordered _ ih =>
    have hsame : ∀ m ∈ members, (m.1, m.2.canonical) = m := by
      intro m hm
      rw [ih m hm]
    rw [canonical, canonicalMembers_eq, List.map_congr_left hsame, List.map_id',
      sortEntries_of_ordered hordered]

theorem canonical_canonical (j : Json) : j.canonical.canonical = j.canonical := (canonical_isCanonical j).eq

/-! ## Rereading -/

theorem scaled?_canonical {t : NumberText} {k : Json} (h : t.scaled? = some k) : Canonical k := by
  unfold NumberText.scaled? at h
  split at h
  · rename_i n _
    cases h
    exact .int n
  · obtain ⟨x, -, rfl⟩ := Option.map_eq_some_iff.mp h
    exact .float _

theorem alone_canonical {text : String} (htext : text = "null" ∨ ∃ p : Parts, p.Sound ∧ text.toList = p.chars)
    {k : Json} (h : alone NumberText.scaled? text = some k) : Canonical k := by
  rcases htext with rfl | ⟨p, hp, htext⟩
  · cases h
    exact .null
  · rw [alone_parts hp htext] at h
    exact scaled?_canonical h

variable {number : NumberText → Option Json} {depth : Nat}

theorem mem_rereadItems {l l' : List Json} (h : rereadItems number depth l = some l') :
    ∀ k ∈ l', ∃ j ∈ l, j.reread number depth = some k := by
  induction l generalizing l' with
  | nil =>
    cases h
    intro k hk
    cases hk
  | cons j rest ih =>
    obtain ⟨k, hk, h⟩ := Option.bind_eq_some_iff.mp h
    obtain ⟨more, hmore, rfl⟩ := Option.map_eq_some_iff.mp h
    refine List.forall_mem_cons.mpr ⟨⟨j, List.mem_cons_self, hk⟩, fun k' hk' => ?_⟩
    obtain ⟨j', hj', e⟩ := ih hmore k' hk'
    exact ⟨j', List.mem_cons_of_mem _ hj', e⟩

theorem mem_rereadMembers {l l' : List (String × Json)} (h : rereadMembers number depth l = some l') :
    l'.map (·.1) = l.map (·.1) ∧ ∀ m' ∈ l', ∃ m ∈ l, m.2.reread number depth = some m'.2 := by
  induction l generalizing l' with
  | nil =>
    cases h
    refine ⟨rfl, ?_⟩
    intro m' hm'
    cases hm'
  | cons m rest ih =>
    obtain ⟨k, hk, h⟩ := Option.bind_eq_some_iff.mp h
    obtain ⟨more, hmore, rfl⟩ := Option.map_eq_some_iff.mp h
    obtain ⟨hkeys, hvalues⟩ := ih hmore
    refine ⟨congrArg (m.1 :: ·) hkeys, ?_⟩
    refine List.forall_mem_cons.mpr ⟨⟨m, List.mem_cons_self, hk⟩, fun m' hm' => ?_⟩
    obtain ⟨old, hold, e⟩ := hvalues m' hm'
    exact ⟨old, List.mem_cons_of_mem _ hold, e⟩

theorem ordered_of_keys {l l' : List (String × Json)} (hkeys : l'.map (·.1) = l.map (·.1)) (h : Ordered l) :
    Ordered l' := by
  have hl : (l.map (·.1)).Pairwise (· < ·) := List.pairwise_map.mpr h
  rw [← hkeys] at hl
  exact List.pairwise_map.mp hl

/-- What is read where a canonical value is written is canonical. -/
theorem Canonical.reread {j k : Json} (h : Canonical j) (hk : j.reread NumberText.scaled? depth = some k) :
    Canonical k := by
  induction h generalizing depth k with
  | null =>
    cases depth <;> (cases hk; exact .null)
  | bool b =>
    cases depth <;> (cases hk; exact .bool b)
  | string s =>
    cases depth <;> (cases hk; exact .string s)
  | int n =>
    apply alone_canonical (.inr ⟨_, intParts_sound n, intText_parts n⟩)
    cases depth <;> exact hk
  | float x =>
    apply alone_canonical (floatText_parts x)
    cases depth <;> exact hk
  | array _ ih =>
    cases depth with
    | zero => cases hk
    | succ depth =>
      obtain ⟨l, hl, rfl⟩ := Option.map_eq_some_iff.mp hk
      apply Canonical.array
      intro k hk
      obtain ⟨j, hj, hread⟩ := mem_rereadItems hl k hk
      exact ih j hj hread
  | object hordered _ ih =>
    cases depth with
    | zero => cases hk
    | succ depth =>
      obtain ⟨l, hl, rfl⟩ := Option.map_eq_some_iff.mp hk
      obtain ⟨hkeys, hvalues⟩ := mem_rereadMembers hl
      apply Canonical.object (ordered_of_keys hkeys hordered)
      intro m' hm'
      obtain ⟨m, hm, hread⟩ := hvalues m' hm'
      exact ih m hm hread

end Json

/-! ## Documents -/

/-- A document is got back from its text exactly when its canonical form is. -/
theorem Collection.decode_encode_iff {document : Json} :
    Collection.decode (Collection.encode document) = .ok document.canonical ↔ document.canonical.Restored := by
  have hcanonical := Json.canonical_isCanonical document
  rw [← Json.read?_compact_iff, Collection.decode, Collection.encode]
  constructor
  · intro h
    split at h
    · rename_i k hk
      have hsame : k.canonical = k := (hcanonical.reread (Json.read?_eq _ ▸ hk)).eq
      rw [hk, ← hsame, Except.ok.inj h]
    · cases h
  · intro h
    rw [h]
    exact congrArg Except.ok (Json.canonical_canonical document)

end DocQuery
