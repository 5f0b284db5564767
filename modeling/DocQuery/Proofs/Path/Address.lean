/-
  DocQuery.Proofs.Path.Address — the location that a path is read at is its address.

  A location's source is labelled with the names down to the innermost array and its path has the
  names below, so together they are all names of the path (`ResolvedPath.addressed`). In a built
  schema two paths that are read at one location are one path (`place_injective`).
-/

import DocQuery.Proofs.Path.Resolution

namespace DocQuery

open DocQuery.Path Statement

namespace Path

/-- The names that label a source. -/
def Labelled (names : List String) : Source → Prop
  | .document => names = []
  | .element label => names ≠ [] ∧ label = dotted names

/-- The names passed so far are those of the source and those below it. -/
def Position.Addressed (p : Position) : Prop := ∃ above, Labelled above p.place.source ∧ p.names = above ++ p.place.path

theorem Position.Addressed.next {p : Position} (h : p.Addressed) (n : Node) : (p.next n).Addressed := by
  by_cases hk : n.kind = .objectArray
  · rw [next_array hk]
    exact ⟨p.names ++ [n.name], ⟨by simp, rfl⟩, by simp⟩
  · rw [next_member hk]
    obtain ⟨above, hl, hn⟩ := h
    exact ⟨above, hl, by simp [hn]⟩

theorem Position.Addressed.after {p : Position} (h : p.Addressed) (nodes : List Node) : (p.after nodes).Addressed := by
  induction nodes generalizing p with
  | nil => exact h
  | cons n rest ih => exact ih (h.next n)

theorem Position.start_addressed : Position.start.Addressed := ⟨[], rfl, rfl⟩

/-- Two lists of identifiers that label one source are one list. -/
theorem Labelled.injective {a b : List String} {source : Source} (ha : Labelled a source) (hb : Labelled b source)
    (hia : ∀ n ∈ a, Name.Identifier n) (hib : ∀ n ∈ b, Name.Identifier n) : a = b := by
  cases source with
  | document => exact ha.trans hb.symm
  | element label => exact dotted_injective hia hib (ha.2.symm.trans hb.2)

end Path

/-- The location's names are identifiers, and it is below its source. -/
structure Statement.Location.Plain (l : Location) : Prop where
  path_ne : l.path ≠ []
  path_identifier : ∀ n ∈ l.path, Name.Identifier n
  source_identifier : ∃ above, Labelled above l.source ∧ ∀ n ∈ above, Name.Identifier n

namespace ResolvedPath

theorem addressed (r : ResolvedPath) :
    ∃ above, Labelled above r.place.source ∧ r.names = above ++ r.place.path := by
  obtain ⟨above, hl, hn⟩ := Position.start_addressed.after r.before
  refine ⟨above, hl, ?_⟩
  have hnames : r.names = (Position.start.after r.before).names ++ [r.terminal.name] := by
    simp [names, nodes, Position.after_names, Position.start]
  rw [hnames, hn]
  simp [place]

theorem eq_of_nodes {r r' : ResolvedPath} (h : r.nodes = r'.nodes) : r = r' := by
  obtain ⟨hb, ht⟩ := List.append_inj' h rfl
  cases r; cases r'
  simp_all

variable {s : Schema} {path path' : String} {r r' : ResolvedPath}

theorem names_identifier (hs : s.Built) (h : resolve s path = .ok r) : ∀ n ∈ r.names, Name.Identifier n := by
  intro n hn
  obtain ⟨m, hm, rfl⟩ := List.mem_map.mp hn
  exact (resolve_declared h).1.identifier hs m hm

theorem place_plain (hs : s.Built) (h : resolve s path = .ok r) : r.place.Plain := by
  obtain ⟨above, hl, hn⟩ := r.addressed
  have hid := names_identifier hs h
  rw [hn] at hid
  exact ⟨by simp [place], fun n hm => hid n (List.mem_append_right _ hm),
    above, hl, fun n hm => hid n (List.mem_append_left _ hm)⟩

theorem array_plain (hs : s.Built) (h : resolve s path = .ok r) {c : Crossing} (hc : c ∈ r.arrays) :
    c.array.Plain ∧ c.names ≠ [] ∧ ∀ n ∈ c.names, Name.Identifier n := by
  obtain ⟨a, n, b, hb, -, rfl⟩ := mem_crossingsFrom.mp hc
  obtain ⟨above, hl, hnames⟩ := Position.start_addressed.after a
  have hid := names_identifier hs h
  have hpath : r.names = (Position.start.after a).names ++ n.name :: (b ++ [r.terminal]).map (·.name) := by
    simp [names, nodes, hb, Position.after_names, Position.start]
  have hupto : ∀ x ∈ (Position.start.after a).names ++ [n.name], Name.Identifier x := by
    intro x hx
    refine hid x ?_
    rw [hpath]
    rcases List.mem_append.mp hx with hx | hx
    · exact List.mem_append_left _ hx
    · simp only [List.mem_singleton] at hx; subst hx; simp
  refine ⟨⟨by simp, fun x hx => hupto x ?_, above, hl, fun x hx => hupto x ?_⟩, by simp, hupto⟩
  · rw [hnames, List.append_assoc]; exact List.mem_append_right _ hx
  · rw [hnames, List.append_assoc]; exact List.mem_append_left _ hx

/-- One location, one path. -/
theorem place_injective (hs : s.Built) (h : resolve s path = .ok r) (h' : resolve s path' = .ok r')
    (e : r.place = r'.place) : r = r' := by
  obtain ⟨above, hl, hn⟩ := r.addressed
  obtain ⟨above', hl', hn'⟩ := r'.addressed
  have hid := names_identifier hs h
  have hid' := names_identifier hs h'
  rw [hn] at hid; rw [hn'] at hid'
  have habove : above = above' := (e ▸ hl).injective hl' (fun n hm => hid n (List.mem_append_left _ hm))
    (fun n hm => hid' n (List.mem_append_left _ hm))
  have hnames : r.names = r'.names := by rw [hn, hn', habove, e]
  exact eq_of_nodes ((resolve_declared h).1.eq_of_names (resolve_declared h').1 hnames)

end ResolvedPath

end DocQuery
