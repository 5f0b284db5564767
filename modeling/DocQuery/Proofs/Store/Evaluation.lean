/-
  DocQuery.Proofs.Store.Evaluation — a joined row says what its choice says.

  The joins of a request are the arrays of its paths, each once, so a choice fits the joins
  exactly when it fits the paths (`fitsJoins_iff`). A row joined with the elements of such a choice
  shows every path as the choice reads it (`joinAll_request`), and then the condition holds of the row
  exactly where the query is true of the document with the choice (`BoundTree.holds_eq`). Only members of
  a path whose array goes by the name of the engine's own function are not seen.
-/

import DocQuery.Proofs.Statement.Request
import DocQuery.Proofs.Store.Joining

namespace DocQuery

open DocQuery.Path Statement

namespace ResolvedPath

theorem place_reaches (r : ResolvedPath) : Joined.Reaches r.labels r.place := fun _ hsource => r.place_source hsource

theorem array_reaches {r : ResolvedPath} {c : Crossing} (h : c ∈ r.arrays) : Joined.Reaches r.labels c.array :=
  fun _ hsource => array_source h hsource

end ResolvedPath

namespace Statement

/-! ## Requests -/

section requests

variable {schema : Schema} {t : Option BoundTree} {keys : List BoundKey}

/-- A choice fits the joins of a request when it fits the paths. -/
theorem fitsJoins_iff (hs : schema.Built) (hr : AllResolved schema (requestPaths t keys))
    {doc : Json} {ch : Choice} : FitsJoins doc ch (requestJoins t keys) ↔ ∀ r ∈ requestPaths t keys, ch.Fits doc r := by
  constructor
  · intro h r hmem
    rw [Choice.fits_iff]
    intro c hc
    obtain ⟨j, hj, hlabel, harray⟩ := requestJoins_complete hs hr hmem hc
    rw [← harray, ← hlabel]; exact h j hj
  · intro h j hj
    obtain ⟨r, hmem, c, hc, hlabel, harray⟩ := requestJoins_sound hj
    rw [harray, hlabel]; exact (Choice.fits_iff ch doc r).mp (h r hmem) c hc

/-- Every path is read from the document or from a joined element. -/
theorem requestPaths_reach {r : ResolvedPath} (hmem : r ∈ requestPaths t keys) :
    Joined.Reaches ((requestJoins t keys).map (·.label)) r.place := fun _ hsource => requestPaths_joined hmem hsource

end requests

/-! ## Rows of choices -/

theorem ElementOf.object {schema : Schema} {label : String} {j : Json} (h : ElementOf schema label j) :
    ∃ members, j = .object members := by
  obtain ⟨names, name, -, -, -, hconf⟩ := h
  exact hconf.object_cases

namespace Joined

/-- The row shows a path's value as the choice reads it. -/
def Shows (x : Joined) (doc : Json) (ch : Choice) (r : ResolvedPath) : Prop := x.find r.place = .ok (ch.read doc r)

variable {x : Joined} {doc : Json} {ch : Choice} {r : ResolvedPath}

theorem Shows.cell (h : x.Shows doc ch r) : x.cell r.place = .ok (ch.cell doc r) := by
  unfold Joined.cell Choice.cell
  rw [h]
  cases ch.read doc r <;> rfl

/-- Members are seen where they are not hidden. -/
theorem Shows.members (h : x.Shows doc ch r) :
    x.members r.place = .ok (if shadowed r then [] else ch.members doc r) := by
  unfold Joined.members Choice.members shadowed
  by_cases hh : r.place.source.isHidden = true
  · simp only [hh, if_true]; rfl
  · simp only [hh, Bool.false_eq_true, if_false]
    show (x.find r.place).bind _ = _
    rw [h]
    cases ch.read doc r <;> rfl

end Joined

/-- The row of a document joined with the elements of a choice. -/
def choiceRow (t : Option BoundTree) (keys : List BoundKey) (row : Row) (ch : Choice) : Joined :=
  (⟨row, []⟩ : Joined).extend ch (requestJoins t keys)

section rows

variable {schema : Schema} {t : Option BoundTree} {keys : List BoundKey} {row : Row} {doc : Json}

@[simp] theorem choiceRow_row (ch : Choice) : (choiceRow t keys row ch).row = row := Joined.extend_row _ ch _

theorem parse_document (hrow : row.Holds schema doc) : Joined.parse row.document = .ok doc := by
  unfold Joined.parse; rw [hrow.text]

variable (hs : schema.Built) (hr : AllResolved schema (requestPaths t keys)) (hrow : row.Holds schema doc)

include hs hr hrow

theorem joins_yield : ∀ j ∈ requestJoins t keys, Yields (ElementOf schema) doc j := by
  intro j hj ch hch v hv
  obtain ⟨r, hmem, c, hc, hlabel, harray⟩ := requestJoins_sound hj
  obtain ⟨path, hpath⟩ := hr r hmem
  rw [harray] at hch hv
  rw [hlabel]
  exact crossing_conforms hs hpath hc hrow.conforms hch hv

/-- Before any join the whole request is to come. -/
theorem requestJoins_pending (ch : Choice) : Pending (ElementOf schema) doc ch [] (requestJoins t keys) where
  inScope := requestJoins_scoped t keys
  distinct := requestJoins_nodup t keys
  fresh _ _ := List.not_mem_nil
  yields := joins_yield hs hr hrow
  chosen := List.forall_mem_nil _

/-- Joining a document's row gives the rows of the choices that fit the request, and no others. -/
theorem joinAll_request : ∃ out, joinAll (requestJoins t keys) ⟨row, []⟩ = .ok out ∧ ∀ x, x ∈ out ↔
    ∃ ch : Choice, (∀ r ∈ requestPaths t keys, ch.Fits doc r) ∧ x = choiceRow t keys row ch := by
  have hstart : (⟨row, []⟩ : Joined).Has doc (fun _ => .null) [] := ⟨parse_document hrow, fun _ h => nomatch h⟩
  obtain ⟨out, hout, hmem⟩ := joinAll_spec (fun _ _ h => ElementOf.object h) (requestJoins_pending hs hr hrow _) hstart
  refine ⟨out, hout, fun x => (hmem x).trans ?_⟩
  simp only [fitsJoins_iff hs hr]
  constructor
  · rintro ⟨ch, -, hfits, rfl⟩; exact ⟨ch, hfits, rfl⟩
  · rintro ⟨ch, hfits, rfl⟩; exact ⟨ch, (fun _ h => nomatch h), hfits, rfl⟩

variable {ch : Choice} (hfits : ∀ r ∈ requestPaths t keys, ch.Fits doc r)

include hfits

/-- The row of a fitting choice has its elements. -/
theorem choiceRow_has : (choiceRow t keys row ch).Has doc ch ((requestJoins t keys).map (·.label)) := by
  have hstart : (⟨row, []⟩ : Joined).Has doc ch [] := ⟨parse_document hrow, fun _ h => nomatch h⟩
  have hgood : ∀ j ∈ requestJoins t keys, ElementOf schema j.label (ch j.label) :=
    fitsJoins_good (requestJoins_pending hs hr hrow ch) ((fitsJoins_iff hs hr).mpr hfits)
  exact hstart.extend (requestJoins t keys) fun j hj => ElementOf.object (hgood j hj)

theorem choiceRow_shows : ∀ r ∈ requestPaths t keys, (choiceRow t keys row ch).Shows doc ch r := by
  intro r hmem
  obtain ⟨path, hpath⟩ := hr r hmem
  rw [Joined.Shows, (choiceRow_has hs hr hrow hfits).find (requestPaths_reach hmem),
    ch.read_eq doc (resolve_declared hpath).2]

/-- Grouping sees the texts of elements. -/
theorem choiceRow_element {j : ArrayJoin} (hj : j ∈ requestJoins t keys) :
    (choiceRow t keys row ch).element j.label = .text (ch j.label).compact := by
  obtain ⟨hlookup, members, hobject⟩ :=
    (choiceRow_has hs hr hrow hfits).element j.label (List.mem_map.mpr ⟨j, hj, rfl⟩)
  unfold Joined.element
  rw [hlookup, hobject]; rfl

end rows

/-! ## Conditions -/

/-- The parameters from the `n`th on are these values. -/
def Supplied (parameters : List Cell) (n : Nat) (values : List Value) : Prop :=
  ∀ i v, values[i]? = some v → parameters[n + i]? = some (Cell.ofValue v)

theorem supplied_all (values : List Value) : Supplied (values.map Cell.ofValue) 0 values := by
  intro i v h
  simp [List.getElem?_map, h]

variable {parameters : List Cell} {n : Nat}

theorem Supplied.left {a b : List Value} (h : Supplied parameters n (a ++ b)) : Supplied parameters n a := by
  intro i v hi
  obtain ⟨hlt, -⟩ := List.getElem?_eq_some_iff.mp hi
  exact h i v ((List.getElem?_append_left hlt).trans hi)

theorem Supplied.right {a b : List Value} (h : Supplied parameters n (a ++ b)) :
    Supplied parameters (n + a.length) b := by
  intro i v hi
  have := h (a.length + i) v (by rw [List.getElem?_append_right (by omega)]; simpa using hi)
  rwa [← Nat.add_assoc] at this

theorem Supplied.parameter {v : Value} (h : Supplied parameters n [v]) :
    parameter parameters (n + 1) = Cell.ofValue v := by
  have hn := h 0 v rfl
  simp only [Nat.add_zero] at hn
  simp [Statement.parameter, hn]

variable {now : Nat} {x : Joined} {doc : Json} {ch : Choice}

/-- A leaf's condition holds of a row where the leaf is true of the document with the choice. -/
theorem Bound.holds_eq {b : Bound} (hv : Supplied parameters n b.value?.toList)
    (hs : ∀ r, b.path? = some r → x.Shows doc ch r) :
    (b.condition n).holds now parameters x = .ok (b.truth now shadowed x.row doc ch).isTrue := by
  cases b with
  | identityNull negated => cases negated <;> rfl
  | identityCompare c v =>
    show Except.ok (Cell.compares c _ (parameter parameters (n + 1)).asText).isTrue = _
    rw [hv.parameter]
    rfl
  | isNull negated r =>
    show (x.cell r.place).bind _ = _
    rw [(hs r rfl).cell]
    exact congrArg Except.ok (Truth.isTrue_some _).symm
  | compare c r type v =>
    show (x.cell r.place).bind _ = _
    rw [(hs r rfl).cell, hv.parameter]
    rfl
  | member negated r type v =>
    show (x.members r.place).bind _ = _
    rw [(hs r rfl).members, hv.parameter]
    rfl

/-- A query's condition holds of a row where the query is true of the document with the choice. -/
theorem BoundTree.holds_eq {t : BoundTree} (hv : Supplied parameters n t.values)
    (hs : ∀ r ∈ t.paths, x.Shows doc ch r) :
    (t.condition n).holds now parameters x = .ok (t.truth now shadowed x.row doc ch).isTrue := by
  induction t generalizing n with
  | leaf b => exact Bound.holds_eq hv fun r hr => hs r (by simp [BoundTree.paths, hr])
  | binary c left right ihl ihr =>
    have hleft := ihl hv.left fun r hr => hs r (List.mem_append_left _ hr)
    have hright := ihr hv.right fun r hr => hs r (List.mem_append_right _ hr)
    cases c with
    | and =>
      show ((left.condition n).holds now parameters x).bind _ = .ok (Truth.and _ _).isTrue
      rw [hleft, Truth.isTrue_and]
      show (if _ then (right.condition (n + left.values.length)).holds now parameters x else _) = _
      rw [hright]
      cases (left.truth now shadowed x.row doc ch).isTrue <;> rfl
    | or =>
      show ((left.condition n).holds now parameters x).bind _ = .ok (Truth.or _ _).isTrue
      rw [hleft, Truth.isTrue_or]
      show (if _ then _ else (right.condition (n + left.values.length)).holds now parameters x) = _
      rw [hright]
      cases (left.truth now shadowed x.row doc ch).isTrue <;> rfl

end Statement

end DocQuery
