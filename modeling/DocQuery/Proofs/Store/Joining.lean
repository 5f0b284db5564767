/-
  DocQuery.Proofs.Store.Joining — joining a row is choosing elements for it.

  A choice gives every location a value (`Choice.valueAt`), and walks along paths read these values
  (`Choice.read_eq`, `Choice.fits_iff`). In a document of the schema whatever stands at an object
  array's location is an array of objects of the declared type (`crossing_conforms`). So while joins are
  to come (`Pending`) an element of the next array can be chosen (`Pending.next`): joining never fails, and
  the joined rows are those of the choices that fit (`joinAll_spec`).
-/

import DocQuery.Proofs.Join.Order
import DocQuery.Proofs.Outcome
import DocQuery.Proofs.Path.Address
import DocQuery.Proofs.Store.Meaning

namespace DocQuery

open DocQuery.Path Statement

/-! ## Locations under a choice -/

namespace Json

theorem follow_append (a b : List String) (j : Json) : follow (a ++ b) j = (follow a j).bind (follow b) := by
  induction a generalizing j with
  | nil => rfl
  | cons n rest ih =>
    cases j with
    | object members =>
      simp only [List.cons_append, follow]
      cases first? members n with
      | none => rfl
      | some v => exact ih v
    | _ => rfl

theorem follow_singleton (n : String) (j : Json) : follow [n] j = field? n j := by
  cases j with
  | object members =>
    simp only [follow, field?]
    cases first? members n <;> rfl
  | _ => rfl

/-- Names that lead into an object lead into one of its members. -/
theorem exists_member_of_follow {members : List (String × Json)} {name : String} {rest : List String} {v : Json}
    (h : follow (name :: rest) (.object members) = some v) : ∃ m ∈ members, follow rest m.2 = some v := by
  obtain ⟨w, hw, hv⟩ := Option.bind_eq_some_iff.mp h
  obtain ⟨m, hm, rfl⟩ := Option.map_eq_some_iff.mp hw
  exact ⟨m, List.mem_of_find?_eq_some hm, hv⟩

end Json

/-- The value at a location, with joins standing for their chosen elements. -/
def Choice.valueAt (ch : Choice) (doc : Json) (l : Location) : Option Json :=
  match l.source with
  | .document => Json.follow l.path doc
  | .element label => Json.follow l.path (ch label)

theorem Choice.valueAt_member (ch : Choice) (doc : Json) (p : Position) (name : String) :
    ch.valueAt doc (p.member name) = (ch.valueAt doc p.place).bind (Json.field? name) := by
  have hstep : ∀ j, Json.follow (p.place.path ++ [name]) j = (Json.follow p.place.path j).bind (Json.field? name) := by
    intro j
    rw [Json.follow_append]
    cases Json.follow p.place.path j with
    | none => rfl
    | some v => exact Json.follow_singleton name v
  unfold Choice.valueAt
  simp only [Position.member_source, Position.member_path]
  cases p.place.source with
  | document => exact hstep doc
  | element label => exact hstep (ch label)

theorem Choice.valueAt_next (ch : Choice) (doc : Json) (p : Position) (n : Node) : ch.valueAt doc (p.next n).place =
    if n.kind = .objectArray then some (ch (dotted (p.names ++ [n.name])))
    else (ch.valueAt doc p.place).bind (Json.field? n.name) := by
  by_cases h : n.kind = .objectArray
  · rw [Position.next_array h, if_pos h]; rfl
  · rw [Position.next_member h, if_neg h]; exact Choice.valueAt_member ch doc p n.name

namespace Choice

/-- Walking from a position reads what is located where the walk ends. -/
theorem value_eq (ch : Choice) (doc : Json) (nodes : List Node) (p : Position) :
    ch.value p.names (ch.valueAt doc p.place) nodes = ch.valueAt doc (p.after nodes).place := by
  induction nodes generalizing p with
  | nil => rfl
  | cons n rest ih =>
    rw [Position.after_cons, ← ih, Position.next_names, Choice.valueAt_next]
    by_cases h : n.kind = .objectArray <;> simp [value, h]

/-- A choice fits nodes when it has an element of every array that is crossed on the way. -/
theorem fitsFrom_iff (ch : Choice) (doc : Json) (nodes : List Node) (p : Position) :
    ch.FitsFrom p.names (ch.valueAt doc p.place) nodes ↔ ∀ c ∈ crossingsFrom p nodes,
      ∃ items, ch.valueAt doc c.array = some (.array items) ∧ ch (dotted c.names) ∈ items := by
  induction nodes generalizing p with
  | nil => simp [FitsFrom, crossingsFrom]
  | cons n rest ih =>
    have hrest := ih (p.next n)
    rw [Position.next_names, Choice.valueAt_next] at hrest
    by_cases h : n.kind = .objectArray
    · rw [if_pos h] at hrest
      rw [crossingsFrom_array h, List.forall_mem_cons, FitsFrom, if_pos h, hrest, Choice.valueAt_member]
    · rw [if_neg h] at hrest
      rw [crossingsFrom_member h, FitsFrom, if_neg h, hrest]

theorem fits_iff (ch : Choice) (doc : Json) (r : ResolvedPath) : ch.Fits doc r ↔
    ∀ c ∈ r.arrays, ∃ items, ch.valueAt doc c.array = some (.array items) ∧ ch (dotted c.names) ∈ items :=
  ch.fitsFrom_iff doc r.before .start

/-- A path that does not end on an object array is read at its place. -/
theorem read_eq (ch : Choice) (doc : Json) {r : ResolvedPath} (hk : r.terminal.kind ≠ .objectArray) :
    ch.read doc r = ch.valueAt doc r.place := by
  have h := ch.value_eq doc r.nodes .start
  rw [ResolvedPath.nodes, Position.after, List.foldl_append] at h
  refine h.trans ?_
  show ch.valueAt doc ((Position.start.after r.before).next r.terminal).place = _
  rw [Position.next_member hk]; rfl

end Choice

/-! ## Types of locations -/

/-- The declared type that names lead to. -/
def Schema.typeAt? (s : Schema) : FieldType → List String → Option FieldType
  | type, [] => some type
  | type, n :: rest => (s.declared? type n).bind fun f => s.typeAt? f.type rest

namespace Schema

variable {s : Schema}

theorem typeAt?_append (type : FieldType) (a b : List String) :
    s.typeAt? type (a ++ b) = (s.typeAt? type a).bind fun t => s.typeAt? t b := by
  induction a generalizing type with
  | nil => rfl
  | cons n rest ih =>
    simp only [List.cons_append, typeAt?]
    cases s.declared? type n with
    | none => rfl
    | some f => exact ih f.type

/-- What is below an array of objects is below its elements. -/
theorem typeAt?_element (name : String) {path : List String} (h : path ≠ []) :
    s.typeAt? (.array (.object name)) path = s.typeAt? (.object name) path := by
  cases path with
  | nil => exact absurd rfl h
  | cons n rest => rfl

end Schema

/-- Nodes that follow declared fields lead to a field of the last one's kind. -/
theorem Path.Declared.typeAt {s : Schema} {type : FieldType} {a b : List Node} {n : Node}
    (h : Declared s type (a ++ n :: b)) : ∃ t, s.typeAt? type (a.map (·.name) ++ [n.name]) = some t ∧
      classify t = some (n.kind, n.element) := by
  induction a generalizing type with
  | nil =>
    obtain ⟨f, hf, hc, -⟩ := h
    exact ⟨f.type, by simp [Schema.typeAt?, hf], hc⟩
  | cons m rest ih =>
    obtain ⟨f, hf, -, hrest⟩ := h
    obtain ⟨t, ht, hc⟩ := ih hrest
    exact ⟨t, by simpa [Schema.typeAt?, hf] using ht, hc⟩

namespace Json

variable {s : Schema}

theorem Conforms.object_cases {name : String} {j : Json} (h : Conforms s (.object name) j) :
    ∃ members, j = .object members := by
  cases h with
  | object _ _ => exact ⟨_, rfl⟩

/-- Following names in a value of a type leads to values of the declared types. -/
theorem Conforms.follow {type type' : FieldType} {j v : Json} {path : List String} (h : Conforms s type j)
    (ht : s.typeAt? type path = some type') (hv : Json.follow path j = some v) : Conforms s type' v := by
  induction path generalizing type j with
  | nil =>
    cases ht; cases hv
    exact h
  | cons n rest ih =>
    cases h with
    | scalar hj => cases j <;> first | cases hv | (rename_i t _; cases t <;> cases hj)
    | array hitems => cases hv
    | object htype hfields =>
      obtain ⟨f, hf, htail⟩ := Option.bind_eq_some_iff.mp ht
      obtain ⟨w, hw, hvtail⟩ := Option.bind_eq_some_iff.mp hv
      rw [Schema.declared?, FieldType.objectName?, Option.bind_some, htype, Option.bind_some] at hf
      have hname : f.name = n := by simpa using List.find?_some hf
      exact ih (hfields f (List.mem_of_find?_eq_some hf) w (hname ▸ hw)) htail hvtail

end Json

/-- The location's names from the root are these, and lead to this type. -/
structure Statement.Location.Typed (s : Schema) (l : Location) (names : List String) (type : FieldType) : Prop where
  addressed : ∃ above, Labelled above l.source ∧ names = above ++ l.path
  path_ne : l.path ≠ []
  identifier : ∀ n ∈ names, Name.Identifier n
  typed : s.typeAt? (.object s.root) names = some type

namespace Statement.Location.Typed

variable {s : Schema} {l : Location} {names : List String} {type : FieldType} (h : l.Typed s names type)

include h

theorem in_document (hl : l.source = .document) : names = l.path := by
  obtain ⟨above, hlab, hnames⟩ := h.addressed
  rw [hl] at hlab
  rw [show above = [] from hlab] at hnames
  exact hnames

/-- Below an element of an array the location has the names that are left. -/
theorem in_element {label : String} (hl : l.source = .element label) {above : List String} {name : String}
    (habove : ∀ n ∈ above, Name.Identifier n) (hlabel : label = dotted above)
    (helement : s.typeAt? (.object s.root) above = some (.array (.object name))) :
    names = above ++ l.path ∧ s.typeAt? (.object name) l.path = some type := by
  obtain ⟨above', hlab, hnames⟩ := h.addressed
  rw [hl] at hlab
  have hid : ∀ n ∈ above', Name.Identifier n := fun n hn =>
    h.identifier n (by rw [hnames]; exact List.mem_append_left _ hn)
  obtain rfl := dotted_injective hid habove (hlab.2.symm.trans hlabel)
  refine ⟨hnames, ?_⟩
  have htype := h.typed
  rw [hnames, Schema.typeAt?_append, helement] at htype
  rwa [← Schema.typeAt?_element name h.path_ne]

end Statement.Location.Typed

/-- An object array stands at its location. -/
theorem crossing_typed {s : Schema} (hs : s.Built) {path : String} {r : ResolvedPath} (h : resolve s path = .ok r)
    {c : Crossing} (hc : c ∈ r.arrays) : ∃ name, c.array.Typed s c.names (.array (.object name)) := by
  obtain ⟨-, -, hnames⟩ := ResolvedPath.array_plain hs h hc
  obtain ⟨a, n, b, hb, hk, rfl⟩ := mem_crossingsFrom.mp hc
  obtain ⟨above, hlab, hposition⟩ := Position.start_addressed.after a
  have hdeclared : Declared s (.object s.root) (a ++ n :: b) := hb ▸ (resolve_declared h).1.append
  obtain ⟨t, htype, hclass⟩ := hdeclared.typeAt
  obtain ⟨name, rfl⟩ := (classify_element hclass).2.2.2.2.mp hk
  have hall : (Position.start.after a).names ++ [n.name] = a.map (·.name) ++ [n.name] := by
    simp [Position.after_names, Position.start]
  exact ⟨name, ⟨above, hlab, by rw [hposition]; simp⟩, by simp, hnames, hall ▸ htype⟩

/-- A path's value stands at its place. -/
theorem place_typed {s : Schema} (hs : s.Built) {path : String} {r : ResolvedPath} (h : resolve s path = .ok r) :
    ∃ type, r.place.Typed s r.names type ∧ classify type = some (r.terminal.kind, r.terminal.element) := by
  obtain ⟨above, hlab, hnames⟩ := r.addressed
  obtain ⟨t, htype, hclass⟩ := Declared.typeAt (show Declared s _ (r.before ++ r.terminal :: []) from (resolve_declared h).1)
  have hall : r.names = r.before.map (·.name) ++ [r.terminal.name] := by simp [ResolvedPath.names, ResolvedPath.nodes]
  exact ⟨t, ⟨⟨above, hlab, hnames⟩, by simp [ResolvedPath.place], ResolvedPath.names_identifier hs h, hall ▸ htype⟩, hclass⟩

/-- A value is of the element type of the array with this label. -/
def ElementOf (s : Schema) (label : String) (j : Json) : Prop :=
  ∃ names name, (∀ n ∈ names, Name.Identifier n) ∧ label = dotted names ∧
    s.typeAt? (.object s.root) names = some (.array (.object name)) ∧ Json.Conforms s (.object name) j

/-- At an array's location stands nothing or an array of elements of its type. -/
theorem crossing_conforms {s : Schema} (hs : s.Built) {path : String} {r : ResolvedPath} (h : resolve s path = .ok r)
    {c : Crossing} (hc : c ∈ r.arrays) {doc : Json} (hdoc : Json.Conforms s (.object s.root) doc) {ch : Choice}
    (hch : ∀ label, c.array.source = .element label → ElementOf s label (ch label)) {v : Json}
    (hv : ch.valueAt doc c.array = some v) :
    ∃ items, v = .array items ∧ ∀ e ∈ items, ElementOf s (dotted c.names) e := by
  obtain ⟨name, htyped⟩ := crossing_typed hs h hc
  have hv' : Json.Conforms s (.array (.object name)) v := by
    unfold Choice.valueAt at hv
    cases hsource : c.array.source with
    | document =>
      rw [hsource] at hv
      exact hdoc.follow (htyped.in_document hsource ▸ htyped.typed) hv
    | element label =>
      rw [hsource] at hv
      obtain ⟨above, name', hid, hlabel, helement, hconf⟩ := hch label hsource
      exact hconf.follow (htyped.in_element hsource hid hlabel helement).2 hv
  cases hv' with
  | array hitems => exact ⟨_, rfl, fun e he => ⟨_, name, htyped.identifier, rfl, htyped.typed, hitems e he⟩⟩

/-! ## Choices that agree -/

namespace Statement

/-- Two choices have the same elements under these labels. -/
def Agree (labels : List String) (ch ch' : Choice) : Prop := ∀ label ∈ labels, ch label = ch' label

namespace Agree

variable {labels more : List String} {ch ch' ch'' : Choice}

theorem refl (ch : Choice) : Agree labels ch ch := fun _ _ => rfl

theorem trans (h : Agree labels ch ch') (h' : Agree labels ch' ch'') : Agree labels ch ch'' :=
  fun label hl => (h label hl).trans (h' label hl)

theorem mono (h : Agree more ch ch') (hsub : labels ⊆ more) : Agree labels ch ch' := fun label hl => h label (hsub hl)

end Agree

/-- A choice with one more element. -/
def choose (ch : Choice) (label : String) (e : Json) : Choice := fun l => if l = label then e else ch l

theorem choose_self (ch : Choice) (label : String) (e : Json) : choose ch label e label = e := if_pos rfl

theorem choose_agree (ch : Choice) {label : String} {labels : List String} (h : label ∉ labels) (e : Json) :
    Agree labels ch (choose ch label e) :=
  fun l hl => (if_neg fun (he : l = label) => h (he ▸ hl)).symm

/-- A choice goes on from one more element when it has that element and goes on from the others. -/
theorem agree_choose {ch ch' : Choice} {label : String} {labels : List String} {e : Json} (h : label ∉ labels) :
    Agree (label :: labels) (choose ch label e) ch' ↔ e = ch' label ∧ Agree labels ch ch' := by
  rw [Agree, List.forall_mem_cons, choose_self]
  refine and_congr_right fun _ => ⟨(choose_agree ch h e).trans, fun hagree l hl => ?_⟩
  rw [← choose_agree ch h e l hl]
  exact hagree l hl

end Statement

/-! ## Rows that have a choice's elements -/

namespace Statement.Joined

/-- The row has the elements of a choice for these labels, and they are objects. -/
structure Has (r : Joined) (doc : Json) (ch : Choice) (bound : List String) : Prop where
  document : parse r.row.document = .ok doc
  element : ∀ label ∈ bound, r.elements.lookup label = some (ch label) ∧ ∃ members, ch label = .object members

/-- The labels that a location needs. -/
def Reaches (bound : List String) (l : Location) : Prop := ∀ label, l.source = .element label → label ∈ bound

theorem Has.find {r : Joined} {doc : Json} {ch : Choice} {bound : List String} (h : r.Has doc ch bound) {l : Location}
    (hl : Reaches bound l) : r.find l = .ok (ch.valueAt doc l) := by
  unfold Joined.find Joined.source Choice.valueAt
  cases hs : l.source with
  | document => rw [h.document]; rfl
  | element label =>
    obtain ⟨hlookup, members, hobject⟩ := h.element label (hl label hs)
    simp only [hlookup]
    rw [hobject]; rfl

/-- A row with one more element. -/
def push (r : Joined) (label : String) (e : Json) : Joined := { r with elements := (label, e) :: r.elements }

/-- A row with the elements of a choice for these joins. -/
def extend (r : Joined) (ch : Choice) : List ArrayJoin → Joined
  | [] => r
  | j :: rest => (r.push j.label (ch j.label)).extend ch rest

@[simp] theorem extend_row (r : Joined) (ch : Choice) (joins : List ArrayJoin) : (r.extend ch joins).row = r.row := by
  induction joins generalizing r with
  | nil => rfl
  | cons j rest ih => exact ih (r.push j.label (ch j.label))

/-- A row with the elements of a choice has them still when one more of that choice is pushed. -/
theorem Has.push_self {r : Joined} {doc : Json} {ch : Choice} {bound : List String} (h : r.Has doc ch bound)
    {label : String} (hobject : ∃ members, ch label = .object members) :
    (r.push label (ch label)).Has doc ch (label :: bound) := by
  refine ⟨h.document, fun l hl => ?_⟩
  by_cases e : l = label
  · subst e; exact ⟨by simp [Joined.push], hobject⟩
  · have hb : l ∈ bound := (List.mem_cons.mp hl).resolve_left e
    have hne : (l == label) = false := beq_eq_false_iff_ne.mpr e
    simpa [Joined.push, List.lookup_cons, hne] using h.element l hb

theorem Has.extend {r : Joined} {doc : Json} {ch : Choice} {bound : List String} (joins : List ArrayJoin)
    (h : r.Has doc ch bound) (hobject : ∀ j ∈ joins, ∃ members, ch j.label = .object members) :
    (r.extend ch joins).Has doc ch (bound ++ joins.map (·.label)) := by
  induction joins generalizing r bound with
  | nil => simpa [Joined.extend] using h
  | cons j rest ih =>
    have hrest := ih (h.push_self (hobject j (List.mem_cons_self ..))) fun k hk => hobject k (List.mem_cons_of_mem _ hk)
    refine ⟨hrest.document, fun l hl => hrest.element l ?_⟩
    simp only [List.map_cons, List.mem_append, List.mem_cons] at hl ⊢
    rcases hl with hl | hl | hl
    · exact Or.inl (Or.inr hl)
    · exact Or.inl (Or.inl hl)
    · exact Or.inr hl

theorem Has.congr {r : Joined} {doc : Json} {ch ch' : Choice} {bound : List String} (h : r.Has doc ch bound)
    (e : Agree bound ch ch') : r.Has doc ch' bound :=
  ⟨h.document, fun label hl => e label hl ▸ h.element label hl⟩

/-- A row takes a new element where the choice does. -/
theorem Has.push {r : Joined} {doc : Json} {ch : Choice} {bound : List String} (h : r.Has doc ch bound)
    {label : String} (hnew : label ∉ bound) {e : Json} (hobject : ∃ members, e = .object members) :
    (r.push label e).Has doc (choose ch label e) (label :: bound) := by
  have hself := choose_self ch label e
  have hrow := (h.congr (choose_agree ch hnew e)).push_self (hself.symm ▸ hobject)
  rwa [hself] at hrow

end Statement.Joined

/-! ## Joins to come -/

namespace Statement

/-- A choice has an element of every joined array. -/
def FitsJoins (doc : Json) (ch : Choice) (joins : List ArrayJoin) : Prop :=
  ∀ j ∈ joins, ∃ items, ch.valueAt doc j.array = some (.array items) ∧ ch j.label ∈ items

theorem fitsJoins_cons {doc : Json} {ch : Choice} {j : ArrayJoin} {rest : List ArrayJoin} :
    FitsJoins doc ch (j :: rest) ↔
      (∃ items, ch.valueAt doc j.array = some (.array items) ∧ ch j.label ∈ items) ∧ FitsJoins doc ch rest :=
  List.forall_mem_cons

theorem valueAt_congr {doc : Json} {ch ch' : Choice} {bound : List String} {l : Location} (hl : Joined.Reaches bound l)
    (h : Agree bound ch ch') : ch.valueAt doc l = ch'.valueAt doc l := by
  unfold Choice.valueAt
  cases hs : l.source with
  | document => rfl
  | element label => simp only [h label (hl label hs)]

/-- Read from good elements, the join's array is an array of good elements. -/
def Yields (good : String → Json → Prop) (doc : Json) (j : ArrayJoin) : Prop :=
  ∀ ch : Choice, (∀ label, j.array.source = .element label → good label (ch label)) →
    ∀ v, ch.valueAt doc j.array = some v → ∃ items, v = .array items ∧ ∀ e ∈ items, good j.label e

variable {doc : Json} {good : String → Json → Prop}

/-- The joins are still to be made, and the choice so far is of good elements. -/
structure Pending (good : String → Json → Prop) (doc : Json) (ch : Choice) (bound : List String)
    (joins : List ArrayJoin) : Prop where
  inScope : Scoped bound joins
  distinct : (joins.map (·.label)).Nodup
  fresh : ∀ j ∈ joins, j.label ∉ bound
  yields : ∀ j ∈ joins, Yields good doc j
  chosen : ∀ label ∈ bound, good label (ch label)

namespace Pending

variable {ch ch' : Choice} {bound : List String} {j : ArrayJoin} {rest : List ArrayJoin}
  (h : Pending good doc ch bound (j :: rest))

include h

theorem reaches : Joined.Reaches bound j.array := h.inScope.1

theorem new : j.label ∉ bound := h.fresh j List.mem_cons_self

theorem array {v : Json} (hv : ch.valueAt doc j.array = some v) :
    ∃ items, v = .array items ∧ ∀ e ∈ items, good j.label e :=
  h.yields j List.mem_cons_self ch (fun label hl => h.chosen label (h.reaches label hl)) v hv

theorem element_good {items : List Json} (hitems : ch.valueAt doc j.array = some (.array items)) {e : Json}
    (he : e ∈ items) : good j.label e := by
  obtain ⟨items', heq, hgood⟩ := h.array hitems
  cases heq
  exact hgood e he

/-- With an element of the first array chosen, the other joins are to come. -/
theorem next (hagree : Agree bound ch ch') {items : List Json}
    (hitems : ch.valueAt doc j.array = some (.array items)) (hmem : ch' j.label ∈ items) :
    Pending good doc ch' (j.label :: bound) rest where
  inScope := h.inScope.2
  distinct := (List.nodup_cons.mp h.distinct).2
  fresh k hk hbound := by
    rcases List.mem_cons.mp hbound with hlabel | hbound
    · exact (List.nodup_cons.mp h.distinct).1 (List.mem_map.mpr ⟨k, hk, hlabel⟩)
    · exact h.fresh k (List.mem_cons_of_mem _ hk) hbound
  yields k hk := h.yields k (List.mem_cons_of_mem _ hk)
  chosen label hl := by
    rcases List.mem_cons.mp hl with rfl | hl
    · exact h.element_good hitems hmem
    · exact hagree label hl ▸ h.chosen label hl

end Pending

/-- Along the joins the elements of a fitting choice are good. -/
theorem fitsJoins_good {ch : Choice} {bound : List String} {joins : List ArrayJoin}
    (hp : Pending good doc ch bound joins) (h : FitsJoins doc ch joins) : ∀ j ∈ joins, good j.label (ch j.label) := by
  induction joins generalizing bound with
  | nil => exact List.forall_mem_nil _
  | cons j rest ih =>
    obtain ⟨⟨items, hitems, hmem⟩, hrest⟩ := fitsJoins_cons.mp h
    exact List.forall_mem_cons.mpr ⟨hp.element_good hitems hmem, ih (hp.next (.refl ch) hitems hmem) hrest⟩

/-! ## Joined rows -/

/-- The first join gives a row for each element of its array, and the others go on from these. -/
theorem joinAll_cons {j : ArrayJoin} {rest : List ArrayJoin} {r : Joined} {items : List Json}
    (hfind : r.find j.array = .ok (some (.array items))) {P : Json → Joined → Prop}
    (hrest : ∀ e ∈ items, ∃ out, joinAll rest (r.push j.label e) = .ok out ∧ ∀ x, x ∈ out ↔ P e x) :
    ∃ out, joinAll (j :: rest) r = .ok out ∧ ∀ x, x ∈ out ↔ ∃ e ∈ items, P e x := by
  have hchoices : choices r j = .ok (items.map (r.push j.label)) := by
    simp only [choices, hfind]; rfl
  obtain ⟨outs, houts⟩ : ∃ outs, (items.map (r.push j.label)).mapM (joinAll rest) = .ok outs := by
    refine ⟨_, (Except.mapM_eq_ok []).mpr ⟨?_, rfl⟩⟩
    intro x hx
    obtain ⟨e, he, rfl⟩ := List.mem_map.mp hx
    obtain ⟨out, hout, -⟩ := hrest e he
    exact ⟨out, hout⟩
  refine ⟨outs.flatten, ?_, fun x => ?_⟩
  · simp only [joinAll, hchoices, bind, Except.bind, houts]
    rfl
  · rw [List.mem_flatten]
    simp only [Except.mem_mapM houts, List.mem_map]
    constructor
    · rintro ⟨out, ⟨-, ⟨e, he, rfl⟩, hout⟩, hx⟩
      obtain ⟨out', hout', hmem⟩ := hrest e he
      obtain rfl := Except.ok.inj (hout'.symm.trans hout)
      exact ⟨e, he, (hmem x).mp hx⟩
    · rintro ⟨e, he, hx⟩
      obtain ⟨out, hout, hmem⟩ := hrest e he
      exact ⟨out, ⟨_, ⟨e, he, rfl⟩, hout⟩, (hmem x).mpr hx⟩

/-- Joining a row that has a choice so far gives the rows of the choices that go on from it and fit. -/
theorem joinAll_spec (hobject : ∀ label e, good label e → ∃ members, e = .object members) {joins : List ArrayJoin}
    {bound : List String} {r : Joined} {ch₀ : Choice} (hp : Pending good doc ch₀ bound joins)
    (hr : r.Has doc ch₀ bound) :
    ∃ out, joinAll joins r = .ok out ∧ ∀ x, x ∈ out ↔
      ∃ ch : Choice, Agree bound ch₀ ch ∧ FitsJoins doc ch joins ∧ x = r.extend ch joins := by
  induction joins generalizing bound r ch₀ with
  | nil =>
    refine ⟨[r], rfl, fun x => ?_⟩
    rw [List.mem_singleton]
    constructor
    · rintro rfl
      exact ⟨ch₀, .refl ch₀, List.forall_mem_nil _, rfl⟩
    · rintro ⟨ch, -, -, rfl⟩
      rfl
  | cons j rest ih =>
    have hfind : r.find j.array = .ok (ch₀.valueAt doc j.array) := hr.find hp.reaches
    cases hloc : ch₀.valueAt doc j.array with
    | none =>
      -- The array is missing: no row, and no choice fits.
      refine ⟨[], by simp only [joinAll, choices, hfind, hloc]; rfl, fun x => ?_⟩
      simp only [List.not_mem_nil, false_iff]
      rintro ⟨ch, hch, hfits, -⟩
      obtain ⟨⟨items, hitems, -⟩, -⟩ := fitsJoins_cons.mp hfits
      rw [← valueAt_congr hp.reaches hch, hloc] at hitems
      cases hitems
    | some v =>
      obtain ⟨items, rfl, hitems⟩ := hp.array hloc
      -- Each element is pushed, and the other joins go on from it.
      obtain ⟨out, hout, hmem⟩ := joinAll_cons (hloc ▸ hfind) fun e he =>
        ih (hp.next (choose_agree ch₀ hp.new e) hloc ((choose_self ch₀ j.label e).symm ▸ he))
          (hr.push hp.new (hobject _ e (hitems e he)))
      refine ⟨out, hout, fun x => (hmem x).trans ?_⟩
      constructor
      · rintro ⟨e, he, ch, hch, hfits, rfl⟩
        obtain ⟨rfl, hbound⟩ := (agree_choose hp.new).mp hch
        have hhead : ch.valueAt doc j.array = some (.array items) := (valueAt_congr hp.reaches hbound).symm.trans hloc
        exact ⟨ch, hbound, fitsJoins_cons.mpr ⟨⟨items, hhead, he⟩, hfits⟩, rfl⟩
      · rintro ⟨ch, hbound, hfits, rfl⟩
        obtain ⟨⟨items', hitems', he⟩, hrest⟩ := fitsJoins_cons.mp hfits
        rw [← valueAt_congr hp.reaches hbound, hloc] at hitems'
        cases hitems'
        exact ⟨ch j.label, he, ch, (agree_choose hp.new).mpr ⟨rfl, hbound⟩, hrest, rfl⟩

end Statement

end DocQuery
