/-
  DocQuery.Proofs.Collection.Nulls — a null member and a missing one.

  A member that is null and one that is not there are read alike, as nothing, wherever a path ends
  (`AlikeAt.value_cases`). Two tables whose documents differ only in such members are joined to pairs of rows
  (`joinAll_alike`), of which the condition says the same (`selects_alike`), so the same identities are found
  and counted (`nulls_found`). This is so except where the engine lists the members of a value: a null is
  listed as one member that is nothing. As built, an object array that is null has an element, which a
  query for missing values finds (`vacant_told_apart`), and a value array that is null has a member, which
  leaves open whether it lacks a value. The theorem names both exceptions.
-/

import DocQuery.Proofs.Store.Membership
import DocQuery.Proofs.Store.Pairing

namespace DocQuery

open DocQuery.Path Statement

/-! ## Documents -/

namespace Json

mutual

/-- Values of a declared type that differ only in members which are null in one and missing in the other,
below a path of these names. Where this may be so is said by `free`. -/
inductive Alike (s : Schema) (free : List String → Prop) : List String → FieldType → Json → Json → Prop
  | same {names : List String} {type : FieldType} (j : Json) : Alike s free names type j j
  | array {names : List String} {element : FieldType} {items items' : List Json} :
      AlikeItems s free names element items items' → Alike s free names (.array element) (.array items) (.array items')
  | object {names : List String} {name : String} {t : ObjectType} {members members' : List (String × Json)} :
      s.type? name = some t →
      (∀ f ∈ t.fields, AlikeAt s free (names ++ [f.name]) f.type (first? members f.name) (first? members' f.name)) →
      Alike s free names (.object name) (.object members) (.object members')

inductive AlikeItems (s : Schema) (free : List String → Prop) :
    List String → FieldType → List Json → List Json → Prop
  | nil {names : List String} {element : FieldType} : AlikeItems s free names element [] []
  | cons {names : List String} {element : FieldType} {j j' : Json} {items items' : List Json} :
      Alike s free names element j j' → AlikeItems s free names element items items' →
      AlikeItems s free names element (j :: items) (j' :: items')

/-- What stands at a path in either of two such documents. -/
inductive AlikeAt (s : Schema) (free : List String → Prop) :
    List String → FieldType → Option Json → Option Json → Prop
  | neither {names : List String} {type : FieldType} : AlikeAt s free names type none none
  | both {names : List String} {type : FieldType} {j j' : Json} : Alike s free names type j j' →
      AlikeAt s free names type (some j) (some j')
  | left {names : List String} {type : FieldType} : free names → AlikeAt s free names type (some .null) none
  | right {names : List String} {type : FieldType} : free names → AlikeAt s free names type none (some .null)

end

variable {s : Schema} {free : List String → Prop} {names : List String} {type : FieldType}

theorem AlikeAt.refl (o : Option Json) : AlikeAt s free names type o o := by
  cases o with
  | none => exact .neither
  | some j => exact .both (.same j)

/-- Names lead to values that are alike again. -/
theorem Alike.follow {j j' : Json} (h : Alike s free names type j j') {path : List String} {type' : FieldType}
    (ht : s.typeAt? type path = some type') :
    AlikeAt s free (names ++ path) type' (Json.follow path j) (Json.follow path j') := by
  induction path generalizing names type j j' with
  | nil =>
    cases ht
    rw [List.append_nil]
    exact .both h
  | cons n rest ih =>
    cases h with
    | same => exact .refl _
    | array _ => exact .neither
    | @object _ _ _ members members' htype hfields =>
      obtain ⟨f, hf, htail⟩ := Option.bind_eq_some_iff.mp ht
      rw [Schema.declared?, FieldType.objectName?, Option.bind_some, htype, Option.bind_some] at hf
      obtain rfl : f.name = n := by simpa using List.find?_some hf
      have hmember := hfields f (List.mem_of_find?_eq_some hf)
      rw [List.append_cons]
      simp only [Json.follow]
      generalize first? members f.name = o at hmember ⊢
      generalize first? members' f.name = o' at hmember ⊢
      cases hmember with
      | neither => exact .neither
      | both h => exact ih h htail
      | left hfree =>
        cases rest with
        | nil => simpa [Json.follow] using AlikeAt.left hfree
        | cons _ _ => exact .neither
      | right hfree =>
        cases rest with
        | nil => simpa [Json.follow] using AlikeAt.right hfree
        | cons _ _ => exact .neither

theorem AlikeItems.forall₂ {items items' : List Json} (h : AlikeItems s free names type items items') :
    List.Forall₂ (Alike s free names type) items items' := by
  induction items generalizing items' with
  | nil => cases h; exact .nil
  | cons j rest ih =>
    cases h with
    | cons hj hrest => exact .cons hj (ih hrest)

/-- Elements of arrays that are alike are alike. -/
theorem Alike.elements {j j' : Json} (h : Alike s free names (.array type) j j') :
    List.Forall₂ (Alike s free names type) j.elements j'.elements := by
  cases h with
  | same => exact List.forall₂_same.mpr fun e _ => .same e
  | array hitems => exact hitems.forall₂

/-- Of scalars, and of arrays of scalars, nothing is left to differ but a null from nothing. -/
theorem AlikeAt.value_cases {o o' : Option Json} (h : AlikeAt s free names type o o') {kind : Kind} {t : Scalar}
    (hclass : classify type = some (kind, .scalar t)) :
    o = o' ∨ free names ∧ (o = some .null ∧ o' = none ∨ o = none ∧ o' = some .null) := by
  have hscalar : ∀ {j j' : Json}, Alike s free names (.scalar t) j j' → j = j' := by
    intro j j' hj
    cases hj
    rfl
  cases h with
  | neither => exact .inl rfl
  | left hfree => exact .inr ⟨hfree, .inl ⟨rfl, rfl⟩⟩
  | right hfree => exact .inr ⟨hfree, .inr ⟨rfl, rfl⟩⟩
  | both hj =>
    left
    cases hj with
    | same => rfl
    | object htype hfields => cases hclass
    | @array _ element items items' hitems =>
      cases element with
      | scalar t' =>
        cases hclass
        have heq : items = items' := by
          rw [← List.forall₂_eq_eq_eq]
          exact hitems.forall₂.imp fun _ _ he => hscalar he
        rw [heq]
      | object name => cases hclass
      | array e => cases hclass

/-- Nothing is where nothing is. -/
theorem AlikeAt.isNull_eq {o o' : Option Json} (h : AlikeAt s free names type o o') :
    (o.elim .null Json.cell).isNull = (o'.elim .null Json.cell).isNull := by
  cases h with
  | neither => rfl
  | left _ => rfl
  | right _ => rfl
  | both hj => cases hj <;> rfl

end Json

/-! ## Rows -/

/-- Two rows of one identity whose documents differ only in nulls and missing members, and can both be
handed out or neither. -/
structure Row.Alike (s : Schema) (free : List String → Prop) (row row' : Row) : Prop where
  id : row.id = row'.id
  document : ∃ doc doc', Json.readWith? .stored row.document = some doc ∧
    Json.readWith? .stored row'.document = some doc' ∧ Json.Alike s free [] (.object s.root) doc doc'
  decoded : (Json.read? row.document).isSome = (Json.read? row'.document).isSome

/-- The rows are the same, or differ only in nulls and missing members. -/
def Row.Near (s : Schema) (free : List String → Prop) (row row' : Row) : Prop := row = row' ∨ row.Alike s free row'

namespace Statement

variable {s : Schema} {free : List String → Prop}

/-- Elements of one join that are alike, below the array's names. -/
def ElementAlike (s : Schema) (free : List String → Prop) (e e' : String × Json) : Prop :=
  e.1 = e'.1 ∧ ∃ names name, (∀ n ∈ names, Name.Identifier n) ∧ e.1 = dotted names ∧
    s.typeAt? (.object s.root) names = some (.array (.object name)) ∧
    Json.Alike s free names (.object name) e.2 e'.2

namespace Joined

/-- Rows that are alike, with elements that are. -/
structure Alike (s : Schema) (free : List String → Prop) (x x' : Joined) : Prop where
  row : x.row.Alike s free x'.row
  elements : List.Forall₂ (ElementAlike s free) x.elements x'.elements

variable {x x' : Joined}

theorem elements_lookup {elements elements' : List (String × Json)}
    (h : List.Forall₂ (ElementAlike s free) elements elements') (label : String) :
    (elements.lookup label = none ∧ elements'.lookup label = none) ∨
      ∃ e e', elements.lookup label = some e ∧ elements'.lookup label = some e' ∧
        ElementAlike s free (label, e) (label, e') := by
  induction h with
  | nil => exact .inl ⟨rfl, rfl⟩
  | @cons p p' rest rest' hp _ ih =>
    obtain ⟨l, e⟩ := p
    obtain ⟨l', e'⟩ := p'
    obtain rfl : l = l' := hp.1
    by_cases hl : label = l
    · subst hl
      exact .inr ⟨e, e', by simp, by simp, hp⟩
    · have hne : (label == l) = false := beq_eq_false_iff_ne.mpr hl
      simp only [List.lookup_cons, hne]
      exact ih

/-- What rows that are alike have at a location is alike, and it is read in both or in neither. -/
theorem Alike.find (h : x.Alike s free x') {l : Location} {names : List String} {type : FieldType}
    (hl : l.Typed s names type) : Except.Rel (Json.AlikeAt s free names type) (x.find l) (x'.find l) := by
  unfold Joined.find Joined.source
  cases hsource : l.source with
  | document =>
    obtain ⟨doc, doc', hdoc, hdoc', halike⟩ := h.row.document
    have hnames := hl.in_document hsource
    simp only [parse, hdoc, hdoc']
    exact .ok (hnames ▸ halike.follow (hnames ▸ hl.typed))
  | element label =>
    rcases elements_lookup h.elements label with ⟨hnone, hnone'⟩ | ⟨e, e', he, he', -, above, name, hid, hlabel, htype, halike⟩
    · simp only [hnone, hnone']
      exact .ok .neither
    · obtain ⟨rfl, hbelow⟩ := hl.in_element hsource hid hlabel htype
      simp only [he, he']
      cases halike with
      | same => exact Except.Rel.refl (fun o => Json.AlikeAt.refl o) _
      | object ht hfields => exact .ok ((Json.Alike.object ht hfields).follow hbelow)

end Joined

/-! ## Joining -/

/-- The join's array stands where its label says, and may not be null in one table and missing in the other. -/
def JoinTyped (s : Schema) (free : List String → Prop) (j : ArrayJoin) : Prop :=
  ∃ names name, j.label = dotted names ∧ j.array.Typed s names (.array (.object name)) ∧ ¬ free names

theorem choices_alike {x x' : Joined} (h : x.Alike s free x') {j : ArrayJoin} (hj : JoinTyped s free j) :
    Except.Rel (List.Forall₂ (Joined.Alike s free)) (choices x j) (choices x' j) := by
  obtain ⟨names, name, hlabel, htyped, hfree⟩ := hj
  refine (h.find htyped).bind fun o o' ho => ?_
  cases ho with
  | neither => exact .ok .nil
  | left h => exact absurd h hfree
  | right h => exact absurd h hfree
  | both hv =>
    refine .ok ?_
    rw [List.forall₂_map_left_iff, List.forall₂_map_right_iff]
    refine hv.elements.imp fun e e' he => ⟨h.row, .cons ?_ h.elements⟩
    exact ⟨rfl, names, name, htyped.identifier, hlabel, htyped.typed, he⟩

/-- Joining takes pairs of rows to pairs of rows. -/
theorem joinAll_alike {joins : List ArrayJoin} (hjoins : ∀ j ∈ joins, JoinTyped s free j) {x x' : Joined}
    (h : x.Alike s free x') :
    Except.Rel (List.Forall₂ (Joined.Alike s free)) (joinAll joins x) (joinAll joins x') := by
  induction joins generalizing x x' with
  | nil => exact .ok (.cons h .nil)
  | cons j rest ih =>
    obtain ⟨hj, hrest⟩ := List.forall_mem_cons.mp hjoins
    refine (choices_alike h hj).bind fun rows rows' hrows => ?_
    have hall := Except.Rel.mapM (hrows.imp fun y y' hy => ih hrest hy)
    refine hall.bind fun out out' hout => .ok ?_
    induction hout with
    | nil => exact .nil
    | cons hy _ ih' => exact List.rel_append hy ih'

/-! ## Conditions -/

/-- The leaf asks for a lack among the members of a value that may be null in one table and missing in the other. -/
def Bound.Lacks (free : List String → Prop) (b : Bound) : Prop :=
  ∃ r type v, b = .member true r type v ∧ free r.names

theorem typed_null (now : Nat) (type : Scalar) : typed now type .null = .null := by cases type <;> rfl

/-- A null that is listed is no more found than nothing. -/
theorem isIn_null (v : Cell) : (Cell.isIn v [.null]).isTrue = (Cell.isIn v []).isTrue := by
  have hnone : Cell.isIn v [] = some false := rfl
  rw [hnone]
  cases h : Cell.isIn v [.null] with
  | none => rfl
  | some b =>
    cases b with
    | false => rfl
    | true => simp [Cell.isIn, Cell.compares, Cell.isNull] at h

namespace Joined.Alike

variable {x x' : Joined} (hx : x.Alike s free x') (hs : s.Built) {path : String} {r : ResolvedPath}
  (hr : resolve s path = .ok r)

include hx hs hr

theorem isNull_cell : Except.Rel (fun c c' => c.isNull = c'.isNull) (x.cell r.place) (x'.cell r.place) := by
  obtain ⟨type, htyped, -⟩ := place_typed hs hr
  refine (hx.find htyped).bind fun o o' ho => ?_
  have hnull := ho.isNull_eq
  cases o <;> cases o' <;> exact .ok hnull

variable {t : Scalar} (helement : r.terminal.element = .scalar t)

include helement

theorem cell_eq : x.cell r.place = x'.cell r.place := by
  obtain ⟨type, htyped, hclass⟩ := place_typed hs hr
  apply Except.Rel.eq
  refine (hx.find htyped).bind fun o o' ho => ?_
  rcases ho.value_cases (helement ▸ hclass) with rfl | ⟨-, ⟨rfl, rfl⟩ | ⟨rfl, rfl⟩⟩
  · exact Except.Rel.refl (fun _ => rfl) _
  · exact .ok rfl
  · exact .ok rfl

theorem members_cases : Except.Rel
    (fun m m' => m = m' ∨ free r.names ∧ (m = [.null] ∧ m' = [] ∨ m = [] ∧ m' = [.null]))
    (x.members r.place) (x'.members r.place) := by
  obtain ⟨type, htyped, hclass⟩ := place_typed hs hr
  unfold Joined.members
  by_cases hhidden : r.place.source.isHidden = true
  · simp only [hhidden, if_true]
    exact .ok (.inl rfl)
  · simp only [hhidden, Bool.false_eq_true, if_false]
    refine (hx.find htyped).bind fun o o' ho => ?_
    rcases ho.value_cases (helement ▸ hclass) with rfl | ⟨hfree, ⟨rfl, rfl⟩ | ⟨rfl, rfl⟩⟩
    · exact Except.Rel.refl (fun _ => .inl rfl) _
    · exact .ok (.inr ⟨hfree, .inl ⟨rfl, rfl⟩⟩)
    · exact .ok (.inr ⟨hfree, .inr ⟨rfl, rfl⟩⟩)

end Joined.Alike

section conditions

variable (hs : s.Built) {x x' : Joined} (hx : x.Alike s free x') (now : Nat) (parameters : List Cell) (n : Nat)

include hs hx

/-- A leaf holds of rows that are alike, or of neither, unless it finds out about a null that is listed. -/
theorem Bound.holds_alike {b : Bound} (hb : b.Sound s) (hlacks : ¬ b.Lacks free) :
    (b.condition n).holds now parameters x = (b.condition n).holds now parameters x' := by
  apply Except.Rel.eq
  cases b with
  | identityNull negated => exact .ok rfl
  | identityCompare c v =>
    refine .ok ?_
    rw [hx.row.id]
  | isNull negated r =>
    obtain ⟨path, hr⟩ := hb.resolved r rfl
    refine (hx.isNull_cell hs hr).bind fun c c' hc => .ok ?_
    rw [hc]
  | compare c r type v =>
    obtain ⟨path, hr⟩ := hb.resolved r rfl
    show Except.Rel _ ((x.cell r.place).bind _) ((x'.cell r.place).bind _)
    rw [hx.cell_eq hs hr (hb.typed r type rfl rfl)]
    exact Except.Rel.refl (fun _ => rfl) _
  | member negated r type v =>
    obtain ⟨path, hr⟩ := hb.resolved r rfl
    refine (hx.members_cases hs hr (hb.typed r type rfl rfl)).bind fun m m' hm => .ok ?_
    rcases hm with rfl | ⟨hfree, hnull⟩
    · rfl
    · cases negated with
      | true => exact absurd ⟨r, type, v, rfl, hfree⟩ hlacks
      | false =>
        have hlisted := isIn_null (opposite type (parameter parameters (n + 1)))
        rcases hnull with ⟨rfl, rfl⟩ | ⟨rfl, rfl⟩
        · simpa [typed_null, Json.cell, negateIf] using hlisted
        · simpa [typed_null, Json.cell, negateIf] using hlisted.symm

/-- A query holds of rows that are alike, or of neither, if it asks for no lack in a value that may be null or
missing. -/
theorem BoundTree.holds_alike {t : BoundTree} (ht : t.Sound s) (hlacks : ∀ b ∈ t.bounds, ¬ b.Lacks free) :
    (t.condition n).holds now parameters x = (t.condition n).holds now parameters x' := by
  induction t generalizing n with
  | leaf b =>
    exact b.holds_alike hs hx now parameters n (ht b (List.mem_singleton.mpr rfl)) (hlacks b (List.mem_singleton.mpr rfl))
  | binary c left right ihl ihr =>
    have hleft := ihl n ht.left fun b hb => hlacks b (List.mem_append_left _ hb)
    have hright := ihr (n + left.values.length) ht.right fun b hb => hlacks b (List.mem_append_right _ hb)
    cases c <;> simp only [condition, Condition.holds, hleft, hright]

end conditions

/-! ## Statements -/

/-- The query passes no array, and asks for no lack in one, that may be null in one table and missing in the
other. -/
structure Unlisted (t : Option BoundTree) (free : List String → Prop) : Prop where
  passed : ∀ r ∈ t.elim [] BoundTree.paths, ∀ c ∈ r.arrays, ¬ free c.names
  lacking : ∀ tree, t = some tree → ∀ b ∈ tree.bounds, ¬ b.Lacks free

section statements

variable (hs : s.Built) {t : Option BoundTree} (ht : ∀ tree, t = some tree → tree.Sound s) (hfree : Unlisted t free)

include hs ht hfree

theorem requestJoins_typed : ∀ j ∈ requestJoins t [], JoinTyped s free j := by
  intro j hj
  obtain ⟨r, hr, c, hc, hlabel, harray⟩ := requestJoins_sound hj
  have hr : r ∈ t.elim [] BoundTree.paths := by simpa [requestPaths] using hr
  obtain ⟨path, hpath⟩ : ∃ path, resolve s path = .ok r := by
    cases t with
    | none => cases hr
    | some tree => exact (ht tree rfl).resolved r hr
  obtain ⟨name, htyped⟩ := crossing_typed hs hpath hc
  exact ⟨c.names, name, hlabel, harray ▸ htyped, hfree.passed r hr c hc⟩

/-- The condition selects both of two joined rows that are alike, or neither. -/
theorem selects_alike (now : Nat) (parameters : List Cell) {x x' : Joined} (hx : x.Alike s free x') :
    selects now parameters (t.map (·.condition 0)) x = selects now parameters (t.map (·.condition 0)) x' := by
  cases t with
  | none => rfl
  | some tree => exact tree.holds_alike hs hx now parameters 0 (ht tree rfl) (hfree.lacking tree rfl)

theorem matchAlike_near {st : Statement} (hjoins : st.joins = requestJoins t [])
    (hcondition : st.condition = t.map (·.condition 0)) (now : Nat) (parameters : List Cell) {row row' : Row}
    (hrow : Row.Near s free row row') : MatchAlike st now parameters (Row.Near s free) row row' := by
  unfold MatchAlike
  rw [hjoins, hcondition]
  rcases hrow with rfl | hrow
  · exact Except.Rel.refl (fun out => List.forall₂_same.mpr fun x _ => ⟨.inl rfl, Except.Rel.refl (fun _ => rfl) _⟩) _
  · have hstart : Joined.Alike s free ⟨row, []⟩ ⟨row', []⟩ := ⟨hrow, .nil⟩
    refine (joinAll_alike (requestJoins_typed hs ht hfree) hstart).mono fun rows rows' hrows => hrows.imp fun x x' hx => ?_
    rw [selects_alike hs ht hfree now parameters hx]
    exact ⟨.inr hx.row, Except.Rel.refl (fun _ => rfl) _⟩

end statements

end Statement

namespace Collection

/-! ## Collections -/

variable {s : Schema} {free : List String → Prop}

theorem near_id {row row' : Row} (h : row.Near s free row') : row.id = row'.id := by
  rcases h with rfl | h
  · rfl
  · exact h.id

/-- Rows that are near are handed out with one identity, or are both refused. -/
theorem decodeRow_near {row row' : Row} (h : row.Near s free row') :
    Except.Rel (fun e e' : Guid × Json => e.1 = e'.1) (decodeRow row) (decodeRow row') := by
  rcases h with rfl | h
  · exact Except.Rel.refl (R := fun e e' : Guid × Json => e.1 = e'.1) (fun _ => rfl) _
  · have hdecoded := h.decoded
    unfold decodeRow decode
    cases hread : Json.read? row.document with
    | none =>
      rw [hread] at hdecoded
      rw [Option.isSome_eq_false_iff.mp hdecoded.symm |> Option.isNone_iff_eq_none.mp]
      exact .error _
    | some j =>
      rw [hread] at hdecoded
      obtain ⟨j', hread'⟩ := Option.isSome_iff_exists.mp hdecoded.symm
      rw [hread']
      exact .ok h.id

/-- Identities of found documents. -/
def ids (found : List (Guid × Json)) : List Guid := found.map (·.1)

variable {c : Collection} {q : Option Query} {t : Option BoundTree}

/-- In two tables that differ only in members which are null in one and missing in the other a query finds
the same identities and counts the same number, or fails alike, at one time and in stores that see members alike.
Where the query lists members there may be no such difference: in the object arrays that it passes and the value
arrays that it tests for lacking a value. -/
theorem nulls_found (hs : c.schema.Built) (hq : boundRequest c.schema q [] = .ok (t, []))
    (hfree : Unlisted t free) {store store' : Store} {relation relation' : Store.Relation}
    (hrelation : store.relation c.table = .ok relation) (hrelation' : store'.relation c.table = .ok relation')
    (hclock : store.clock = store'.clock) (hseen : store.SeesMembers ↔ store'.SeesMembers)
    (hrows : List.Forall₂ (Row.Near c.schema free) relation.rows relation'.rows) :
    (c.find store q .none .all).map ids = (c.find store' q .none .all).map ids ∧
      c.count store q = c.count store' q := by
  have hsound := boundRequest_sound hq
  have hadmits : ∀ compiled : Compiled, store.Admits compiled ↔ store'.Admits compiled := fun compiled =>
    ⟨fun h => ⟨h.fits, fun hlists => hseen.mp (h.seen hlists)⟩,
      fun h => ⟨h.fits, fun hlists => hseen.mpr (h.seen hlists)⟩⟩
  constructor
  · apply Except.Rel.eq
    have hanswer : Except.Rel (List.Forall₂ (Row.Near c.schema free)) (store.query (c.compiledRows t))
        (store'.query (c.compiledRows t)) := by
      by_cases h : store.Admits (c.compiledRows t)
      · rw [Store.query_admitted h hrelation, Store.query_admitted ((hadmits _).mp h) hrelation', ← hclock]
        exact rows_paired (fun _ _ => near_id)
          (hrows.imp fun _ _ => matchAlike_near hs hsound hfree (requestJoins_default c t) rfl store.clock _) hrows rfl
          (defaultKeys_byIdentity c) (requestJoins_ungrouped (defaultKeys_sortArrays c))
      · rw [Store.query_refused h, Store.query_refused (mt (hadmits _).mpr h)]
        exact .error _
    unfold find
    rw [compile_default hq]
    have hfound : Except.Rel (List.Forall₂ fun e e' : Guid × Json => e.1 = e'.1) _ _ :=
      hanswer.bind fun rows rows' hpairs => Except.Rel.mapM (hpairs.imp fun _ _ h => decodeRow_near h)
    refine hfound.map fun found found' hpairs => ?_
    unfold ids
    rw [← List.forall₂_eq_eq_eq, List.forall₂_map_left_iff, List.forall₂_map_right_iff]
    exact hpairs
  · unfold count
    rw [count_default hq]
    show store.count (c.compiledNumber t) = store'.count (c.compiledNumber t)
    by_cases h : store.Admits (c.compiledNumber t)
    · rw [Store.count_admitted h hrelation, Store.count_admitted ((hadmits _).mp h) hrelation', ← hclock]
      exact total_paired (fun _ _ => near_id)
        (hrows.imp fun _ _ => matchAlike_near hs hsound hfree rfl rfl store.clock _)
    · rw [Store.count_refused h, Store.count_refused (mt (hadmits _).mpr h)]

/-! ## Posts with and without nulls -/

/-- Posts with a title, tags and comments. -/
def posted : Schema :=
  ⟨"Post", [⟨"Comment", [⟨"Content", .scalar .string⟩]⟩,
    ⟨"Post", [⟨"Title", .scalar .string⟩, ⟨"Tags", .array (.scalar .string)⟩, ⟨"Comments", .array (.object "Comment")⟩]⟩]⟩

def postedPosts : Collection := ⟨posts, posted, false⟩

theorem posted_built : posted.Built := ⟨"Post", posted.types, by decide +kernel⟩

/-- Posts are alike when their titles, tags and comments are. -/
theorem posted_alike {free : List String → Prop} {members members' : List (String × Json)}
    (htitle : Json.AlikeAt posted free ["Title"] (.scalar .string)
      (Json.first? members "Title") (Json.first? members' "Title"))
    (htags : Json.AlikeAt posted free ["Tags"] (.array (.scalar .string))
      (Json.first? members "Tags") (Json.first? members' "Tags"))
    (hcomments : Json.AlikeAt posted free ["Comments"] (.array (.object "Comment"))
      (Json.first? members "Comments") (Json.first? members' "Comments")) :
    Json.Alike posted free [] (.object "Post") (.object members) (.object members') := by
  refine .object (t := ⟨"Post", [⟨"Title", .scalar .string⟩, ⟨"Tags", .array (.scalar .string)⟩,
    ⟨"Comments", .array (.object "Comment")⟩]⟩) rfl ?_
  intro f hf
  simp only [List.mem_cons, List.not_mem_nil, or_false] at hf
  rcases hf with rfl | rfl | rfl
  · exact htitle
  · exact htags
  · exact hcomments

def nullPost : Row := rowOf 1 (.object [("Title", .null), ("Tags", .null),
  ("Comments", .array [.object [("Content", .string "a")], .object [("Content", .null)]])])

def barePost : Row := rowOf 1 (.object [("Comments", .array [.object [("Content", .string "a")], .object []])])

/-- What is null in the one post and missing in the other. -/
def Vacant (names : List String) : Prop := names ∈ [["Title"], ["Tags"], ["Comments", "Content"]]

theorem nullPost_alike : nullPost.Alike posted Vacant barePost := by
  have hread : Json.readWith? .stored nullPost.document = some (.object [("Title", .null), ("Tags", .null),
      ("Comments", .array [.object [("Content", .string "a")], .object [("Content", .null)]])]) := by rfl
  have hread' : Json.readWith? .stored barePost.document =
      some (.object [("Comments", .array [.object [("Content", .string "a")], .object []])]) := by rfl
  have hcomment : Json.Alike posted Vacant ["Comments"] (.object "Comment") (.object [("Content", .null)]) (.object []) := by
    refine .object (t := ⟨"Comment", [⟨"Content", .scalar .string⟩]⟩) rfl ?_
    intro f hf
    obtain rfl := List.mem_singleton.mp hf
    exact .left (by simp [Vacant])
  refine ⟨rfl, ⟨_, _, hread, hread', posted_alike ?_ ?_ ?_⟩, by decide +kernel⟩
  · exact .left (by simp [Vacant])
  · exact .left (by simp [Vacant])
  · exact .both (.array (.cons (.same _) (.cons hcomment .nil)))

/-- No title and a comment `a`, or a tag `b`. -/
def untitledOrTagged : Query :=
  .binary .or (.binary .and (.isNull "Title") (.unary "Comments.Content" (.comparison .equalTo) (.text "a")))
    (.unary "Tags" .contains (.text "b"))

def titlePath : ResolvedPath := ⟨[], ⟨"Title", .scalar, .scalar .string⟩⟩

def commentPath : ResolvedPath :=
  ⟨[⟨"Comments", .objectArray, .object "Comment"⟩], ⟨"Content", .scalar, .scalar .string⟩⟩

def untitledOrTaggedTree : BoundTree :=
  .binary .or
    (.binary .and (.leaf (.isNull false titlePath)) (.leaf (.compare .equalTo commentPath .string (.text "a"))))
    (.leaf (.member false tagsOfPost .string (.text "b")))

theorem untitledOrTagged_bound :
    boundRequest posted (some untitledOrTagged) [] = .ok (some untitledOrTaggedTree, []) := by rfl

theorem untitledOrTagged_unlisted : Unlisted (some untitledOrTaggedTree) Vacant := by
  constructor
  · intro r hr c hc
    have hr : r = titlePath ∨ r = commentPath ∨ r = tagsOfPost := by
      simpa [untitledOrTaggedTree, BoundTree.paths, Bound.path?] using hr
    rcases hr with rfl | rfl | rfl
    · cases hc
    · rw [List.mem_singleton.mp hc]
      show ["Comments"] ∉ [["Title"], ["Tags"], ["Comments", "Content"]]
      decide
    · cases hc
  · intro tree htree b hb h
    cases htree
    obtain ⟨r, type, v, rfl, -⟩ := h
    simp [untitledOrTaggedTree, BoundTree.bounds] at hb

/-- The post is found and counted with its nulls and without them. -/
theorem nullPost_found :
    (postedPosts.find (storeOf [nullPost]) (some untitledOrTagged) .none .all).map ids =
      (postedPosts.find (storeOf [barePost]) (some untitledOrTagged) .none .all).map ids ∧
    postedPosts.count (storeOf [nullPost]) (some untitledOrTagged) =
      postedPosts.count (storeOf [barePost]) (some untitledOrTagged) :=
  nulls_found (c := postedPosts) posted_built untitledOrTagged_bound untitledOrTagged_unlisted
    (storeOf_relation [nullPost]) (storeOf_relation [barePost]) rfl
    (iff_of_true (by decide +kernel) (by decide +kernel)) (.cons (.inr nullPost_alike) .nil)

/-! ## Nulls that are listed -/

/-- A post whose tags and comments are null, and one that has none. -/
def vacantPost : Row := rowOf 1 (.object [("Tags", .null), ("Comments", .null)])

def emptyPost : Row := rowOf 1 (.object [])

theorem vacantPost_alike : vacantPost.Alike posted (fun names => names = ["Tags"] ∨ names = ["Comments"]) emptyPost := by
  have hread : Json.readWith? .stored vacantPost.document =
      some (.object [("Tags", .null), ("Comments", .null)]) := by rfl
  have hread' : Json.readWith? .stored emptyPost.document = some (.object []) := by rfl
  refine ⟨rfl, ⟨_, _, hread, hread', posted_alike ?_ ?_ ?_⟩, by decide +kernel⟩
  · exact .neither
  · exact .left (.inl rfl)
  · exact .left (.inr rfl)

/-- For a comment without content the post counts whose comments are null, as if it had one, and not the
post that has none. For lacking a tag the latter is found and not the former. -/
theorem vacant_told_apart : posted.Built ∧
    vacantPost.Alike posted (fun names => names = ["Tags"] ∨ names = ["Comments"]) emptyPost ∧
    postedPosts.count (storeOf [vacantPost]) (some (.isNull "Comments.Content")) = .ok 1 ∧
    postedPosts.count (storeOf [emptyPost]) (some (.isNull "Comments.Content")) = .ok 0 ∧
    (postedPosts.find (storeOf [vacantPost]) (some (memberQuery true "Tags" (.text "a"))) .none .all).map ids = .ok [] ∧
    (postedPosts.find (storeOf [emptyPost]) (some (memberQuery true "Tags" (.text "a"))) .none .all).map ids =
      .ok [emptyPost.id] :=
  ⟨posted_built, vacantPost_alike, by rfl, by rfl, by decide +kernel, by decide +kernel⟩

end Collection

end DocQuery
