/-
  DocQuery.Proofs.Path.Resolution — what a resolved path says about the schema.

  The nodes of a resolved path follow declared fields: each node's kind and element are those of
  the type that its declared name leads to (`resolve_declared`). Declared names alone fix the
  nodes, however the path was spelled (`Declared.eq_of_names`), and fix the arrays on the way
  (`Declared.crossing_eq`). In a schema that was built names are identifiers, so dotted names are
  read one way only (`dotted_injective`).
-/

import Mathlib.Data.List.Basic
import DocQuery.Proofs.Name
import DocQuery.Proofs.Path.Position

namespace DocQuery

/-! ## Built schemas -/

/-- The schema was made by `Schema.ofTypes`. -/
def Schema.Built (s : Schema) : Prop := ∃ root types, Schema.ofTypes root types = .ok s

namespace ObjectType

theorem checkFields_identifier {typeName : String} {fields : List Field} {earlier : List String}
    (h : checkFields typeName earlier fields = .ok ()) : ∀ f ∈ fields, Name.Identifier f.name := by
  induction fields generalizing earlier with
  | nil => intro f hf; cases hf
  | cons g rest ih =>
    simp only [checkFields, bind, Except.bind] at h
    cases hg : checkFieldName g.name with
    | error e => simp [hg] at h
    | ok u =>
      simp only [hg] at h
      split at h
      · cases h
      · intro f hf
        rcases List.mem_cons.mp hf with rfl | hf
        · exact Name.identifier_of_check hg
        · exact ih h f hf

end ObjectType

namespace Schema

theorem mem_insertType? {t u : ObjectType} {types out : List ObjectType} (h : insertType? t types = some out)
    (hu : u ∈ out) : u = t ∨ u ∈ types := by
  induction types generalizing out with
  | nil => simp only [insertType?, Option.some.injEq] at h; subst h; simpa using hu
  | cons v rest ih =>
    simp only [insertType?] at h
    split at h
    · simp only [Option.some.injEq] at h; subst h
      simpa using hu
    · split at h
      · obtain ⟨more, hmore, rfl⟩ := Option.map_eq_some_iff.mp h
        rcases List.mem_cons.mp hu with rfl | hu
        · exact Or.inr (List.mem_cons_self ..)
        · exact (ih hmore hu).imp_right (List.mem_cons_of_mem _)
      · cases h

theorem collect_identifier {given types out : List ObjectType} (h : collect types given = .ok out)
    (hn : ∀ t ∈ types, ∀ f ∈ t.fields, Name.Identifier f.name) :
    ∀ t ∈ out, ∀ f ∈ t.fields, Name.Identifier f.name := by
  induction given generalizing types with
  | nil => simp only [collect, Except.ok.injEq] at h; subst h; exact hn
  | cons t rest ih =>
    simp only [collect, bind, Except.bind] at h
    cases hc : ObjectType.checkFields t.name [] t.fields with
    | error e => simp [hc] at h
    | ok u =>
      simp only [hc] at h
      cases hi : insertType? t types with
      | none => rw [hi] at h; cases h
      | some more =>
        simp only [hi] at h
        refine ih h fun v hv => ?_
        rcases mem_insertType? hi hv with rfl | hv
        · exact ObjectType.checkFields_identifier hc
        · exact hn v hv

/-- Fields of a built schema bear identifiers. -/
theorem Built.identifier {s : Schema} (h : s.Built) {t : ObjectType} (ht : t ∈ s.types) {f : Field}
    (hf : f ∈ t.fields) : Name.Identifier f.name := by
  obtain ⟨root, given, h⟩ := h
  simp only [ofTypes, bind, Except.bind] at h
  cases hc : collect [] given with
  | error e => simp [hc] at h
  | ok types =>
    simp only [hc] at h
    have hs : s = ⟨root, types⟩ := by
      repeat' split at h
      all_goals first | cases h; rfl | cases h
    subst hs
    exact collect_identifier hc (fun t ht => by cases ht) t ht f hf

end Schema

/-! ## Declared names -/

/-- The object type whose fields a value, or an element of its array, has. -/
def FieldType.objectName? : FieldType → Option String
  | .object name => some name
  | .array (.object name) => some name
  | _ => none

namespace Schema

/-- The field of this declared name below a type. -/
def declared? (s : Schema) (type : FieldType) (name : String) : Option Field :=
  (type.objectName?.bind s.type?).bind fun t => t.fields.find? (·.name == name)

theorem declared?_mem {s : Schema} {type : FieldType} {name : String} {f : Field}
    (h : s.declared? type name = some f) : f.name = name ∧ ∃ t ∈ s.types, f ∈ t.fields := by
  obtain ⟨t, ht, hf⟩ := Option.bind_eq_some_iff.mp h
  obtain ⟨typeName, -, ht⟩ := Option.bind_eq_some_iff.mp ht
  exact ⟨by simpa using List.find?_some hf, t, List.mem_of_find?_eq_some ht, List.mem_of_find?_eq_some hf⟩

end Schema

namespace Path

/-- Nodes that follow declared fields down from a type. -/
def Declared (s : Schema) : FieldType → List Node → Prop
  | _, [] => True
  | type, n :: rest => ∃ f, s.declared? type n.name = some f ∧ classify f.type = some (n.kind, n.element) ∧
      Declared s f.type rest

/-- A walk stands where a value of this type is. -/
def Place.Of (s : Schema) (type : FieldType) : Place → Prop
  | .type t => type.objectName?.bind s.type? = some t
  | .leaf _ => True

/-- Looking a field up ignoring case finds the first of its declared name. -/
theorem find?_declared {t : ObjectType} {name : String} {f : Field} (h : t.field? name = some f) :
    t.fields.find? (·.name == f.name) = some f := by
  unfold ObjectType.field? at h
  obtain ⟨hf, before, after, hfields, hbefore⟩ := List.find?_eq_some_iff_append.mp h
  refine List.find?_eq_some_iff_append.mpr ⟨by simp, before, after, hfields, fun g hg => ?_⟩
  -- A field of the same name before `f` would have been found instead.
  have hne := hbefore g hg
  by_cases e : g.name = f.name
  · rw [e, hf] at hne; cases hne
  · simpa using e

theorem classify_element {type : FieldType} {kind : Kind} {element : Element}
    (h : classify type = some (kind, element)) :
    (∀ typeName, element = .object typeName → type.objectName? = some typeName) ∧
    (kind = .scalar → ∃ s, element = .scalar s) ∧ (kind = .valueArray → ∃ s, element = .scalar s) ∧
    (kind = .object → ∃ typeName, element = .object typeName) ∧
    (kind = .objectArray ↔ ∃ typeName, type = .array (.object typeName)) := by
  cases type with
  | scalar s => cases h; simp
  | object name => cases h; simp [FieldType.objectName?]
  | array e =>
    cases e with
    | scalar s => cases h; simp
    | object name => cases h; simp [FieldType.objectName?]
    | array e => cases h

theorem step_declared {s : Schema} {path : String} {place next : Place} {segment : List Char} {n : Node}
    {type : FieldType} (hp : place.Of s type) (h : step s path place segment = .ok (n, next)) :
    ∃ f, s.declared? type n.name = some f ∧ classify f.type = some (n.kind, n.element) ∧ next.Of s f.type := by
  cases place with
  | leaf name => cases h
  | type t =>
    simp only [step] at h
    cases hf : (segmentName? segment).bind t.field? with
    | none => simp [hf] at h
    | some f =>
      simp only [hf] at h
      obtain ⟨name, -, hfield⟩ := Option.bind_eq_some_iff.mp hf
      have hdecl : s.declared? type f.name = some f := by
        simp only [Place.Of] at hp
        rw [Schema.declared?, hp]; exact find?_declared hfield
      cases hc : classify f.type with
      | none => simp [hc] at h
      | some ke =>
        obtain ⟨kind, element⟩ := ke
        simp only [hc] at h
        cases element with
        | scalar sc => cases h; exact ⟨f, hdecl, hc, trivial⟩
        | object typeName =>
          simp only at h
          cases ht : s.type? typeName with
          | none => simp [ht] at h
          | some target =>
            simp only [ht, Except.ok.injEq, Prod.mk.injEq] at h
            obtain ⟨rfl, rfl⟩ := h
            refine ⟨f, hdecl, hc, ?_⟩
            rw [Place.Of, (classify_element hc).1 typeName rfl]; exact ht

theorem walk_declared {s : Schema} {path : String} {place : Place} {segments : List (List Char)} {nodes : List Node}
    {type : FieldType} (hp : place.Of s type) (h : walk s path place segments = .ok nodes) :
    Declared s type nodes := by
  induction segments generalizing place nodes type with
  | nil => simp only [walk, Except.ok.injEq] at h; subst h; trivial
  | cons segment rest ih =>
    simp only [walk, bind, Except.bind] at h
    cases hs : step s path place segment with
    | error e => simp [hs] at h
    | ok out =>
      obtain ⟨n, next⟩ := out
      simp only [hs] at h
      cases hw : walk s path next rest with
      | error e => simp [hw] at h
      | ok more =>
        simp only [hw, pure, Except.pure, Except.ok.injEq] at h
        subst h
        obtain ⟨f, hf, hc, hnext⟩ := step_declared hp hs
        exact ⟨f, hf, hc, ih hnext hw⟩

theorem origin_of (s : Schema) : (origin s).Of s (.object s.root) := by
  unfold origin
  cases h : s.rootType? with
  | none => trivial
  | some t => exact h

theorem ofNodes?_nodes {nodes : List Node} {r : ResolvedPath} (h : ResolvedPath.ofNodes? nodes = some r) :
    r.nodes = nodes := by
  induction nodes generalizing r with
  | nil => cases h
  | cons n rest ih =>
    cases rest with
    | nil => cases h; rfl
    | cons m more =>
      obtain ⟨r', hr', rfl⟩ := Option.map_eq_some_iff.mp h
      have := ih hr'
      simp only [ResolvedPath.nodes] at this ⊢
      simp [this]

/-- A resolved path follows declared fields from the root and does not end on an object array. -/
theorem resolve_declared {s : Schema} {path : String} {r : ResolvedPath} (h : resolve s path = .ok r) :
    Declared s (.object s.root) r.nodes ∧ r.terminal.kind ≠ .objectArray := by
  simp only [resolve, bind, Except.bind] at h
  by_cases he : (Text.trimChars path.toList).isEmpty = true
  · simp [he] at h
  simp only [he, Bool.false_eq_true, if_false] at h
  cases hw : walk s path (origin s) (pieces (Text.trimChars path.toList)) with
  | error e => simp [hw] at h
  | ok nodes =>
    simp only [hw] at h
    cases hn : ResolvedPath.ofNodes? nodes with
    | none => simp [hn] at h
    | some r' =>
      simp only [hn] at h
      split at h
      · cases h
      · rename_i hk
        cases h
        exact ⟨(ofNodes?_nodes hn).symm ▸ walk_declared (origin_of s) hw, by simpa using hk⟩

/-! ## What declared names fix -/

theorem Declared.append {s : Schema} {type : FieldType} {a b : List Node} (h : Declared s type (a ++ b)) :
    Declared s type a := by
  induction a generalizing type with
  | nil => trivial
  | cons n rest ih =>
    obtain ⟨f, hf, hc, hrest⟩ := h
    exact ⟨f, hf, hc, ih hrest⟩

/-- A declared field's name fixes its node. -/
theorem node_eq {n m : Node} {f g : Field} (hn : n.name = m.name) (hf : classify f.type = some (n.kind, n.element))
    (hg : classify g.type = some (m.kind, m.element)) (e : f = g) : n = m := by
  subst e
  rw [hf] at hg
  cases n; cases m
  simp_all

/-- Nodes that follow declared fields are fixed by their names. -/
theorem Declared.eq_of_names {s : Schema} {type : FieldType} {a b : List Node} (ha : Declared s type a)
    (hb : Declared s type b) (h : a.map (·.name) = b.map (·.name)) : a = b := by
  induction a generalizing b type with
  | nil => cases b with
    | nil => rfl
    | cons m rest => cases h
  | cons n rest ih =>
    cases b with
    | nil => cases h
    | cons m more =>
      simp only [List.map_cons, List.cons.injEq] at h
      obtain ⟨f, hf, hcf, hrest⟩ := ha
      obtain ⟨g, hg, hcg, hmore⟩ := hb
      have e : f = g := Option.some.inj ((hf.symm.trans (h.1 ▸ rfl)).trans hg)
      rw [node_eq h.1 hcf hcg e, ih hrest (e ▸ hmore) h.2]

theorem mem_crossingsFrom_names {pos : Position} {nodes : List Node} {c : Crossing} (h : c ∈ crossingsFrom pos nodes) :
    ∃ n more, c.names = pos.names ++ n :: more ∧ (nodes.map (·.name)).head? = some n := by
  induction nodes generalizing pos with
  | nil => cases h
  | cons n rest ih =>
    refine ⟨n.name, ?_⟩
    by_cases hk : n.kind = .objectArray
    · rw [crossingsFrom_array hk] at h
      rcases List.mem_cons.mp h with rfl | h
      · exact ⟨[], rfl, rfl⟩
      · obtain ⟨m, more, e, -⟩ := ih h
        exact ⟨m :: more, by simp [e], rfl⟩
    · rw [crossingsFrom_member hk] at h
      obtain ⟨m, more, e, -⟩ := ih h
      exact ⟨m :: more, by simp [e], rfl⟩

/-- An array's names fix where it is read. -/
theorem Declared.crossing_eq {s : Schema} {type : FieldType} {a b : List Node} {pos : Position}
    (ha : Declared s type a) (hb : Declared s type b) {c c' : Crossing} (hc : c ∈ crossingsFrom pos a)
    (hc' : c' ∈ crossingsFrom pos b) (h : c.names = c'.names) : c = c' := by
  induction a generalizing b type pos with
  | nil => cases hc
  | cons n rest ih =>
    cases b with
    | nil => cases hc'
    | cons m more =>
      obtain ⟨x, xs, hx, hnx⟩ := mem_crossingsFrom_names hc
      obtain ⟨y, ys, hy, hmy⟩ := mem_crossingsFrom_names hc'
      simp only [List.map_cons, List.head?_cons, Option.some.injEq] at hnx hmy
      subst hnx; subst hmy
      have hname : n.name = m.name := by
        rw [hx, hy] at h
        exact (List.cons.inj (List.append_cancel_left h)).1
      obtain ⟨f, hf, hcf, hrest⟩ := ha
      obtain ⟨g, hg, hcg, hmore⟩ := hb
      have e : f = g := Option.some.inj ((hf.symm.trans (hname ▸ rfl)).trans hg)
      obtain rfl := node_eq hname hcf hcg e
      -- The arrays further on have more names than the one that may be met here.
      have longer : ∀ {d : Crossing} {nodes : List Node}, d ∈ crossingsFrom (pos.next n) nodes →
          d.names ≠ pos.names ++ [n.name] := by
        intro d nodes hd e
        obtain ⟨z, zs, hz, -⟩ := mem_crossingsFrom_names hd
        rw [e, Position.next_names] at hz
        simp at hz
      by_cases hk : n.kind = .objectArray
      · rw [crossingsFrom_array hk] at hc hc'
        rcases List.mem_cons.mp hc with rfl | hc <;> rcases List.mem_cons.mp hc' with rfl | hc'
        · rfl
        · exact absurd h.symm (longer hc')
        · exact absurd h (longer hc)
        · exact ih hrest (e ▸ hmore) hc hc'
      · rw [crossingsFrom_member hk] at hc hc'
        exact ih hrest (e ▸ hmore) hc hc'

theorem Declared.identifier {s : Schema} (hs : s.Built) {type : FieldType} {nodes : List Node}
    (h : Declared s type nodes) : ∀ n ∈ nodes, Name.Identifier n.name := by
  induction nodes generalizing type with
  | nil => intro n hn; cases hn
  | cons m rest ih =>
    obtain ⟨f, hf, -, hrest⟩ := h
    obtain ⟨hname, t, ht, hft⟩ := Schema.declared?_mem hf
    intro n hn
    rcases List.mem_cons.mp hn with rfl | hn
    · exact hname ▸ hs.identifier ht hft
    · exact ih hrest n hn

/-! ## Dotted names -/

theorem separated_split {c : Char} (hc : Name.isPart c = false) {names : List String}
    (h : ∀ n ∈ names, Name.Identifier n) (hne : names ≠ []) :
    ([c].intercalate (names.map String.toList)).splitOn c = names.map String.toList := by
  refine List.splitOn_intercalate c (fun l hl => ?_) (by simpa using hne)
  obtain ⟨n, hn, rfl⟩ := List.mem_map.mp hl
  exact (h n hn).not_mem hc

theorem separated_ne_nil {c : Char} (hc : Name.isPart c = false) {names : List String}
    (h : ∀ n ∈ names, Name.Identifier n) (hne : names ≠ []) : [c].intercalate (names.map String.toList) ≠ [] := by
  intro e
  have hsplit := separated_split hc h hne
  rw [e] at hsplit
  obtain ⟨n, rfl, hn⟩ : ∃ n, names = [n] ∧ n.toList = [] := by
    cases names with
    | nil => exact absurd rfl hne
    | cons n rest => cases rest <;> simp_all
  exact (h n (List.mem_singleton.mpr rfl)).ne_nil hn

/-- Identifiers with a mark between them that stands in none are read back in one way. -/
theorem separated_injective {c : Char} (hc : Name.isPart c = false) {a b : List String}
    (ha : ∀ n ∈ a, Name.Identifier n) (hb : ∀ n ∈ b, Name.Identifier n)
    (h : [c].intercalate (a.map String.toList) = [c].intercalate (b.map String.toList)) : a = b := by
  by_cases hna : a = []
  · by_cases hnb : b = []
    · rw [hna, hnb]
    · subst hna; exact absurd h.symm (separated_ne_nil hc hb hnb)
  · by_cases hnb : b = []
    · subst hnb; exact absurd h (separated_ne_nil hc ha hna)
    · have hmap : a.map String.toList = b.map String.toList := by
        rw [← separated_split hc ha hna, ← separated_split hc hb hnb, h]
      exact List.map_injective_iff.mpr (fun x y e => String.toList_inj.mp e) hmap

theorem toList_dotted (names : List String) : (dotted names).toList = ['.'].intercalate (names.map String.toList) := by
  simp [dotted, String.toList_intercalate]

theorem dotted_injective {a b : List String} (ha : ∀ n ∈ a, Name.Identifier n) (hb : ∀ n ∈ b, Name.Identifier n)
    (h : dotted a = dotted b) : a = b := by
  refine separated_injective (c := '.') (by decide) ha hb ?_
  rw [← toList_dotted, ← toList_dotted, h]

end Path

end DocQuery
