/-
  DocQuery.Proofs.Schema.Rereading — a schema that was read, written and read again.

  Reading puts the fields of a type in order and takes every name of a scalar, aliases included, for
  the scalar, so a schema that was read is settled: its fields stand in order and it refers to no type
  that is named like a scalar, though such types may be declared (`settled_of_ofText`). A settled schema
  is what its own text is read as (`Settled.reread_eq`). The schemas that texts are read as are therefore
  the settled ones (`read_iff`), and writing one and reading it again changes nothing
  (`ofText_stable`).
-/

import DocQuery.Proofs.Schema.Validity
import DocQuery.Proofs.Schema.Writing

namespace DocQuery.Schema

/-- Fields stand in strict byte order of their names, and no field refers to a type named like a scalar. -/
structure Settled (s : Schema) : Prop where
  fields_ordered : ∀ t ∈ s.types, t.fields.Pairwise fun f g => f.name < g.name
  references_unlike : ∀ name ∈ s.references, Scalar.ofName? name = none

/-! ## A settled schema is read as itself -/

theorem entries_of_ordered {t : ObjectType} (h : t.fields.Pairwise fun f g => f.name < g.name) :
    t.entries = t.fields.map fun f => (f.name, f.type) :=
  sortEntries_of_ordered (List.pairwise_map.mpr h)

theorem Settled.reread_type {s : Schema} (h : s.Settled) {t : ObjectType} (ht : t ∈ s.types) : t.reread = t := by
  have hfields : ∀ f ∈ t.fields, (⟨f.name, f.type.reread⟩ : Field) = f := by
    intro f hf
    have htype : f.type.reread = f.type := FieldType.reread_eq_iff.mpr fun name hname =>
      h.references_unlike name (List.mem_flatMap.mpr ⟨t, ht, List.mem_filterMap.mpr ⟨f, hf, hname⟩⟩)
    rw [htype]
  rw [ObjectType.reread, entries_of_ordered (h.fields_ordered t ht), List.map_map]
  exact congrArg (ObjectType.mk t.name) ((List.map_congr_left hfields).trans (List.map_id' _))

theorem Settled.reread_eq {s : Schema} (h : s.Settled) : s.reread = s :=
  congrArg (Schema.mk s.root) ((List.map_congr_left fun _ ht => h.reread_type ht).trans (List.map_id' _))

theorem Settled.ofText_compact {s : Schema} (h : s.Settled) (hs : s.Built) : ofText s.toJson.compact = .ok s := by
  have hread := hs.checked.ofText_compact
  rw [h.reread_eq] at hread
  exact hread

/-! ## What is read is settled -/

/-- A name that is read as a reference is no scalar's. -/
theorem references_of_toFieldType {spec : Spec} {type : FieldType} (h : spec.toFieldType = .ok type) :
    ∀ name, type.reference? = some name → Scalar.ofName? name = none := by
  fun_induction Spec.toFieldType spec generalizing type with
  | case1 text s hs =>
    cases h
    intro name hname
    cases hname
  | case2 text hs =>
    cases h
    intro name hname
    cases hname
    exact hs
  | case3 => cases h
  | case4 item ih =>
    obtain ⟨element, helement, rfl⟩ := Except.map_eq_ok.mp h
    have hinner := ih helement
    exact hinner
  | case5 => cases h

theorem settled_of_objectTypeOf {entry : String × List (String × Spec)} {t : ObjectType} (hordered : Ordered entry.2)
    (h : objectTypeOf entry = .ok t) :
    (t.fields.Pairwise fun f g => f.name < g.name) ∧ ∀ name ∈ t.references, Scalar.ofName? name = none := by
  obtain ⟨fields, hfields, rfl⟩ := Except.map_eq_ok.mp h
  let read := fun e => (fieldOf e).toOption.getD ⟨"", .object ""⟩
  obtain ⟨hread, rfl⟩ := (Except.mapM_eq_ok ⟨"", .object ""⟩).mp hfields
  have hfield : ∀ e ∈ entry.2, (read e).name = e.1 ∧ e.2.toFieldType = .ok (read e).type := by
    intro e he
    obtain ⟨f, hf⟩ := hread e he
    obtain ⟨type, htype, rfl⟩ := Except.map_eq_ok.mp hf
    have hreads : read e = ⟨e.1, type⟩ := by simp only [read, hf]; rfl
    rw [hreads]
    exact ⟨rfl, htype⟩
  constructor
  · refine List.pairwise_map.mpr (hordered.imp_of_mem fun he hf hlt => ?_)
    show (read _).name < (read _).name
    rw [(hfield _ he).1, (hfield _ hf).1]
    exact hlt
  · intro name hname
    obtain ⟨f, hf, hreference⟩ := List.mem_filterMap.mp hname
    obtain ⟨e, he, rfl⟩ := List.mem_map.mp hf
    exact references_of_toFieldType (hfield e he).2 name hreference

/-- The entries of a type are in order in every description. -/
theorem Description.types_ordered {j : Json} {d : Description} (h : Description.ofJson? j = some d) :
    ∀ entry ∈ d.types, Ordered entry.2 := by
  have hparts : ∀ root types, ofParts? root types = some d → ∀ entry ∈ d.types, Ordered entry.2 := by
    intro root types h
    cases root with
    | string root =>
      unfold ofParts? at h
      simp only at h
      split_ifs at h
      obtain ⟨entries, hentries, rfl⟩ := Option.map_eq_some_iff.mp h
      intro entry hentry
      obtain ⟨fields, hfields⟩ := (ordered_of_entries? hentries).2 entry hentry
      exact (ordered_of_entries? hfields).1
    | _ => cases h
  unfold ofJson? at h
  split at h
  · split at h
    · exact hparts _ _ h
    · cases h
  · exact hparts _ _ h
  · cases h

theorem settled_of_ofText {text : String} {s : Schema} (h : ofText text = .ok s) : s.Built ∧ s.Settled := by
  unfold ofText at h
  split at h
  · cases h
  · rename_i d hd
    obtain ⟨j, -, hdescription⟩ := Option.bind_eq_some_iff.mp hd
    obtain ⟨types, htypes, hmade⟩ := Except.bind_eq_ok.mp h
    have hsettled : ∀ t ∈ s.types,
        (t.fields.Pairwise fun f g => f.name < g.name) ∧ ∀ name ∈ t.references, Scalar.ofName? name = none := by
      intro t ht
      obtain ⟨hread, hall⟩ := (Except.mapM_eq_ok ⟨"", []⟩).mp htypes
      have hmem : t ∈ types := (ofTypes_perm hmade).2.mem_iff.mp ht
      rw [hall] at hmem
      obtain ⟨entry, hentry, rfl⟩ := List.mem_map.mp hmem
      obtain ⟨u, hu⟩ := hread entry hentry
      rw [hu]
      exact settled_of_objectTypeOf (Description.types_ordered hdescription entry hentry) hu
    refine ⟨⟨_, _, hmade⟩, fun t ht => (hsettled t ht).1, fun name hname => ?_⟩
    obtain ⟨t, ht, hname⟩ := List.mem_flatMap.mp hname
    exact (hsettled t ht).2 name hname

/-- The schemas that texts are read as are the settled ones among all there are. -/
theorem read_iff {s : Schema} : (∃ text, ofText text = .ok s) ↔ s.Built ∧ s.Settled := by
  constructor
  · rintro ⟨text, h⟩
    exact settled_of_ofText h
  · rintro ⟨hbuilt, hsettled⟩
    exact ⟨s.toJson.compact, hsettled.ofText_compact hbuilt⟩

/-- A schema that some text is read as is what its own text is read as: its root, its types, and for every type
the same fields, in the same order and of the same types, so that writing it again gives the same JSON. -/
theorem ofText_stable {text : String} {s : Schema} (h : ofText text = .ok s) :
    ∃ s', ofText s.toJson.compact = .ok s' ∧ s'.root = s.root ∧ s'.types = s.types ∧ s'.toJson = s.toJson := by
  obtain ⟨hbuilt, hsettled⟩ := settled_of_ofText h
  exact ⟨s, hsettled.ofText_compact hbuilt, rfl, rfl, rfl⟩

/-- An alias in capitals, a field given twice, a type named like a scalar that nothing can refer to, and a type
whose name is no identifier. -/
def aliasedText : String :=
  "\x7b\"types\":\x7b\"Post\":\x7b\"Title\":\"int\",\"Title\":\"TEXT\",\"Parts\":[\"A b\"]\x7d,\"text\":\x7b\x7d,\"A b\":\x7b\x7d\x7d,\"root\":\"Post\"\x7d"

def aliasedSchema : Schema :=
  ⟨"Post", [⟨"A b", []⟩, ⟨"Post", [⟨"Parts", .array (.object "A b")⟩, ⟨"Title", .scalar .string⟩]⟩, ⟨"text", []⟩]⟩

theorem aliasedText_stable :
    ofText aliasedText = .ok aliasedSchema ∧ ∃ s', ofText aliasedSchema.toJson.compact = .ok s' ∧
      s'.root = aliasedSchema.root ∧ s'.types = aliasedSchema.types ∧ s'.toJson = aliasedSchema.toJson := by
  have hread : ofText aliasedText = .ok aliasedSchema := by decide +kernel
  exact ⟨hread, ofText_stable hread⟩

end DocQuery.Schema
