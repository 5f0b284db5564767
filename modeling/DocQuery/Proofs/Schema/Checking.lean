/-
  DocQuery.Proofs.Schema.Checking — what makes object types a schema.

  `Checked` is what every built schema has (`Built.checked`): its types stand in strict order of their
  names, their fields pass, the root is one of them, and fields refer to them alone, with at most one
  array around. Nothing else is needed: checked types, given again, make the same schema
  (`Checked.ofTypes`). An inferred schema is a built one (`infer_built`).
-/

import Mathlib.Data.List.Sort
import DocQuery.Proofs.Path.Resolution
import DocQuery.Proofs.Schema.Inference

namespace DocQuery

/-- How many arrays stand around what the type is made of. -/
def FieldType.nesting : FieldType → Nat
  | .scalar _ => 0
  | .object _ => 0
  | .array element => element.nesting + 1

namespace Schema

theorem checkReference_ok_iff {declared : String → Bool} {owner field : String} {inArray : Bool} {t : FieldType} :
    checkReference declared owner field inArray t = .ok () ↔
      (∀ name, t.reference? = some name → declared name = true) ∧ t.nesting ≤ if inArray then 0 else 1 := by
  induction t generalizing inArray with
  | scalar s => simp [checkReference, FieldType.reference?, FieldType.nesting]
  | object name =>
    cases hd : declared name <;> simp [checkReference, FieldType.reference?, FieldType.nesting, hd]
  | array element ih =>
    cases inArray with
    | true => simp [checkReference, FieldType.nesting]
    | false =>
      simp only [checkReference, Bool.false_eq_true, if_false, ih, FieldType.reference?, FieldType.nesting, if_true]
      exact and_congr_right fun _ => by omega

theorem checkReferences_ok_iff {declared : String → Bool} {t : ObjectType} :
    checkReferences declared t = .ok () ↔
      (∀ name ∈ t.references, declared name = true) ∧ ∀ f ∈ t.fields, f.type.nesting ≤ 1 := by
  simp only [checkReferences, Except.forM_eq_ok, checkReference_ok_iff, Bool.false_eq_true, if_false,
    ObjectType.references, List.mem_filterMap]
  constructor
  · intro h
    exact ⟨fun name ⟨f, hf, hname⟩ => (h f hf).1 name hname, fun f hf => (h f hf).2⟩
  · intro ⟨hd, hn⟩ f hf
    exact ⟨fun name hname => hd name ⟨f, hf, hname⟩, hn f hf⟩

/-- What a built schema is known by. -/
structure Checked (s : Schema) : Prop where
  ordered : s.types.Pairwise fun t u => t.name < u.name
  fields : ∀ t ∈ s.types, ObjectType.checkFields t.name [] t.fields = .ok ()
  root : s.root ∈ s.types.map (·.name)
  declared : ∀ t ∈ s.types, ∀ name ∈ t.references, name ∈ s.types.map (·.name)
  flat : ∀ t ∈ s.types, ∀ f ∈ t.fields, f.type.nesting ≤ 1

theorem type?_isSome_iff {s : Schema} {name : String} : (s.type? name).isSome = true ↔ name ∈ s.types.map (·.name) := by
  simp [type?, List.find?_isSome]

theorem insertType?_ordered {t : ObjectType} {types out : List ObjectType} (h : insertType? t types = some out)
    (ho : types.Pairwise fun t u => t.name < u.name) : out.Pairwise fun t u => t.name < u.name := by
  induction types generalizing out with
  | nil => cases h; exact List.pairwise_singleton _ _
  | cons u rest ih =>
    obtain ⟨hu, hrest⟩ := List.pairwise_cons.mp ho
    unfold insertType? at h
    split at h
    · rename_i hlt
      cases h
      refine List.pairwise_cons.mpr ⟨fun v hv => ?_, ho⟩
      rcases List.mem_cons.mp hv with rfl | hv
      · exact hlt
      · exact hlt.trans (hu v hv)
    · split at h
      · rename_i hgt
        obtain ⟨more, hmore, rfl⟩ := Option.map_eq_some_iff.mp h
        refine List.pairwise_cons.mpr ⟨fun v hv => ?_, ih hmore hrest⟩
        rcases mem_insertType? hmore hv with rfl | hv
        · exact hgt
        · exact hu v hv
      · cases h

/-- What is collected stands in order and was given or there before. -/
theorem collect_ordered {given types out : List ObjectType} (h : collect types given = .ok out)
    (ho : types.Pairwise fun t u => t.name < u.name) :
    (out.Pairwise fun t u => t.name < u.name) ∧ ∀ t ∈ out, t ∈ types ∨ t ∈ given := by
  induction given generalizing types with
  | nil => cases h; exact ⟨ho, fun t ht => .inl ht⟩
  | cons u rest ih =>
    obtain ⟨_, -, h⟩ := Except.bind_eq_ok.mp h
    cases hi : insertType? u types with
    | none => rw [hi] at h; cases h
    | some more =>
      rw [hi] at h
      obtain ⟨hordered, hmem⟩ := ih h (insertType?_ordered hi ho)
      refine ⟨hordered, fun t ht => ?_⟩
      rcases hmem t ht with ht | ht
      · rcases mem_insertType? hi ht with rfl | ht
        · exact .inr List.mem_cons_self
        · exact .inl ht
      · exact .inr (List.mem_cons_of_mem _ ht)

theorem ofTypes_eq_ok {root : String} {given : List ObjectType} {s : Schema} (h : ofTypes root given = .ok s) :
    collect [] given = .ok s.types ∧ s.root = root ∧ (s.type? root).isSome = true ∧
      s.types.forM (checkReferences fun name => (s.type? name).isSome) = .ok () := by
  obtain ⟨types, hcollect, h⟩ := Except.bind_eq_ok.mp h
  cases hroot : ((⟨root, types⟩ : Schema).type? root).isSome with
  | false => simp [hroot, throw, throwThe, MonadExceptOf.throw, bind, Except.bind] at h
  | true =>
    simp only [hroot, Bool.not_true, Bool.false_eq_true, if_false] at h
    obtain ⟨_, hrefs, h⟩ := Except.bind_eq_ok.mp h
    cases h
    exact ⟨hcollect, rfl, hroot, hrefs⟩

theorem Built.checked {s : Schema} (h : s.Built) : s.Checked := by
  obtain ⟨root, given, h⟩ := h
  obtain ⟨hcollect, rfl, hroot, hrefs⟩ := ofTypes_eq_ok h
  obtain ⟨hordered, hmem⟩ := collect_ordered hcollect List.Pairwise.nil
  have hreferences := fun t ht => checkReferences_ok_iff.mp (Except.forM_eq_ok.mp hrefs t ht)
  refine ⟨hordered, fun t ht => ?_, type?_isSome_iff.mp hroot, fun t ht name hname => ?_, fun t ht => (hreferences t ht).2⟩
  · rcases hmem t ht with ht | ht
    · cases ht
    · exact collect_checked hcollect t ht
  · exact type?_isSome_iff.mp ((hreferences t ht).1 name hname)

theorem Checked.nodup {s : Schema} (h : s.Checked) : (s.types.map (·.name)).Nodup :=
  List.pairwise_map.mpr (h.ordered.imp fun hlt => ne_of_lt hlt)

/-- No type repeats the name of a field. -/
theorem Checked.fields_nodup {s : Schema} (h : s.Checked) {t : ObjectType} (ht : t ∈ s.types) :
    (t.fields.map (·.name)).Nodup :=
  (ObjectType.checkFields_ok_iff.mp (h.fields t ht)).2.1.nodup

/-- The types of a schema, given again, make the schema. -/
theorem Checked.ofTypes {s : Schema} (h : s.Checked) : Schema.ofTypes s.root s.types = .ok s := by
  obtain ⟨sorted, hsorted, hperm⟩ := ofTypes_ok h.nodup h.fields h.root fun declared hd t ht f hf =>
    checkReference_ok_iff.mpr
      ⟨fun name hname => hd name (h.declared t ht name (List.mem_filterMap.mpr ⟨f, hf, hname⟩)), h.flat t ht f hf⟩
  have hordered := (Built.checked ⟨_, _, hsorted⟩).ordered
  have hsame : sorted = s.types :=
    hperm.eq_of_pairwise (fun t u _ _ hlt hgt => absurd hgt (lt_asymm hlt)) hordered h.ordered
  rw [hsorted, hsame]

theorem infer_built {root : String} {documents : List Json} {s : Schema} (h : infer root documents = .ok s) : s.Built := by
  obtain ⟨hne, hobj⟩ := infer_objects h
  obtain ⟨shapes, hshape⟩ := Shape.ofDocuments_object hne hobj
  rw [infer_eq hne hobj hshape] at h
  obtain ⟨r, -, htypes⟩ := Except.bind_eq_ok.mp h
  exact ⟨_, _, htypes⟩

end Schema

end DocQuery
