/-
  DocQuery.Proofs.Schema.Inference — the inferred schema is the merged shape.

  Types of distinct names make a schema if and only if their fields are sound and refer to types
  that are there (`ofTypes_ok`, `ofTypes_checked`). Laid out types always refer to types that are
  there and are never named twice, so only repeated fields can still fail, and a shape repeats none
  exactly when it is sound (`Laid.sound_iff`). `infer_laid_out`: inference succeeds for objects of
  a sound merged shape and for nothing else, and the schema unfolds to that shape.
-/

import DocQuery.Proofs.Schema.Layout
import DocQuery.Proofs.Schema.Merging

namespace DocQuery

/-! ## Checked fields -/

namespace ObjectType

open Schema (Distinct)

/-- Fields pass when they bear field names that no other of them, and none before, bears in any case. -/
theorem checkFields_ok_iff {typeName : String} {earlier : List String} {fields : List Field} :
    checkFields typeName earlier fields = .ok () ↔
      (∀ f ∈ fields, Name.fault? f.name = none) ∧ Distinct (fields.map (·.name)) ∧
        ∀ f ∈ fields, Text.lower f.name ∉ earlier.map Text.lower := by
  induction fields generalizing earlier with
  | nil => simp [checkFields, Distinct]
  | cons f rest ih =>
    have hstep : checkFields typeName earlier (f :: rest) = .ok () ↔
        Name.fault? f.name = none ∧ Text.lower f.name ∉ earlier.map Text.lower ∧
          checkFields typeName (f.name :: earlier) rest = .ok () := by
      rw [← Schema.checkFieldName_ok_iff, ← Text.any_sameIgnoringCase]
      rw [checkFields]
      cases hname : checkFieldName f.name with
      | error e => simp [bind, Except.bind]
      | ok u =>
        cases hany : earlier.any (Text.sameIgnoringCase f.name) with
        | true => simp [bind, Except.bind, throw, throwThe, MonadExceptOf.throw]
        | false => simp [bind, Except.bind]
    rw [hstep, ih]
    -- The name met first must be missing from the rest, be it read forwards or backwards.
    have hswap : (∀ g ∈ rest, Text.lower g.name ∉ (f.name :: earlier).map Text.lower) ↔
        Text.lower f.name ∉ (rest.map (·.name)).map Text.lower ∧
          ∀ g ∈ rest, Text.lower g.name ∉ earlier.map Text.lower := by
      simp only [List.map_cons, List.mem_cons, not_or, List.map_map, List.mem_map, Function.comp_apply, not_exists, not_and]
      exact ⟨fun h => ⟨fun g hg => (h g hg).1, fun g hg => (h g hg).2⟩, fun h g hg => ⟨h.1 g hg, h.2 g hg⟩⟩
    rw [hswap]
    simp only [Distinct, List.map_cons, List.nodup_cons, List.forall_mem_cons]
    tauto

end ObjectType

/-! ## Schemas of types with distinct names -/

namespace Schema

theorem insertType?_perm {t : ObjectType} {types : List ObjectType} (h : t.name ∉ types.map (·.name)) :
    ∃ out, insertType? t types = some out ∧ out.Perm (t :: types) := by
  induction types with
  | nil => exact ⟨_, rfl, .refl _⟩
  | cons u rest ih =>
    obtain ⟨hne, hrest⟩ : t.name ≠ u.name ∧ t.name ∉ rest.map (·.name) := by simpa using h
    obtain ⟨out, hout, hperm⟩ := ih hrest
    unfold insertType?
    rcases lt_trichotomy t.name u.name with hlt | heq | hgt
    · exact ⟨_, if_pos hlt, .refl _⟩
    · exact absurd heq hne
    · refine ⟨u :: out, ?_, ?_⟩
      · rw [if_neg (lt_asymm hgt), if_pos hgt, hout]; rfl
      · exact (hperm.cons u).trans (.swap _ _ _)

theorem collect_ok {given types : List ObjectType} (hn : ((types ++ given).map (·.name)).Nodup)
    (hc : ∀ t ∈ given, ObjectType.checkFields t.name [] t.fields = .ok ()) :
    ∃ out, collect types given = .ok out ∧ out.Perm (types ++ given) := by
  induction given generalizing types with
  | nil => exact ⟨types, rfl, by simp⟩
  | cons t rest ih =>
    obtain ⟨ht, hc⟩ := List.forall_mem_cons.mp hc
    have hfresh : t.name ∉ types.map (·.name) := by
      rw [List.map_append, List.map_cons] at hn
      exact fun hm => (List.disjoint_of_nodup_append hn hm) List.mem_cons_self
    obtain ⟨more, hmore, hperm⟩ := insertType?_perm hfresh
    have hperm' : (more ++ rest).Perm (types ++ t :: rest) :=
      (hperm.append_right rest).trans List.perm_middle.symm
    obtain ⟨out, hout, hpermOut⟩ := ih ((hperm'.map _).nodup_iff.mpr hn) hc
    refine ⟨out, ?_, hpermOut.trans hperm'⟩
    unfold collect
    refine Except.bind_eq_ok.mpr ⟨(), ht, ?_⟩
    rw [hmore]; exact hout

theorem collect_checked {given types out : List ObjectType} (h : collect types given = .ok out) :
    ∀ t ∈ given, ObjectType.checkFields t.name [] t.fields = .ok () := by
  induction given generalizing types with
  | nil => intro t ht; cases ht
  | cons u rest ih =>
    unfold collect at h
    obtain ⟨_, hu, h⟩ := Except.bind_eq_ok.mp h
    cases hi : insertType? u types with
    | none => rw [hi] at h; cases h
    | some more =>
      rw [hi] at h
      exact List.forall_mem_cons.mpr ⟨hu, ih h⟩

theorem type?_of_mem {s : Schema} (hn : (s.types.map (·.name)).Nodup) {t : ObjectType} (ht : t ∈ s.types) :
    s.type? t.name = some t := by
  obtain ⟨before, after, hsplit⟩ := List.append_of_mem ht
  refine List.find?_eq_some_iff_append.mpr ⟨by simp, before, after, hsplit, fun u hu => ?_⟩
  rw [hsplit, List.map_append, List.map_cons] at hn
  have hne : u.name ≠ t.name := fun he =>
    List.disjoint_of_nodup_append hn (List.mem_map_of_mem hu) (he ▸ List.mem_cons_self)
  simpa using hne

theorem ofTypes_ok {root : String} {types : List ObjectType} (hn : (types.map (·.name)).Nodup)
    (hc : ∀ t ∈ types, ObjectType.checkFields t.name [] t.fields = .ok ())
    (hroot : root ∈ types.map (·.name))
    (href : ∀ declared : String → Bool, (∀ name ∈ types.map (·.name), declared name = true) →
      ∀ t ∈ types, ∀ f ∈ t.fields, checkReference declared t.name f.name false f.type = .ok ()) :
    ∃ sorted, ofTypes root types = .ok ⟨root, sorted⟩ ∧ sorted.Perm types := by
  obtain ⟨sorted, hsorted, hperm⟩ : ∃ out, collect [] types = .ok out ∧ out.Perm ([] ++ types) := collect_ok hn hc
  have hnodup : (sorted.map (·.name)).Nodup := (hperm.map _).nodup_iff.mpr hn
  have hdeclared : ∀ name ∈ types.map (·.name), ((⟨root, sorted⟩ : Schema).type? name).isSome = true := by
    intro name hname
    obtain ⟨t, ht, rfl⟩ := List.mem_map.mp hname
    rw [type?_of_mem hnodup (hperm.mem_iff.mpr ht)]
    rfl
  have hrefs : sorted.forM (checkReferences fun name => ((⟨root, sorted⟩ : Schema).type? name).isSome) = .ok () :=
    Except.forM_ok fun t ht => Except.forM_ok fun f hf => href _ hdeclared t (hperm.mem_iff.mp ht) f hf
  refine ⟨sorted, ?_, hperm⟩
  unfold ofTypes
  refine Except.bind_eq_ok.mpr ⟨sorted, hsorted, ?_⟩
  simp only [hdeclared root hroot, Bool.not_true, Bool.false_eq_true, if_false]
  exact Except.bind_eq_ok.mpr ⟨(), hrefs, rfl⟩

theorem ofTypes_checked {root : String} {types : List ObjectType} {s : Schema} (h : ofTypes root types = .ok s) :
    ∀ t ∈ types, ObjectType.checkFields t.name [] t.fields = .ok () := by
  obtain ⟨out, hout, -⟩ := Except.bind_eq_ok.mp h
  exact collect_checked hout

/-! ## Laid out types make a schema -/

theorem Laid.checkReference_ok {shape : Shape} {t : FieldType} {new : List ObjectType} (h : Laid shape t new)
    {declared : String → Bool} (hd : ∀ name, t.reference? = some name → declared name = true)
    (owner field : String) : checkReference declared owner field false t = .ok () := by
  cases h with
  | unknown => rfl
  | scalar s => rfl
  | object name _ => exact if_pos (hd name rfl)
  | array hflat h =>
    cases h with
    | unknown => rfl
    | scalar s => rfl
    | object name _ => exact if_pos (hd name rfl)
    | array _ _ => exact absurd rfl (hflat _)

/-- Whatever a laid out type refers to is laid out too. -/
theorem Laid.declares {shape : Shape} {t : FieldType} {new : List ObjectType} (h : Laid shape t new)
    {u : ObjectType} (hu : u ∈ new) {f : Field} (hf : f ∈ u.fields) {name : String}
    (hr : f.type.reference? = some name) : name ∈ new.map (·.name) := by
  refine h.references_perm.subset (List.mem_append_right _ ?_)
  exact List.mem_flatMap.mpr ⟨u, hu, List.mem_filterMap.mpr ⟨f, hf, hr⟩⟩

theorem Laid.checkFields_iff {shape : Shape} {t : FieldType} {new : List ObjectType} (h : Laid shape t new) :
    (∀ u ∈ new, ObjectType.checkFields u.name [] u.fields = .ok ()) ↔ shape.Sound := by
  rw [h.sound_iff]
  refine forall₂_congr fun u hu => ?_
  obtain ⟨shapes, more, hfields⟩ := h.fields_of_mem u hu
  have hnames : ∀ f ∈ u.fields, Name.fault? f.name = none := fun f hf => (hfields.of_mem hf).1
  rw [ObjectType.checkFields_ok_iff]
  exact ⟨fun hc => hc.2.1, fun hd => ⟨hnames, hd, fun _ _ => by simp⟩⟩

/-- Types laid out for a sound shape make a schema. -/
theorem Laid.ofTypes_ok {shape : Shape} {root : String} {types : List ObjectType}
    (h : Laid shape (.object root) types) (hd : Distinct (types.map (·.name))) (hs : shape.Sound) :
    ∃ sorted, ofTypes root types = .ok ⟨root, sorted⟩ ∧ sorted.Perm types := by
  refine Schema.ofTypes_ok hd.nodup (h.checkFields_iff.mpr hs) ?_ fun declared hdeclared u hu f hf => ?_
  · exact h.references_perm.subset List.mem_cons_self
  · obtain ⟨shapes, more, hfields⟩ := h.fields_of_mem u hu
    obtain ⟨-, shape', new', hlaid⟩ := hfields.of_mem hf
    exact hlaid.checkReference_ok (fun name hr => hdeclared name (h.declares hu hf hr)) _ _

/-- The schema unfolds to the shape, and its types below the root are declared and used once. -/
structure Mirrors (s : Schema) (root : String) (shape : Shape) : Prop where
  root_eq : s.root = root
  unfoldsTo : s.UnfoldsTo (.object root) shape.settled
  names_nodup : (s.types.map (·.name)).Nodup
  referenced_once : ∀ t ∈ s.types, t.name ≠ root → s.references.count t.name = 1

theorem Laid.mirrors {shape : Shape} {root : String} {types sorted : List ObjectType}
    (h : Laid shape (.object root) types) (hd : Distinct (types.map (·.name))) (hp : sorted.Perm types) :
    Mirrors ⟨root, sorted⟩ root shape := by
  have hnodup : (sorted.map (·.name)).Nodup := (hp.map _).nodup_iff.mpr hd.nodup
  refine ⟨rfl, ?_, hnodup, fun t ht hne => ?_⟩
  · refine h.unfoldsTo fun u hu => ?_
    exact type?_of_mem hnodup (hp.mem_iff.mpr hu)
  · -- The names are the root's and the references, each once.
    have hrefs : (root :: references ⟨root, sorted⟩).Perm (sorted.map (·.name)) := by
      have hsame : (references ⟨root, sorted⟩).Perm (types.flatMap (·.references)) := hp.flatMap_right _
      exact (hsame.cons root).trans (h.references_perm.trans (hp.map _).symm)
    have hcount := hrefs.count_eq t.name
    rw [List.count_cons_of_ne hne.symm, List.count_eq_one_of_mem hnodup (List.mem_map_of_mem ht)] at hcount
    exact hcount

/-! ## Inference -/

/-- Objects are merged, laid out below the root's name and made a schema. -/
theorem infer_eq {root : String} {documents : List Json} {shapes : List (String × Shape)} (hne : documents ≠ [])
    (hobj : ∀ d ∈ documents, ∃ members, d = .object members) (hshape : Shape.ofDocuments documents = .object shapes) :
    infer root documents =
      (fieldTypes root shapes ⟨[], [root]⟩).bind fun r => ofTypes root (r.2.types ++ [⟨root, r.1⟩]) := by
  have hempty : documents.isEmpty = false := by cases documents with | nil => exact absurd rfl hne | cons _ _ => rfl
  have hmerged := mergeDocuments_objects hobj
  unfold infer
  rw [hempty, hmerged, hshape]
  rfl

theorem infer_objects {root : String} {documents : List Json} {s : Schema} (h : infer root documents = .ok s) :
    documents ≠ [] ∧ ∀ d ∈ documents, ∃ members, d = .object members := by
  cases documents with
  | nil => cases h
  | cons d rest =>
    obtain ⟨shape, hmerged, -⟩ := Except.bind_eq_ok.mp h
    exact ⟨by simp, (mergeDocuments_ok_iff.mp hmerged).1⟩

/-- What is laid out below the root's name, with the root itself. -/
theorem fieldTypes_root {root : String} {shapes : List (String × Shape)} {fields : List Field} {l : Layout}
    (h : fieldTypes root shapes ⟨[], [root]⟩ = .ok (fields, l)) :
    Laid (.object shapes) (.object root) (l.types ++ [⟨root, fields⟩]) ∧
      Distinct ((l.types ++ [ObjectType.mk root fields]).map (·.name)) := by
  obtain ⟨new, hlaid, hgrows⟩ := fieldTypes_laid shapes h
  have htypes : l.types = new := hgrows.types
  have hdistinct : Distinct l.taken := hgrows.distinct (List.nodup_singleton _)
  rw [htypes]
  refine ⟨.object root hlaid, hdistinct.perm ?_⟩
  simpa using hgrows.taken

/-- Inference succeeds for objects whose merged shape is sound, and for nothing else, and the
schema is that shape again. -/
theorem infer_mirrors (root : String) (documents : List Json) :
    ((∃ s, infer root documents = .ok s) ↔
      documents ≠ [] ∧ (∀ d ∈ documents, ∃ members, d = .object members) ∧ (Shape.ofDocuments documents).Sound) ∧
    ∀ s, infer root documents = .ok s → s.Mirrors root (Shape.ofDocuments documents) := by
  have hok : ∀ s, infer root documents = .ok s →
      (Shape.ofDocuments documents).Sound ∧ s.Mirrors root (Shape.ofDocuments documents) := by
    intro s h
    obtain ⟨hne, hobj⟩ := infer_objects h
    obtain ⟨shapes, hshape⟩ := Shape.ofDocuments_object hne hobj
    rw [infer_eq hne hobj hshape] at h
    obtain ⟨⟨fields, l⟩, hfields, htypes⟩ := Except.bind_eq_ok.mp h
    obtain ⟨hlaid, hdistinct⟩ := fieldTypes_root hfields
    have hsound := hlaid.checkFields_iff.mp (ofTypes_checked htypes)
    obtain ⟨sorted, hsorted, hperm⟩ := hlaid.ofTypes_ok hdistinct hsound
    rw [htypes] at hsorted
    cases hsorted
    rw [hshape]
    exact ⟨hsound, hlaid.mirrors hdistinct hperm⟩
  refine ⟨⟨fun ⟨s, h⟩ => ?_, fun ⟨hne, hobj, hsound⟩ => ?_⟩, fun s h => (hok s h).2⟩
  · obtain ⟨hne, hobj⟩ := infer_objects h
    exact ⟨hne, hobj, (hok s h).1⟩
  · obtain ⟨shapes, hshape⟩ := Shape.ofDocuments_object hne hobj
    rw [hshape] at hsound
    obtain ⟨⟨fields, l⟩, hfields⟩ : ∃ r, fieldTypes root shapes ⟨[], [root]⟩ = .ok r := by
      cases hsound with
      | object hnames _ hinner => exact fieldTypes_ok hnames (fun f hf => fieldType_sound (hinner f hf)) root _
    obtain ⟨hlaid, hdistinct⟩ := fieldTypes_root hfields
    obtain ⟨sorted, hsorted, -⟩ := hlaid.ofTypes_ok hdistinct hsound
    exact ⟨_, (infer_eq hne hobj hshape).trans (Except.bind_eq_ok.mpr ⟨_, hfields, hsorted⟩)⟩

/-! ## Names that collide -/

/-- The types of `A.B`, of `AB` and of `AB2` would all be called by names that are taken. -/
def nestedPosts : List Json :=
  [.object [("A", .object [("B", .object [("x", .int 1)])]), ("AB", .array [.object [("y", .null)]])],
    .object [("AB2", .object []), ("A", .object [("B", .object [("x", .bool true)])])]]

def nestedSchema : Schema :=
  ⟨"Post", [
    ⟨"Post", [⟨"A", .object "PostA"⟩, ⟨"AB", .array (.object "PostAB2")⟩, ⟨"AB2", .object "PostAB22"⟩]⟩,
    ⟨"PostA", [⟨"B", .object "PostAB"⟩]⟩,
    ⟨"PostAB", [⟨"x", .scalar .string⟩]⟩,
    ⟨"PostAB2", [⟨"y", .scalar .string⟩]⟩,
    ⟨"PostAB22", []⟩]⟩

theorem nestedPosts_mirrored :
    infer "Post" nestedPosts = .ok nestedSchema ∧ nestedSchema.Mirrors "Post" (Shape.ofDocuments nestedPosts) := by
  have h : infer "Post" nestedPosts = .ok nestedSchema := by decide +kernel
  exact ⟨h, (infer_mirrors "Post" nestedPosts).2 nestedSchema h⟩

end Schema

end DocQuery
