/-
  DocQuery.Proofs.Schema.Writing — a schema written as JSON and read again.

  A schema's JSON holds no numbers and nests at most four levels, so its text is read back as it was
  written (`read_toJson`), and the types read are those written with their fields in order of their
  names (`ofText_compact`). Scalars and object types share one kind of text: a field of an object type
  that is named like a scalar, in any letter case, is read as the scalar (`FieldType.reread`).
  Reading always succeeds, and gives the same types exactly when no field refers to a type of such
  a name (`ofText_toJson`).
-/

import DocQuery.Proofs.Json.RoundTrip
import DocQuery.Proofs.Schema.Checking
import DocQuery.Proofs.Schema.Entries

namespace DocQuery

theorem Scalar.ofName?_name (s : Scalar) : Scalar.ofName? s.name = some s := by
  cases s <;> decide +kernel

/-! ## Field types read again -/

namespace FieldType

/-- What the type's text is read as. -/
def reread : FieldType → FieldType
  | scalar s => scalar s
  | object name =>
    match Scalar.ofName? name with
    | some s => scalar s
    | none => object name
  | array element => array element.reread

theorem reread_eq_iff {t : FieldType} : t.reread = t ↔ ∀ name, t.reference? = some name → Scalar.ofName? name = none := by
  induction t with
  | scalar s => simp [reread, reference?]
  | object name => cases h : Scalar.ofName? name <;> simp [reread, reference?, h]
  | array element ih => simp [reread, reference?, ih]

theorem reference?_of_reread {t : FieldType} {name : String} (h : t.reread.reference? = some name) :
    t.reference? = some name := by
  induction t with
  | scalar s => cases h
  | object typeName =>
    unfold reread at h
    split at h
    · cases h
    · exact h
  | array element ih => exact ih h

theorem nesting_reread (t : FieldType) : t.reread.nesting = t.nesting := by
  induction t with
  | scalar s => rfl
  | object name => unfold reread; split <;> rfl
  | array element ih => exact congrArg (· + 1) ih

end FieldType

def Field.reread (f : Field) : Field := ⟨f.name, f.type.reread⟩

namespace ObjectType

/-- The fields' types by name, in byte order of the names. -/
def entries (t : ObjectType) : List (String × FieldType) := sortEntries (t.fields.map fun f => (f.name, f.type))

/-- What the type's text is read as. -/
def reread (t : ObjectType) : ObjectType := ⟨t.name, t.entries.map fun e => ⟨e.1, e.2.reread⟩⟩

/-- Reading keeps the fields and may put them in another order. -/
theorem reread_fields {t : ObjectType} (hn : (t.fields.map (·.name)).Nodup) :
    t.reread.fields.Perm (t.fields.map Field.reread) := by
  have hkeys : ((t.fields.map fun f => (f.name, f.type)).map (·.1)).Nodup := by rwa [List.map_map]
  have h := (sortEntries_perm hkeys).map fun e => (⟨e.1, e.2.reread⟩ : Field)
  rwa [List.map_map] at h

/-- The same type up to the order of its fields. -/
def Alike (t u : ObjectType) : Prop := t.name = u.name ∧ t.fields.Perm u.fields

theorem alike_reread_iff {t : ObjectType} (hn : (t.fields.map (·.name)).Nodup) :
    t.Alike t.reread ↔ ∀ name ∈ t.references, Scalar.ofName? name = none := by
  have hperm := reread_fields hn
  constructor
  · intro ⟨_, h⟩ name hname
    obtain ⟨f, hf, hreference⟩ := List.mem_filterMap.mp hname
    -- A field's name stays, and no other field of the type bears it.
    have hmem : f.reread ∈ t.fields := (h.trans hperm).mem_iff.mpr (List.mem_map_of_mem hf)
    have hsame : f.reread = f := List.inj_on_of_nodup_map hn hmem hf rfl
    exact FieldType.reread_eq_iff.mp (congrArg Field.type hsame) name hreference
  · intro h
    have hsame : ∀ f ∈ t.fields, f.reread = f := by
      intro f hf
      have htype : f.type.reread = f.type :=
        FieldType.reread_eq_iff.mpr fun name hname => h name (List.mem_filterMap.mpr ⟨f, hf, hname⟩)
      rw [Field.reread, htype]
    rw [List.map_congr_left hsame, List.map_id'] at hperm
    exact ⟨rfl, hperm.symm⟩

end ObjectType

namespace Schema

/-- What the schema's text is read as. -/
def reread (s : Schema) : Schema := ⟨s.root, s.types.map (·.reread)⟩

theorem Checked.reread {s : Schema} (h : s.Checked) : s.reread.Checked := by
  have hnames : s.reread.types.map (·.name) = s.types.map (·.name) := List.map_map
  have hfields : ∀ t ∈ s.types, t.reread.fields.Perm (t.fields.map Field.reread) :=
    fun t ht => ObjectType.reread_fields (h.fields_nodup ht)
  have hfield : ∀ t ∈ s.types, ∀ f ∈ t.reread.fields, ∃ g ∈ t.fields, g.reread = f :=
    fun t ht f hf => List.mem_map.mp ((hfields t ht).mem_iff.mp hf)
  refine ⟨List.pairwise_map.mpr h.ordered, List.forall_mem_map.mpr ?fields, hnames ▸ h.root,
    List.forall_mem_map.mpr ?declared, List.forall_mem_map.mpr ?flat⟩
  case fields =>
    intro t ht
    obtain ⟨hvalid, hdistinct, -⟩ := ObjectType.checkFields_ok_iff.mp (h.fields t ht)
    have hsame : (t.fields.map (·.name)).Perm (t.reread.fields.map (·.name)) := by
      have hp := (hfields t ht).symm.map (·.name)
      rwa [List.map_map] at hp
    refine ObjectType.checkFields_ok_iff.mpr ⟨fun f hf => ?_, hdistinct.perm hsame, fun f hf => by simp⟩
    obtain ⟨g, hg, rfl⟩ := hfield t ht f hf
    exact hvalid g hg
  case declared =>
    intro t ht name hname
    obtain ⟨f, hf, hreference⟩ := List.mem_filterMap.mp hname
    obtain ⟨g, hg, rfl⟩ := hfield t ht f hf
    rw [hnames]
    exact h.declared t ht name (List.mem_filterMap.mpr ⟨g, hg, FieldType.reference?_of_reread hreference⟩)
  case flat =>
    intro t ht f hf
    obtain ⟨g, hg, rfl⟩ := hfield t ht f hf
    exact (FieldType.nesting_reread g.type).trans_le (h.flat t ht g hg)

/-! ## The text -/

theorem typeJson_numberless (t : FieldType) : (typeJson t).numberless = true := by
  induction t with
  | scalar s => rfl
  | object name => rfl
  | array element ih => simp [typeJson, Json.numberless, Json.numberlessItems, ih]

theorem typeJson_depth (t : FieldType) : (typeJson t).depth = t.nesting := by
  induction t with
  | scalar s => rfl
  | object name => rfl
  | array element ih => simp [typeJson, Json.depth, Json.itemsDepth, FieldType.nesting, ih]

theorem objectTypeJson_eq (t : ObjectType) :
    objectTypeJson t = .object (t.entries.map fun e => (e.1, typeJson e.2)) := by
  have h := sortEntries_map typeJson (t.fields.map fun f => (f.name, f.type))
  rw [List.map_map] at h
  rw [objectTypeJson]
  exact congrArg Json.object h

theorem toJson_numberless (s : Schema) : s.toJson.numberless = true := by
  have htypes : ∀ t ∈ s.types, (objectTypeJson t).numberless = true := by
    intro t _
    rw [objectTypeJson_eq, Json.numberless, Json.numberlessMembers_iff]
    exact List.forall_mem_map.mpr fun e _ => typeJson_numberless e.2
  have hall : Json.numberlessMembers (s.types.map fun t => (t.name, objectTypeJson t)) = true :=
    Json.numberlessMembers_iff.mpr (List.forall_mem_map.mpr htypes)
  simp [toJson, Json.numberless, Json.numberlessMembers, hall]

theorem Checked.typesDepth {s : Schema} (h : s.Checked) :
    (Json.object (s.types.map fun t => (t.name, objectTypeJson t))).depth ≤ 3 := by
  rw [Json.depth]
  refine Nat.succ_le_succ (Json.membersDepth_le_iff.mpr (List.forall_mem_map.mpr fun t ht => ?_))
  show (objectTypeJson t).depth ≤ 2
  rw [objectTypeJson_eq, Json.depth]
  refine Nat.succ_le_succ (Json.membersDepth_le_iff.mpr (List.forall_mem_map.mpr fun e he => ?_))
  obtain ⟨f, hf, rfl⟩ := List.mem_map.mp (mem_sortEntries he)
  exact (typeJson_depth f.type).trans_le (h.flat t ht f hf)

theorem four_le_length (root : Json) (members : List (String × Json)) :
    4 ≤ (Json.object (("root", root) :: members)).compact.length := by
  have hkey : (Json.quoted "root").toList.length = 6 := by decide +kernel
  simp only [Json.compact, Json.compactMembers, ← String.length_toList, String.toList_append, Json.toList_separated,
    List.length_append]
  omega

theorem reading_depth (text : String) : (reading text).depth = text.length := rfl

/-- Whichever way the escapes of a member are read, they are read as what was written. -/
theorem memberReader_told (reading : Json.Reading) (key : String) (j : Json) :
    Json.Told (memberReader reading key) j (Json.reread reading.number reading.depth j) := by
  refine Json.value_told ?_ reading.number j reading.depth
  split
  · exact Json.stringText_unescapes
  · exact Json.looseText_unescapes

theorem outerValue_told (reading : Json.Reading) (members : List (String × Json)) :
    Json.Told (outerValue reading) (.object members)
      ((Json.rereadMembers reading.number reading.depth members).map .object) := by
  intro rest _
  have htext : (Json.object members).compact.toList ++ rest =
      '\x7b' :: ((String.intercalate "," (Json.compactMembers members)).toList ++ '\x7d' :: rest) := by
    simp only [Json.compact, String.toList_append, List.append_assoc]
    rfl
  have hmembers := Json.members_told Json.stringText_unescapes
    (fun m (_ : m ∈ members) => memberReader_told reading m.1 m.2) rest
  rw [htext, outerValue, Json.skipGap_of_not (by decide)]
  simp only [hmembers, Option.map_map]
  rfl

/-- An object that is not nested too deep is read as it was written. -/
theorem json?_compact {members : List (String × Json)} (hn : (Json.object members).numberless = true)
    (hd : (Json.object members).depth ≤ (Json.object members).compact.length) :
    json? (Json.object members).compact = some (.object members) := by
  have hread : Json.rereadMembers (reading (Json.object members).compact).number
      (reading (Json.object members).compact).depth members = some members := by
    rw [Json.rereadMembers_eq_self_iff, Json.numbersOfMembers_of_numberless members hn, reading_depth]
    exact ⟨Nat.le_of_succ_le hd, fun _ hk => absurd hk List.not_mem_nil⟩
  have htold := outerValue_told (reading (Json.object members).compact) members [] Json.ends_nil
  rw [List.append_nil, hread] at htold
  rw [json?, Json.whole?, htold]
  rfl

/-- The text is read as the value it was written from. -/
theorem Checked.json?_toJson {s : Schema} (h : s.Checked) : json? s.toJson.compact = some s.toJson := by
  have htypes := h.typesDepth
  have hdepth : s.toJson.depth ≤ 4 :=
    Nat.succ_le_succ (Json.membersDepth_le_iff.mpr (by
      intro m hm
      rcases List.mem_cons.mp hm with rfl | hm
      · exact Nat.zero_le 3
      · rw [List.mem_singleton.mp hm]; exact htypes))
  exact json?_compact s.toJson_numberless (hdepth.trans (four_le_length _ _))

/-! ## The description -/

/-- A field's type as it is written. -/
def written : FieldType → Spec
  | .scalar s => .name s.name
  | .object name => .name name
  | .array element => .list [written element]

theorem ofJson?_typeJson (t : FieldType) : Spec.ofJson? (typeJson t) = some (written t) := by
  induction t with
  | scalar s => rfl
  | object name => rfl
  | array element ih => simp [typeJson, Spec.ofJson?, specItems?, ih, written]

theorem toFieldType_written (t : FieldType) : (written t).toFieldType = .ok t.reread := by
  induction t with
  | scalar s => simp only [written, Spec.toFieldType, Scalar.ofName?_name, FieldType.reread]
  | object name =>
    cases h : Scalar.ofName? name <;> simp only [written, Spec.toFieldType, FieldType.reread, h]
  | array element ih => simp only [written, Spec.toFieldType, ih, FieldType.reread]; rfl

theorem entries?_objectTypeJson (t : ObjectType) :
    entries? Spec.ofJson? (objectTypeJson t) = some (t.entries.map fun e => (e.1, written e.2)) := by
  rw [objectTypeJson_eq]
  exact entries?_ordered (sortEntries_ordered _) typeJson written fun e _ => ofJson?_typeJson e.2

theorem Checked.typesOf? {s : Schema} (h : s.Checked) :
    Schema.typesOf? (.object (s.types.map fun t => (t.name, objectTypeJson t))) =
      some (s.types.map fun t => (t.name, t.entries.map fun e => (e.1, written e.2))) := by
  let byName : List (String × ObjectType) := s.types.map fun t => (t.name, t)
  have hordered : Ordered byName := List.pairwise_map.mpr h.ordered
  have htypes := entries?_ordered hordered objectTypeJson (fun t => t.entries.map fun e => (e.1, written e.2))
    fun e _ => entries?_objectTypeJson e.2
  rw [List.map_map, List.map_map] at htypes
  exact htypes

theorem Checked.description {s : Schema} (h : s.Checked) :
    Description.ofJson? s.toJson =
      some ⟨s.root, s.types.map fun t => (t.name, t.entries.map fun e => (e.1, written e.2))⟩ := by
  have hdepth := Nat.lt_of_le_of_lt h.typesDepth (show 3 < maxDepth by decide)
  show Description.ofParts? (.string s.root) _ = _
  rw [Description.ofParts?, if_pos hdepth, h.typesOf?]
  rfl

theorem objectTypeOf_written (t : ObjectType) :
    objectTypeOf (t.name, t.entries.map fun e => (e.1, written e.2)) = .ok t.reread := by
  have hfields : (t.entries.map fun e => (e.1, written e.2)).mapM fieldOf =
      .ok (t.entries.map fun e => ⟨e.1, e.2.reread⟩) := by
    rw [List.mapM_map]
    refine Except.mapM_ok fun e _ => ?_
    show (written e.2).toFieldType.map _ = _
    rw [toFieldType_written]
    rfl
  rw [objectTypeOf, hfields]
  rfl

/-- A schema's text is read, and read as `reread` says. -/
theorem Checked.ofText_compact {s : Schema} (h : s.Checked) : ofText s.toJson.compact = .ok s.reread := by
  have htypes : (s.types.map fun t => (t.name, t.entries.map fun e => (e.1, written e.2))).mapM objectTypeOf =
      .ok s.reread.types := by
    rw [List.mapM_map]
    exact Except.mapM_ok fun t _ => objectTypeOf_written t
  unfold ofText
  rw [h.json?_toJson, Option.bind_some, h.description]
  exact Except.bind_eq_ok.mpr ⟨_, htypes, h.reread.ofTypes⟩

/-! ## The schema read -/

/-- The same schema up to the order of fields. -/
def Alike (s u : Schema) : Prop := s.root = u.root ∧ List.Forall₂ ObjectType.Alike s.types u.types

theorem Checked.alike_reread_iff {s : Schema} (h : s.Checked) :
    s.Alike s.reread ↔ ∀ name ∈ s.references, Scalar.ofName? name = none := by
  have htypes : List.Forall₂ ObjectType.Alike s.types s.reread.types ↔ ∀ t ∈ s.types, t.Alike t.reread := by
    rw [Schema.reread, List.forall₂_map_right_iff, List.forall₂_same]
  have htype : ∀ t ∈ s.types, t.Alike t.reread ↔ ∀ name ∈ t.references, Scalar.ofName? name = none :=
    fun t ht => ObjectType.alike_reread_iff (h.fields_nodup ht)
  constructor
  · intro ⟨_, hsame⟩ name hname
    obtain ⟨t, ht, hname⟩ := List.mem_flatMap.mp hname
    exact (htype t ht).mp (htypes.mp hsame t ht) name hname
  · intro hnone
    exact ⟨rfl, htypes.mpr fun t ht => (htype t ht).mpr fun name hname =>
      hnone name (List.mem_flatMap.mpr ⟨t, ht, hname⟩)⟩

/-- A built or inferred schema is read back from its text with its root, its types' names and their
fields, each of the type its text is read as. That is the same schema if and only if no field refers
to an object type that is named like a scalar. -/
theorem ofText_toJson (s : Schema) (hs : s.Built ∨ ∃ root documents, infer root documents = .ok s) :
    ∃ s', ofText s.toJson.compact = .ok s' ∧ s'.root = s.root ∧
      List.Forall₂ (fun t t' => t'.name = t.name ∧ t'.fields.Perm (t.fields.map Field.reread)) s.types s'.types ∧
      (s.Alike s' ↔ ∀ name ∈ s.references, Scalar.ofName? name = none) := by
  have hchecked : s.Checked := by
    rcases hs with hbuilt | ⟨root, documents, hinfer⟩
    · exact hbuilt.checked
    · exact (infer_built hinfer).checked
  refine ⟨s.reread, hchecked.ofText_compact, rfl, ?_, hchecked.alike_reread_iff⟩
  rw [reread, List.forall₂_map_right_iff, List.forall₂_same]
  exact fun t ht => ⟨rfl, ObjectType.reread_fields (hchecked.fields_nodup ht)⟩

/-- A comment that holds replies, with fields not in order of their names. -/
def threadSchema : Schema :=
  ⟨"Post", [
    ⟨"Comment", [⟨"Replies", .array (.object "Comment")⟩, ⟨"Content", .scalar .string⟩]⟩,
    ⟨"Post", [⟨"Title", .scalar .string⟩, ⟨"Comments", .array (.object "Comment")⟩]⟩]⟩

theorem threadSchema_reread :
    ofTypes "Post" threadSchema.types.reverse = .ok threadSchema ∧
      ∃ s', ofText threadSchema.toJson.compact = .ok s' ∧ threadSchema.Alike s' := by
  have hbuilt : ofTypes "Post" threadSchema.types.reverse = .ok threadSchema := by decide +kernel
  obtain ⟨s', hread, -, -, halike⟩ := ofText_toJson threadSchema (.inl ⟨_, _, hbuilt⟩)
  exact ⟨hbuilt, s', hread, halike.mpr (by decide +kernel)⟩

/-- A post's author is an object, of a type called `Text`. -/
def authoredSchema : Schema :=
  ⟨"Post", [⟨"Post", [⟨"Author", .object "Text"⟩]⟩, ⟨"Text", [⟨"Name", .scalar .string⟩]⟩]⟩

/-- What is below `xt` is called `Text` by its owner's name and its own. -/
def concatenatedSchema : Schema :=
  ⟨"Te", [⟨"Te", [⟨"xt", .object "Text"⟩]⟩, ⟨"Text", [⟨"Name", .scalar .string⟩]⟩]⟩

/-- The object is read as a string, in a schema that was built and in one that was inferred. -/
theorem authoredSchema_lost :
    (ofTypes "Post" authoredSchema.types = .ok authoredSchema ∧
      ∃ s', ofText authoredSchema.toJson.compact = .ok s' ∧ ¬ authoredSchema.Alike s') ∧
    infer "Te" [.object [("xt", .object [("Name", .string "a")])]] = .ok concatenatedSchema ∧
      ∃ s', ofText concatenatedSchema.toJson.compact = .ok s' ∧ ¬ concatenatedSchema.Alike s' := by
  have hbuilt : ofTypes "Post" authoredSchema.types = .ok authoredSchema := by decide +kernel
  have hinferred : infer "Te" [.object [("xt", .object [("Name", .string "a")])]] = .ok concatenatedSchema := by decide +kernel
  have hchecked := Built.checked ⟨_, _, hbuilt⟩
  have hchecked' := (infer_built hinferred).checked
  refine ⟨⟨hbuilt, _, hchecked.ofText_compact, ?_⟩, hinferred, _, hchecked'.ofText_compact, ?_⟩
  · rw [hchecked.alike_reread_iff]; decide +kernel
  · rw [hchecked'.alike_reread_iff]; decide +kernel

end Schema

end DocQuery
