/-
  DocQuery.Proofs.Schema.Validity — which object types make a schema, and what a schema then answers.

  `Describes root types` is what a description has to be, said without the passes that check it. Each
  pass comes to one of its conditions (`checkFields_ok_iff`, `collect_perm`, `checkReferences_ok_iff`), so a
  schema is made of exactly these descriptions (`ofTypes_ok_iff`). In a schema a name finds its field
  ignoring case, and no other (`Checked.field?_eq_some_iff`). A walk along a path stays on declared types,
  whose fields can all be walked (`step_answers`), so resolving a path can only fail for the path itself:
  nothing that building a schema checks is found missing later (`resolve_answers`).
-/

import DocQuery.Proofs.Schema.Checking

namespace DocQuery

/-! ## Names -/

namespace Name

/-- A letter or underscore, then letters, digits and underscores, in 128 bytes. -/
structure Valid (name : String) : Prop where
  spelled : ∃ first rest, name.toList = first :: rest ∧ isStart first = true ∧ ∀ c ∈ rest, isPart c = true
  size_le : name.utf8ByteSize ≤ 128

theorem identifier_iff {name : String} :
    Identifier name ↔ ∃ first rest, name.toList = first :: rest ∧ isStart first = true ∧ ∀ c ∈ rest, isPart c = true := by
  unfold Identifier
  cases name.toList with
  | nil => simp [isIdentifier]
  | cons c r => simp [isIdentifier]

theorem utf8Size_of_isPart {c : Char} (h : isPart c = true) : c.utf8Size = 1 := by
  have hle : c.val ≤ 0x7f := Nat.le_of_lt_succ (isPart_lt h)
  simp [Char.utf8Size, hle]

/-- Identifiers are as long in bytes as in characters. -/
theorem Identifier.utf8ByteSize {name : String} (h : Identifier name) : name.utf8ByteSize = name.length := by
  have hsize : ∀ cs : List Char, (∀ c ∈ cs, Name.isPart c = true) → String.utf8Len cs = cs.length := by
    intro cs
    induction cs with
    | nil => intro _; rfl
    | cons c r ih =>
      intro hall
      obtain ⟨hc, hr⟩ := List.forall_mem_cons.mp hall
      rw [String.utf8Len_cons, ih hr, utf8Size_of_isPart hc, List.length_cons]
  have hchars := hsize name.toList fun c hc => h.isPart hc
  rw [← String.utf8ByteSize_ofList, String.ofList_toList, String.length_toList] at hchars
  exact hchars

theorem fault?_eq_none_iff {name : String} : fault? name = none ↔ Valid name := by
  constructor
  · intro h
    have hi := identifier_of_fault? h
    refine ⟨identifier_iff.mp hi, ?_⟩
    unfold fault? at h
    by_cases hl : name.length > maxNameLength
    · simp only [hl, if_true] at h
      split_ifs at h
    · rw [hi.utf8ByteSize]
      exact Nat.le_of_not_gt hl
  · intro h
    have hi := identifier_iff.mpr h.spelled
    have hne : name.isEmpty = false := by
      rw [Bool.eq_false_iff]
      intro he
      exact hi.ne_nil (by rw [String.isEmpty_iff.mp he]; rfl)
    have hl : ¬ name.length > maxNameLength := by
      rw [← hi.utf8ByteSize]
      exact Nat.not_lt.mpr h.size_le
    have hid : isIdentifier name.toList = true := hi
    simp [fault?, hne, hid, hl]

end Name

/-! ## Fields by name -/

namespace ObjectType

/-- Of fields that no two names alike ignoring case stand for, a name finds its own. -/
theorem field?_eq_some_iff {t : ObjectType} (h : Schema.Distinct (t.fields.map (·.name))) {name : String} {f : Field} :
    t.field? name = some f ↔ f ∈ t.fields ∧ Text.sameIgnoringCase f.name name = true := by
  constructor
  · intro hf
    have hname : Text.sameIgnoringCase f.name name = true := by simpa using List.find?_some (show t.fields.find? _ = _ from hf)
    exact ⟨List.mem_of_find?_eq_some hf, hname⟩
  · intro ⟨hf, hname⟩
    have hsome : (t.field? name).isSome = true := List.find?_isSome.mpr ⟨f, hf, hname⟩
    obtain ⟨g, hg⟩ := Option.isSome_iff_exists.mp hsome
    have hgname : Text.sameIgnoringCase g.name name = true := by simpa using List.find?_some (show t.fields.find? _ = _ from hg)
    have hlower : Text.lower g.name = Text.lower f.name := by
      simp only [Text.sameIgnoringCase, beq_iff_eq] at hname hgname
      rw [hname, hgname]
    rw [Schema.Distinct, List.map_map] at h
    rw [hg, List.inj_on_of_nodup_map h (List.mem_of_find?_eq_some hg) hf hlower]

end ObjectType

namespace Schema

/-! ## Descriptions -/

/-- Object types, in any order, that describe a schema with this root. -/
structure Describes (root : String) (types : List ObjectType) : Prop where
  names_valid : ∀ t ∈ types, ∀ f ∈ t.fields, Name.Valid f.name
  fields_distinct : ∀ t ∈ types, Distinct (t.fields.map (·.name))
  types_nodup : (types.map (·.name)).Nodup
  root_mem : root ∈ types.map (·.name)
  references_mem : ∀ t ∈ types, ∀ name ∈ t.references, name ∈ types.map (·.name)
  flat : ∀ t ∈ types, ∀ f ∈ t.fields, ∀ element, f.type ≠ .array (.array element)

theorem nesting_le_one_iff {type : FieldType} : type.nesting ≤ 1 ↔ ∀ element, type ≠ .array (.array element) := by
  cases type with
  | scalar s => simp [FieldType.nesting]
  | object name => simp [FieldType.nesting]
  | array e =>
    cases e with
    | scalar s => simp [FieldType.nesting]
    | object name => simp [FieldType.nesting]
    | array e => simp [FieldType.nesting]

theorem checkFields_valid_iff {t : ObjectType} :
    ObjectType.checkFields t.name [] t.fields = .ok () ↔
      (∀ f ∈ t.fields, Name.Valid f.name) ∧ Distinct (t.fields.map (·.name)) := by
  simp only [ObjectType.checkFields_ok_iff, Name.fault?_eq_none_iff]
  simp

theorem insertType?_some_perm {t : ObjectType} {types out : List ObjectType} (h : insertType? t types = some out) :
    out.Perm (t :: types) := by
  induction types generalizing out with
  | nil => cases h; exact List.Perm.refl _
  | cons u rest ih =>
    unfold insertType? at h
    split at h
    · cases h; exact List.Perm.refl _
    · split at h
      · obtain ⟨more, hmore, rfl⟩ := Option.map_eq_some_iff.mp h
        exact ((ih hmore).cons u).trans (List.Perm.swap t u rest)
      · cases h

/-- What is collected is what was there and what was given. -/
theorem collect_perm {given types out : List ObjectType} (h : collect types given = .ok out) :
    out.Perm (types ++ given) := by
  induction given generalizing types with
  | nil => cases h; simp
  | cons t rest ih =>
    obtain ⟨_, -, h⟩ := Except.bind_eq_ok.mp h
    cases hi : insertType? t types with
    | none => rw [hi] at h; cases h
    | some more =>
      rw [hi] at h
      have hmore : (more ++ rest).Perm (t :: types ++ rest) := (insertType?_some_perm hi).append_right rest
      exact (ih h).trans (hmore.trans List.perm_middle.symm)

/-- A schema holds the types it was made of. -/
theorem ofTypes_perm {root : String} {types : List ObjectType} {s : Schema} (h : ofTypes root types = .ok s) :
    s.root = root ∧ s.types.Perm types := by
  obtain ⟨hcollect, hroot, -, -⟩ := ofTypes_eq_ok h
  exact ⟨hroot, collect_perm hcollect⟩

theorem Checked.describes {s : Schema} (h : s.Checked) : Describes s.root s.types where
  names_valid t ht := (checkFields_valid_iff.mp (h.fields t ht)).1
  fields_distinct t ht := (checkFields_valid_iff.mp (h.fields t ht)).2
  types_nodup := h.nodup
  root_mem := h.root
  references_mem := h.declared
  flat t ht f hf := nesting_le_one_iff.mp (h.flat t ht f hf)

/-- The order in which types are given says nothing. -/
theorem Describes.perm {root : String} {types types' : List ObjectType} (h : Describes root types)
    (hp : types.Perm types') : Describes root types' where
  names_valid t ht := h.names_valid t (hp.mem_iff.mpr ht)
  fields_distinct t ht := h.fields_distinct t (hp.mem_iff.mpr ht)
  types_nodup := (hp.map _).nodup_iff.mp h.types_nodup
  root_mem := (hp.map _).mem_iff.mp h.root_mem
  references_mem t ht name hname := (hp.map _).mem_iff.mp (h.references_mem t (hp.mem_iff.mpr ht) name hname)
  flat t ht := h.flat t (hp.mem_iff.mpr ht)

theorem ofTypes_ok_iff {root : String} {types : List ObjectType} :
    (∃ s, ofTypes root types = .ok s) ↔ Describes root types := by
  constructor
  · intro ⟨s, hs⟩
    obtain ⟨rfl, hperm⟩ := ofTypes_perm hs
    exact (Built.checked ⟨_, _, hs⟩).describes.perm hperm
  · intro h
    have hfields : ∀ t ∈ types, ObjectType.checkFields t.name [] t.fields = .ok () := fun t ht =>
      checkFields_valid_iff.mpr ⟨h.names_valid t ht, h.fields_distinct t ht⟩
    obtain ⟨sorted, hsorted, -⟩ := ofTypes_ok h.types_nodup hfields h.root_mem fun declared hd t ht f hf =>
      checkReference_ok_iff.mpr
        ⟨fun name hname => hd name (h.references_mem t ht name (List.mem_filterMap.mpr ⟨f, hf, hname⟩)),
          nesting_le_one_iff.mpr (h.flat t ht f hf)⟩
    exact ⟨_, hsorted⟩

theorem Checked.field?_eq_some_iff {s : Schema} (h : s.Checked) {t : ObjectType} (ht : t ∈ s.types) {name : String}
    {f : Field} : t.field? name = some f ↔ f ∈ t.fields ∧ Text.sameIgnoringCase f.name name = true :=
  ObjectType.field?_eq_some_iff (h.describes.fields_distinct t ht)

end Schema

/-! ## Resolving in a schema -/

namespace Path

/-- A walk stands on one of the schema's types, or where there is nothing further. -/
def Place.Declared (s : Schema) : Place → Prop
  | .type t => t ∈ s.types
  | .leaf _ => True

theorem classify_isSome {type : FieldType} (h : type.nesting ≤ 1) : ∃ kind element, classify type = some (kind, element) := by
  cases type with
  | scalar s => exact ⟨_, _, rfl⟩
  | object name => exact ⟨_, _, rfl⟩
  | array e =>
    cases e with
    | scalar s => exact ⟨_, _, rfl⟩
    | object name => exact ⟨_, _, rfl⟩
    | array e => simp [FieldType.nesting] at h

/-- A step from a declared place leads to another, or there is no such field. -/
theorem step_answers {s : Schema} (hs : s.Checked) (path : String) {place : Place} (hp : place.Declared s)
    (segment : List Char) :
    (∃ n next, step s path place segment = .ok (n, next) ∧ next.Declared s) ∨
      ∃ typeName, step s path place segment = .error (.pathNotFound path typeName) := by
  cases place with
  | leaf name => exact .inr ⟨name, rfl⟩
  | type t =>
    cases hf : (segmentName? segment).bind t.field? with
    | none => exact .inr ⟨t.name, by simp [step, hf]⟩
    | some f =>
      obtain ⟨name, -, hfield⟩ := Option.bind_eq_some_iff.mp hf
      have hmem : f ∈ t.fields := List.mem_of_find?_eq_some hfield
      obtain ⟨kind, element, hc⟩ := classify_isSome (hs.flat t hp f hmem)
      cases element with
      | scalar scalar => exact .inl ⟨⟨f.name, kind, .scalar scalar⟩, .leaf scalar.name, by simp [step, hf, hc], trivial⟩
      | object typeName =>
        cases ht : s.type? typeName with
        | none => exact .inr ⟨typeName, by simp [step, hf, hc, ht]⟩
        | some target =>
          exact .inl ⟨⟨f.name, kind, .object typeName⟩, .type target, by simp [step, hf, hc, ht],
            List.mem_of_find?_eq_some ht⟩

theorem walk_answers {s : Schema} (hs : s.Checked) (path : String) {place : Place} (hp : place.Declared s)
    (segments : List (List Char)) :
    (∃ nodes, walk s path place segments = .ok nodes) ∨
      ∃ typeName, walk s path place segments = .error (.pathNotFound path typeName) := by
  induction segments generalizing place with
  | nil => exact .inl ⟨[], rfl⟩
  | cons segment rest ih =>
    rcases step_answers hs path hp segment with ⟨n, next, hstep, hnext⟩ | ⟨typeName, hstep⟩
    · rcases ih hnext with ⟨nodes, hwalk⟩ | ⟨typeName, hwalk⟩
      · exact .inl ⟨n :: nodes, by simp [walk, hstep, hwalk, bind, Except.bind, pure, Except.pure]⟩
      · exact .inr ⟨typeName, by simp [walk, hstep, hwalk, bind, Except.bind]⟩
    · exact .inr ⟨typeName, by simp [walk, hstep, bind, Except.bind]⟩

theorem origin_declared (s : Schema) : (origin s).Declared s := by
  unfold origin Schema.rootType?
  cases h : s.type? s.root with
  | none => trivial
  | some t => exact List.mem_of_find?_eq_some h

/-- In a checked schema a path is resolved, or not found, or ends on an array of objects. -/
theorem resolve_answers {s : Schema} (hs : s.Checked) (path : String) :
    (∃ r, resolve s path = .ok r) ∨ (∃ typeName, resolve s path = .error (.pathNotFound path typeName)) ∨
      resolve s path = .error (.arrayTerminal path) := by
  by_cases he : (Text.trimChars path.toList).isEmpty = true
  · exact .inr (.inl ⟨s.root, by simp [resolve, he, throw, throwThe, MonadExceptOf.throw, bind, Except.bind]⟩)
  · rcases walk_answers hs path (origin_declared s) (pieces (Text.trimChars path.toList)) with
      ⟨nodes, hwalk⟩ | ⟨typeName, hwalk⟩
    · cases hn : ResolvedPath.ofNodes? nodes with
      | none =>
        exact .inr (.inl ⟨s.root, by simp [resolve, he, hwalk, hn, throw, throwThe, MonadExceptOf.throw, bind, Except.bind]⟩)
      | some r =>
        by_cases hk : r.terminal.kind = .objectArray
        · exact .inr (.inr (by
            simp [resolve, he, hwalk, hn, hk, throw, throwThe, MonadExceptOf.throw, bind, Except.bind]))
        · exact .inl ⟨r, by simp [resolve, he, hwalk, hn, hk, bind, Except.bind, pure, Except.pure]⟩
    · exact .inr (.inl ⟨typeName, by simp [resolve, he, hwalk, bind, Except.bind]⟩)

end Path

/-! ## The schemas there are -/

namespace Schema

/-- The types that make a schema are the descriptions, in any order. The schema holds these types, finds
the field of a name by any letter case, and resolves every path or says what is wrong with the path. -/
theorem ofTypes_exactly (root : String) (types : List ObjectType) :
    ((∃ s, ofTypes root types = .ok s) ↔ Describes root types) ∧
      ∀ s, ofTypes root types = .ok s →
        s.root = root ∧ s.types.Perm types ∧
          (∀ t ∈ s.types, ∀ name f,
            t.field? name = some f ↔ f ∈ t.fields ∧ Text.sameIgnoringCase f.name name = true) ∧
          ∀ path, (∃ r, Path.resolve s path = .ok r) ∨
            (∃ typeName, Path.resolve s path = .error (.pathNotFound path typeName)) ∨
            Path.resolve s path = .error (.arrayTerminal path) := by
  refine ⟨ofTypes_ok_iff, fun s hs => ?_⟩
  have hchecked : s.Checked := Built.checked ⟨root, types, hs⟩
  obtain ⟨hroot, hperm⟩ := ofTypes_perm hs
  exact ⟨hroot, hperm, fun t ht name f => hchecked.field?_eq_some_iff ht, Path.resolve_answers hchecked⟩

def repliesTypes : List ObjectType :=
  [⟨"Post", [⟨"Title", .scalar .string⟩, ⟨"Comments", .array (.object "Comment")⟩]⟩,
    ⟨"Comment", [⟨"Replies", .array (.object "Comment")⟩, ⟨"Content", .scalar .string⟩]⟩]

/-- Types given out of order make a schema, in which names are found in any letter case. -/
theorem repliesTypes_described :
    ∃ s, ofTypes "Post" repliesTypes = .ok s ∧ Describes "Post" repliesTypes ∧ s.types.Perm repliesTypes ∧
      (∃ t ∈ s.types, t.field? "CONTENT" = some ⟨"Content", .scalar .string⟩) ∧
      Path.resolve s "comments.replies" = .error (.arrayTerminal "comments.replies") := by
  have hbuilt : ofTypes "Post" repliesTypes = .ok ⟨"Post", repliesTypes.reverse⟩ := by decide +kernel
  obtain ⟨hdescribed, hschema⟩ := ofTypes_exactly "Post" repliesTypes
  obtain ⟨-, hperm, hfield, -⟩ := hschema _ hbuilt
  refine ⟨_, hbuilt, hdescribed.mp ⟨_, hbuilt⟩, hperm, ?_, by decide +kernel⟩
  refine ⟨⟨"Comment", [⟨"Replies", .array (.object "Comment")⟩, ⟨"Content", .scalar .string⟩]⟩, by decide, ?_⟩
  exact (hfield _ (by decide) "CONTENT" ⟨"Content", .scalar .string⟩).mpr (by decide +kernel)

end Schema

end DocQuery
