/-
  DocQuery.Proofs.Schema.Repetition — descriptions that say something twice.

  A description's text may give a type twice, and a field of a type. Whoever hands all of it over to be checked is
  refused (`build_of_repeats`). But a text is read into entries by name before anything is checked, and of the entries
  of one spelling only the last is left (`ofText_eq_build`). What is left repeats nothing unless two spellings
  of one field's name stand in a type that is left (`conflicts_iff`), and this is refused. A name repeated in one
  spelling is not, and then the schema lacks something that the text declares (`ofText_repeated`).
-/

import DocQuery.Proofs.Schema.Rereading

namespace DocQuery

namespace Schema

/-! ## What a text declares -/

/-- The JSON of the root's name and that of the types, from either form of a description. -/
def parts? : Json → Option (Json × Json)
  | .object members =>
    match membersNamed "root" members, membersNamed "types" members with
    | [root], [types] => some (root, types)
    | _, _ => none
  | .array [root, types] => some (root, types)
  | _ => none

namespace Description

/-- The types and the fields of each in the order written, with all repetitions. -/
def verbatim? (j : Json) : Option Description :=
  match parts? j with
  | some (.string root, types) =>
    if types.depth < maxDepth then (members? (members? Spec.ofJson?) types).map fun types => ⟨root, types⟩ else none
  | _ => none

/-- Of types of one name only the last, and of its fields of one name only the last. -/
def kept (d : Description) : Description := ⟨d.root, sortEntries (d.types.map fun t => (t.1, sortEntries t.2))⟩

/-- The types handed over one by one, each with all its fields. -/
def build (d : Description) : Except Error Schema := do ofTypes d.root (← d.types.mapM objectTypeOf)

/-- A type gives a field twice, letter case aside, or a type is given twice. -/
def Repeats (d : Description) : Prop :=
  (∃ t ∈ d.types, ¬ Distinct (t.2.map (·.1))) ∨ ¬ (d.types.map (·.1)).Nodup

/-- Two spellings of one field's name stand in the last type of its name. -/
def Conflicts (d : Description) : Prop :=
  ∃ t, Last d.types t ∧ ∃ e ∈ t.2, ∃ f ∈ t.2, e.1 ≠ f.1 ∧ Text.sameIgnoringCase e.1 f.1 = true

theorem ofJson?_eq (j : Json) : ofJson? j = (verbatim? j).map kept := by
  have htypes : ∀ types, typesOf? types =
      (members? (members? Spec.ofJson?) types).map fun types => sortEntries (types.map fun t => (t.1, sortEntries t.2)) := by
    intro types
    have hfields : entries? Spec.ofJson? = fun j => (members? Spec.ofJson? j).map sortEntries :=
      funext (entries?_eq Spec.ofJson?)
    rw [typesOf?, entries?_eq, hfields, members?_map, Option.map_map]
    rfl
  have hparts : ∀ root types, parts? j = some (root, types) → ofParts? root types = (verbatim? j).map kept := by
    intro root types hj
    rw [verbatim?, hj]
    cases root with
    | string root =>
      simp only [ofParts?, htypes]
      split
      · rw [Option.map_map, Option.map_map]
        rfl
      · rfl
    | _ => rfl
  have hnone : parts? j = none → none = (verbatim? j).map kept := by
    intro hj
    rw [verbatim?, hj]
    rfl
  unfold ofJson?
  split
  · split
    · exact hparts _ _ (by simp [parts?, *])
    · exact hnone (by simp [parts?, *])
  · exact hparts _ _ rfl
  · exact hnone (by simp [parts?, *])

end Description

/-- What the text declares, if it is a description. -/
def verbatim? (text : String) : Option Description := (json? text).bind Description.verbatim?

theorem ofText_eq_build (text : String) :
    ofText text = match verbatim? text with
      | none => .error .unreadable
      | some d => d.kept.build := by
  have hread : (json? text).bind Description.ofJson? = (verbatim? text).map Description.kept := by
    rw [verbatim?, funext Description.ofJson?_eq, Option.map_bind]
    rfl
  rw [ofText, hread]
  cases verbatim? text <;> rfl

/-! ## What is left repeats -/

theorem distinct_sortEntries_iff {α : Type} {entries : List (String × α)} :
    Distinct ((sortEntries entries).map (·.1)) ↔
      ∀ e ∈ entries, ∀ f ∈ entries, Text.sameIgnoringCase e.1 f.1 = true → e.1 = f.1 := by
  have hnodup : ((sortEntries entries).map (·.1)).Nodup :=
    List.pairwise_map.mpr ((sortEntries_ordered entries).imp fun hlt => hlt.ne)
  have hkeys : ∀ P : String → Prop, (∀ key ∈ (sortEntries entries).map (·.1), P key) ↔ ∀ e ∈ entries, P e.1 := by
    intro P
    simp only [key_mem_sortEntries, List.forall_mem_map]
  rw [Distinct, List.nodup_map_iff_inj_on hnodup]
  simp only [hkeys, Text.sameIgnoringCase, beq_iff_eq]

namespace Description

theorem last_types_iff {d : Description} {t : String × List (String × Spec)} :
    t ∈ d.kept.types ↔ ∃ u, Last d.types u ∧ (u.1, sortEntries u.2) = t := by
  rw [kept, sortEntries_map, List.mem_map]
  simp only [mem_sortEntries_iff]

theorem conflicts_iff {d : Description} : d.Conflicts ↔ d.kept.Repeats := by
  have hnodup : (d.kept.types.map (·.1)).Nodup :=
    List.pairwise_map.mpr ((sortEntries_ordered _).imp fun hlt => hlt.ne)
  rw [Repeats, or_iff_left (not_not.mpr hnodup)]
  constructor
  · rintro ⟨t, ht, e, he, f, hf, hne, hsame⟩
    exact ⟨_, last_types_iff.mpr ⟨t, ht, rfl⟩, fun hd => hne (distinct_sortEntries_iff.mp hd e he f hf hsame)⟩
  · rintro ⟨t, ht, hd⟩
    obtain ⟨u, hu, rfl⟩ := last_types_iff.mp ht
    simp only [distinct_sortEntries_iff, not_forall] at hd
    obtain ⟨e, he, f, hf, hsame, hne⟩ := hd
    exact ⟨u, hu, e, he, f, hf, hne, hsame⟩

end Description

/-! ## What is built repeats nothing -/

theorem exists_of_forall₂ {α β : Type} {R : α → β → Prop} {l : List α} {l' : List β} (h : List.Forall₂ R l l')
    {a : α} (ha : a ∈ l) : ∃ b ∈ l', R a b := by
  obtain ⟨i, hi, rfl⟩ := List.getElem_of_mem ha
  have hi' : i < l'.length := h.length_eq ▸ hi
  exact ⟨l'[i], List.getElem_mem hi', h.get hi hi'⟩

/-- Each declaration is a type or a field of its own, and there are no others. Their order does not count. -/
def Keeps (s : Schema) (d : Description) : Prop :=
  s.root = d.root ∧ ∃ given sorted, d.types.mapM objectTypeOf = .ok given ∧ given.Perm sorted ∧
    List.Forall₂ ObjectType.Alike sorted s.types

theorem field_names {members : List (String × Spec)} {fields : List Field} (h : members.mapM fieldOf = .ok fields) :
    fields.map (·.name) = members.map (·.1) := by
  refine Except.mapM_map (fun m f hf => ?_) h
  obtain ⟨type, -, rfl⟩ := Except.map_eq_ok.mp hf
  rfl

theorem objectTypeOf_eq_ok {t : String × List (String × Spec)} {u : ObjectType} :
    objectTypeOf t = .ok u ↔ u.name = t.1 ∧ t.2.mapM fieldOf = .ok u.fields := by
  rw [objectTypeOf, Except.map_eq_ok]
  constructor
  · rintro ⟨fields, hfields, rfl⟩
    exact ⟨rfl, hfields⟩
  · rintro ⟨hname, hfields⟩
    exact ⟨u.fields, hfields, by rw [← hname]⟩

theorem type_names {types : List (String × List (String × Spec))} {given : List ObjectType}
    (h : types.mapM objectTypeOf = .ok given) : given.map (·.name) = types.map (·.1) :=
  Except.mapM_map (fun _ _ ht => (objectTypeOf_eq_ok.mp ht).1) h

/-- The order of a type's members is the order of its fields and says nothing else. -/
theorem objectTypeOf_perm {name : String} {members members' : List (String × Spec)} {t : ObjectType}
    (hp : members.Perm members') (h : objectTypeOf (name, members) = .ok t) :
    ∃ t', objectTypeOf (name, members') = .ok t' ∧ t'.Alike t := by
  obtain ⟨hname, hfields⟩ := objectTypeOf_eq_ok.mp h
  obtain ⟨fields, hfields', hperm⟩ := Except.mapM_perm hp hfields
  exact ⟨⟨name, fields⟩, objectTypeOf_eq_ok.mpr ⟨rfl, hfields'⟩, hname.symm, hperm.symm⟩

namespace Description

variable {d : Description} {s : Schema}

theorem not_repeats_iff :
    ¬ d.Repeats ↔ (∀ t ∈ d.types, Distinct (t.2.map (·.1))) ∧ (d.types.map (·.1)).Nodup := by
  simp only [Repeats, not_or, not_exists, not_and, not_not]

theorem keeps_of_build (h : d.build = .ok s) : s.Keeps d := by
  obtain ⟨given, hgiven, hmade⟩ := Except.bind_eq_ok.mp h
  obtain ⟨hroot, hperm⟩ := ofTypes_perm hmade
  exact ⟨hroot, given, s.types, hgiven, hperm.symm, List.forall₂_same.mpr fun t _ => ⟨rfl, .refl _⟩⟩

/-- A schema cannot keep what is declared twice. -/
theorem not_repeats_of_keeps (hs : s.Built) (h : s.Keeps d) : ¬ d.Repeats := by
  have hchecked := hs.checked
  obtain ⟨-, given, sorted, hgiven, hperm, halike⟩ := h
  refine not_repeats_iff.mpr ⟨fun t ht => ?_, ?_⟩
  · obtain ⟨u, hu, htu⟩ := exists_of_forall₂ (Except.mapM_forall₂.mp hgiven) ht
    obtain ⟨v, hv, -, huv⟩ := exists_of_forall₂ halike (hperm.mem_iff.mp hu)
    rw [← field_names (objectTypeOf_eq_ok.mp htu).2]
    exact (hchecked.describes.fields_distinct v hv).perm (huv.symm.map _)
  · have hnames : sorted.map (·.name) = s.types.map (·.name) := by
      rw [← List.forall₂_eq_eq_eq, List.forall₂_map_left_iff, List.forall₂_map_right_iff]
      exact halike.imp fun _ _ hsame => hsame.1
    rw [← type_names hgiven, (hperm.map _).nodup_iff, hnames]
    exact hchecked.nodup

theorem build_of_repeats (h : d.Repeats) : ∃ e, d.build = .error e := by
  cases hbuild : d.build with
  | error e => exact ⟨e, rfl⟩
  | ok s =>
    obtain ⟨given, -, hmade⟩ := Except.bind_eq_ok.mp hbuild
    exact absurd h (not_repeats_of_keeps ⟨_, _, hmade⟩ (keeps_of_build hbuild))

/-- Types whose fields were put in order are the types, if no name is repeated among the fields of one. -/
theorem given_of_sorted {types : List (String × List (String × Spec))} {inOrder : List ObjectType}
    (hd : ∀ t ∈ types, Distinct (t.2.map (·.1)))
    (h : List.Forall₂ (fun t u => objectTypeOf (t.1, sortEntries t.2) = .ok u) types inOrder) :
    ∃ given, types.mapM objectTypeOf = .ok given ∧ List.Forall₂ ObjectType.Alike given inOrder := by
  simp only [Except.mapM_forall₂]
  induction h with
  | nil => exact ⟨[], .nil, .nil⟩
  | @cons t u types inOrder htu _ ih =>
    obtain ⟨ht, htypes⟩ := List.forall_mem_cons.mp hd
    obtain ⟨first, hfirst, hsame⟩ := objectTypeOf_perm (sortEntries_perm ht.nodup) htu
    obtain ⟨rest, hrest, hall⟩ := ih htypes
    exact ⟨first :: rest, .cons hfirst hrest, .cons hsame hall⟩

/-- Where nothing is repeated, keeping the last of each name is putting the names in order. -/
theorem keeps_of_kept (h : ¬ d.Repeats) (hs : d.kept.build = .ok s) : s.Keeps d := by
  obtain ⟨hdistinct, hnodup⟩ := not_repeats_iff.mp h
  obtain ⟨left, hleft, hmade⟩ := Except.bind_eq_ok.mp hs
  obtain ⟨hroot, hperm⟩ := ofTypes_perm hmade
  have hkeys : ((d.types.map fun t => (t.1, sortEntries t.2)).map (·.1)).Nodup := by rwa [List.map_map]
  obtain ⟨inOrder, hinOrder, hleftPerm⟩ := Except.mapM_perm (sortEntries_perm hkeys) hleft
  rw [List.mapM_map, Except.mapM_forall₂] at hinOrder
  obtain ⟨given, hgiven, halike⟩ := given_of_sorted hdistinct hinOrder
  obtain ⟨sorted, hsorted, hsame⟩ : Relation.Comp List.Perm (List.Forall₂ ObjectType.Alike) given s.types := by
    rw [← List.forall₂_comp_perm_eq_perm_comp_forall₂]
    exact ⟨inOrder, halike, hleftPerm.symm.trans hperm.symm⟩
  exact ⟨hroot, given, sorted, hgiven, hsorted, hsame⟩

end Description

/-! ## Reading what is repeated -/

/-- What a text declares is read by name first: of each name the last declaration is left, and these alone are handed
over. All of them together would be refused if anything is repeated. Of what is left, two spellings of one field's
name are the only repetition, and refused. A schema that is read keeps all that is left, and it keeps
all that the text declares exactly if nothing is repeated. -/
theorem ofText_repeated (text : String) :
    (verbatim? text = none → ofText text = .error .unreadable) ∧
    ∀ d, verbatim? text = some d →
      ofText text = d.kept.build ∧
      (d.Repeats → ∃ e, d.build = .error e) ∧
      (d.kept.Repeats ↔ d.Conflicts) ∧
      (d.Conflicts → ∃ e, ofText text = .error e) ∧
      ∀ s, ofText text = .ok s → s.Keeps d.kept ∧ (s.Keeps d ↔ ¬ d.Repeats) := by
  have hread := ofText_eq_build text
  refine ⟨fun h => by rw [hread, h], fun d hd => ?_⟩
  rw [hd] at hread
  refine ⟨hread, Description.build_of_repeats, Description.conflicts_iff.symm, fun h => ?_, fun s hs => ?_⟩
  · rw [hread]
    exact Description.build_of_repeats (Description.conflicts_iff.mp h)
  · have hbuilt := (settled_of_ofText hs).1
    rw [hread] at hs
    exact ⟨Description.keeps_of_build hs, Description.not_repeats_of_keeps hbuilt,
      fun h => Description.keeps_of_kept h hs⟩

/-! ## Descriptions of posts -/

/-- The JSON of one type's fields, by the names of their types. -/
def fieldsJson (fields : List (String × String)) : Json := .object (fields.map fun f => (f.1, .string f.2))

def postsJson (types : List (String × List (String × String))) : Json :=
  .object [("root", .string "Post"), ("types", .object (types.map fun t => (t.1, fieldsJson t.2)))]

def posts (types : List (String × List (String × String))) : Description :=
  ⟨"Post", types.map fun t => (t.1, t.2.map fun f => (f.1, .name f.2))⟩

theorem fieldsJson_plain (fields : List (String × String)) :
    (fieldsJson fields).numberless = true ∧ (fieldsJson fields).depth ≤ 1 := by
  constructor
  · exact Json.numberlessMembers_iff.mpr (List.forall_mem_map.mpr fun _ _ => rfl)
  · exact Nat.succ_le_succ (Json.membersDepth_le_iff.mpr (List.forall_mem_map.mpr fun _ _ => Nat.le_refl 0))

/-- Whatever is declared of posts, once or more than once, some text declares it. -/
theorem verbatim?_postsJson (types : List (String × List (String × String))) :
    verbatim? (postsJson types).compact = some (posts types) := by
  have hfields : ∀ m ∈ types.map fun t => (t.1, fieldsJson t.2), m.2.numberless = true ∧ m.2.depth ≤ 1 :=
    List.forall_mem_map.mpr fun t _ => fieldsJson_plain t.2
  have hdepth : (Json.object (types.map fun t => (t.1, fieldsJson t.2))).depth ≤ 2 :=
    Nat.succ_le_succ (Json.membersDepth_le_iff.mpr fun m hm => (hfields m hm).2)
  have hread : json? (postsJson types).compact = some (postsJson types) := by
    have hnumberless := Json.numberlessMembers_iff.mpr fun m hm => (hfields m hm).1
    have hlength : 4 ≤ (postsJson types).compact.length := four_le_length _ _
    refine json?_compact (by simp [Json.numberless, Json.numberlessMembers, hnumberless]) ?_
    simp only [postsJson, Json.depth, Json.membersDepth] at hdepth hlength ⊢
    omega
  have htypes : members? (members? Spec.ofJson?) (.object (types.map fun t => (t.1, fieldsJson t.2))) =
      some (posts types).types :=
    members?_written fieldsJson (fun fields => fields.map fun f => (f.1, Spec.name f.2)) fun t _ =>
      members?_written Json.string Spec.name fun _ _ => rfl
  rw [verbatim?, hread, Option.bind_some]
  show (if _ < maxDepth then _ else none) = _
  rw [if_pos (Nat.lt_of_le_of_lt hdepth (by decide)), htypes]
  rfl

/-- A type given twice, its fields first in two spellings and then one of them twice in one. -/
def revisedTypes : List (String × List (String × String)) :=
  [("Post", [("Title", "int"), ("TITLE", "int")]), ("Post", [("Title", "int"), ("Title", "string")])]

/-- A field in two spellings. -/
def respelledTypes : List (String × List (String × String)) := [("Post", [("Title", "int"), ("TITLE", "int")])]

theorem revised_kept :
    (∃ s, ofText (postsJson revisedTypes).compact = .ok s ∧ s.types = [⟨"Post", [⟨"Title", .scalar .string⟩]⟩] ∧
      s.Keeps (posts revisedTypes).kept ∧ ¬ s.Keeps (posts revisedTypes)) ∧
    ∃ e, ofText (postsJson respelledTypes).compact = .error e := by
  have hread : ofText (postsJson revisedTypes).compact = .ok ⟨"Post", [⟨"Post", [⟨"Title", .scalar .string⟩]⟩]⟩ := by
    decide +kernel
  obtain ⟨-, -, -, -, hkeeps⟩ := (ofText_repeated _).2 _ (verbatim?_postsJson revisedTypes)
  obtain ⟨-, -, -, hrefused, -⟩ := (ofText_repeated _).2 _ (verbatim?_postsJson respelledTypes)
  refine ⟨⟨_, hread, rfl, (hkeeps _ hread).1, fun h => (hkeeps _ hread).2.mp h (.inr (by decide))⟩, hrefused ?_⟩
  refine ⟨_, ⟨[], [], rfl, by decide⟩, ("Title", .name "int"), ?_, ("TITLE", .name "int"), ?_, by decide, by decide +kernel⟩
  · exact List.mem_cons_self
  · exact List.mem_cons_of_mem _ List.mem_cons_self

/-- A field in one spelling twice. -/
def retitledTypes : List (String × List (String × String)) := [("Post", [("Title", "string"), ("Title", "int")])]

/-- A type twice, with different fields. -/
def replacedTypes : List (String × List (String × String)) := [("Post", [("Title", "string")]), ("Post", [("Rank", "int")])]

def retitledText : String :=
  "\x7b\"root\":\"Post\",\"types\":\x7b\"Post\":\x7b\"Title\":\"string\",\"Title\":\"int\"\x7d\x7d\x7d"

def replacedText : String :=
  "\x7b\"root\":\"Post\",\"types\":\x7b\"Post\":\x7b\"Title\":\"string\"\x7d,\"Post\":\x7b\"Rank\":\"int\"\x7d\x7d\x7d"

/-- Both are read without an error, and what was declared first is lost. -/
theorem first_declaration_lost :
    (verbatim? retitledText = some (posts retitledTypes) ∧ (posts retitledTypes).Repeats ∧
      ofText retitledText = .ok ⟨"Post", [⟨"Post", [⟨"Title", .scalar .int⟩]⟩]⟩) ∧
    verbatim? replacedText = some (posts replacedTypes) ∧ (posts replacedTypes).Repeats ∧
      ofText replacedText = .ok ⟨"Post", [⟨"Post", [⟨"Rank", .scalar .int⟩]⟩]⟩ := by
  have hretitled : retitledText = (postsJson retitledTypes).compact := by decide +kernel
  have hreplaced : replacedText = (postsJson replacedTypes).compact := by decide +kernel
  refine ⟨⟨?_, .inl ⟨_, List.mem_cons_self, ?_⟩, by decide +kernel⟩, ?_, .inr (by decide), by decide +kernel⟩
  · rw [hretitled, verbatim?_postsJson]
  · show ¬ List.Nodup _
    decide +kernel
  · rw [hreplaced, verbatim?_postsJson]

end Schema

end DocQuery
