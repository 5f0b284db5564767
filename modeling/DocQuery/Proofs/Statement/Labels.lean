/-
  DocQuery.Proofs.Statement.Labels — the names that joins bring into a statement.

  A join is labelled with the dotted names of its array. A type's fields differ in more than letter case,
  so two paths whose names agree but for case are one (`Declared.names_eq`), and the labels of a
  statement's joins differ in more than case (`labels_apart`). A label is a name that the statement uses
  itself only where it is that of an array of the root type, and there nothing keeps it from being one
  (`docPost_clash`).
-/

import DocQuery.Proofs.Schema.Checking
import DocQuery.Proofs.Statement.Parameters

namespace DocQuery

open DocQuery.Path Statement

/-! ## Letter case of identifiers -/

namespace Name

theorem toLower_ascii : ∀ n < 128, isPart (Char.ofNat n) = isPart (Char.ofNat n).toLower ∧
    isStart (Char.ofNat n) = isStart (Char.ofNat n).toLower := by decide

theorem isPart_toLower {c : Char} (h : isPart c = true) : isPart c.toLower = true := by
  have hlower := (toLower_ascii c.toNat (isPart_lt h)).1
  rw [Char.ofNat_toNat] at hlower
  exact hlower ▸ h

theorem isStart_toLower {c : Char} (h : isStart c = true) : isStart c.toLower = true := by
  have hlower := (toLower_ascii c.toNat (isPart_lt (isPart_of_isStart h))).2
  rw [Char.ofNat_toNat] at hlower
  exact hlower ▸ h

theorem Identifier.lower {name : String} (h : Identifier name) : Identifier (Text.lower name) := by
  unfold Identifier at h ⊢
  rw [Text.lower, String.toList_ofList]
  cases hn : name.toList with
  | nil => rw [hn] at h; cases h
  | cons c rest =>
    rw [hn] at h
    simp only [isIdentifier, Bool.and_eq_true, List.all_eq_true, List.map_cons, List.forall_mem_map] at h ⊢
    exact ⟨isStart_toLower h.1, fun x hx => isPart_toLower (h.2 x hx)⟩

end Name

namespace Path

theorem map_intercalate (f : Char → Char) (c : Char) (texts : List (List Char)) :
    ([c].intercalate texts).map f = [f c].intercalate (texts.map (List.map f)) := by
  induction texts with
  | nil => rfl
  | cons t rest ih =>
    cases rest with
    | nil => simp
    | cons u more => simpa using ih

/-- Dotted names in lower case. -/
theorem lower_dotted (names : List String) : Text.lower (dotted names) = dotted (names.map Text.lower) := by
  apply String.toList_inj.mp
  have hlower : (names.map Text.lower).map String.toList = (names.map String.toList).map (List.map Char.toLower) := by
    simp [Text.lower]
  rw [Text.lower, String.toList_ofList, toList_dotted, toList_dotted, hlower]
  exact map_intercalate Char.toLower '.' _

theorem dotted_injective_lower {a b : List String} (ha : ∀ n ∈ a, Name.Identifier n) (hb : ∀ n ∈ b, Name.Identifier n)
    (h : Text.lower (dotted a) = Text.lower (dotted b)) : a.map Text.lower = b.map Text.lower := by
  rw [lower_dotted, lower_dotted] at h
  have hlower : ∀ {names : List String}, (∀ n ∈ names, Name.Identifier n) →
      ∀ n ∈ names.map Text.lower, Name.Identifier n := by
    intro names hnames n hn
    obtain ⟨m, hm, rfl⟩ := List.mem_map.mp hn
    exact (hnames m hm).lower
  exact dotted_injective (hlower ha) (hlower hb) h

/-! ## Names along paths -/

variable {s : Schema}

/-- A declared name is one of its type's, and no other of them is the same but for letter case. -/
theorem declared?_eq_of_lower (hs : s.Checked) {type : FieldType} {name name' : String} {f g : Field}
    (hf : s.declared? type name = some f) (hg : s.declared? type name' = some g)
    (h : Text.lower name = Text.lower name') : name = name' := by
  obtain ⟨t, ht, hft⟩ := Option.bind_eq_some_iff.mp hf
  obtain ⟨t', ht', hgt⟩ := Option.bind_eq_some_iff.mp hg
  obtain rfl := Option.some.inj (ht.symm.trans ht')
  obtain ⟨typeName, -, hname⟩ := Option.bind_eq_some_iff.mp ht
  have hdistinct := (ObjectType.checkFields_ok_iff.mp (hs.fields t (List.mem_of_find?_eq_some hname))).2.1
  have hfname : f.name = name := by simpa using List.find?_some hft
  have hgname : g.name = name' := by simpa using List.find?_some hgt
  rw [← hfname, ← hgname] at h ⊢
  exact List.inj_on_of_nodup_map hdistinct (List.mem_map_of_mem (List.mem_of_find?_eq_some hft))
    (List.mem_map_of_mem (List.mem_of_find?_eq_some hgt)) h

/-- Paths whose names agree but for letter case have the same names. -/
theorem Declared.names_eq (hs : s.Checked) {type : FieldType} {a b : List Node} (ha : Declared s type a)
    (hb : Declared s type b) (h : (a.map (·.name)).map Text.lower = (b.map (·.name)).map Text.lower) :
    a.map (·.name) = b.map (·.name) := by
  induction a generalizing b type with
  | nil =>
    cases b with
    | nil => rfl
    | cons m more => cases h
  | cons n rest ih =>
    cases b with
    | nil => cases h
    | cons m more =>
      simp only [List.map_cons, List.cons.injEq] at h ⊢
      obtain ⟨f, hf, hcf, hrest⟩ := ha
      obtain ⟨g, hg, hcg, hmore⟩ := hb
      have hname := declared?_eq_of_lower hs hf hg h.1
      obtain rfl : f = g := Option.some.inj (hf.symm.trans (hname ▸ hg))
      exact ⟨hname, ih hrest hmore h.2⟩

end Path

namespace ResolvedPath

variable {s : Schema} {path : String} {r : ResolvedPath}

/-- An array on a path is reached by declared fields, the last of which is an array of objects. -/
theorem array_declared (h : resolve s path = .ok r) {c : Crossing} (hc : c ∈ r.arrays) :
    ∃ a n, c.names = (a ++ [n]).map (·.name) ∧ n.kind = .objectArray ∧ Declared s (.object s.root) (a ++ [n]) := by
  obtain ⟨a, n, b, hb, hn, rfl⟩ := mem_crossingsFrom.mp hc
  refine ⟨a, n, by simp [Position.after_names, Position.start], hn, ?_⟩
  have hnodes : r.nodes = (a ++ [n]) ++ (b ++ [r.terminal]) := by simp [nodes, hb]
  have hdeclared := (resolve_declared h).1
  rw [hnodes] at hdeclared
  exact hdeclared.append

end ResolvedPath

/-- The names that a statement uses beside those of its joins: the table's alias and, in SQL Server, where
a join's label is a column, the table's columns. -/
def Dialect.ownNames : Dialect → List String
  | .sqlserver => [tableAlias, "_id", "_document"]
  | _ => [tableAlias]

theorem Dialect.ownNames_identifier (d : Dialect) : ∀ name ∈ d.ownNames, Name.Identifier name := by
  apply List.all_eq_true.mp
  show d.ownNames.all (fun name => Name.isIdentifier name.toList) = true
  cases d <;> decide

namespace Statement

variable {schema : Schema} {d : Dialect} {table : Table} {q : Option Query} {c : Compiled}

/-- A join's label has the names of an array that declared fields lead to. -/
theorem CompiledTo.label_declared (h : CompiledTo schema d table q c) {j : ArrayJoin} (hj : j ∈ c.statement.joins) :
    ∃ a n, j.label = dotted ((a ++ [n]).map (·.name)) ∧ n.kind = .objectArray ∧
      Declared schema (.object schema.root) (a ++ [n]) := by
  obtain ⟨shape, given, page, t, keys, hb, rfl⟩ := h.request
  obtain ⟨r, hr, crossing, hcrossing, hlabel, -⟩ := requestJoins_sound hj
  obtain ⟨path, hpath⟩ := boundRequest_resolved hb r hr
  obtain ⟨a, n, hnames, hn, hdeclared⟩ := ResolvedPath.array_declared hpath hcrossing
  exact ⟨a, n, hnames ▸ hlabel, hn, hdeclared⟩

theorem identifier_names (hs : schema.Built) {type : FieldType} {nodes : List Node} (h : Declared schema type nodes) :
    ∀ name ∈ nodes.map (·.name), Name.Identifier name := by
  intro name hname
  obtain ⟨n, hn, rfl⟩ := List.mem_map.mp hname
  exact h.identifier hs n hn

/-- Labels that are the same but for letter case are the same. -/
theorem CompiledTo.label_eq (hs : schema.Built) (h : CompiledTo schema d table q c) {j k : ArrayJoin}
    (hj : j ∈ c.statement.joins) (hk : k ∈ c.statement.joins) (e : Text.sameIgnoringCase j.label k.label = true) :
    j.label = k.label := by
  obtain ⟨a, n, hjlabel, -, ha⟩ := h.label_declared hj
  obtain ⟨b, m, hklabel, -, hb⟩ := h.label_declared hk
  rw [hjlabel, hklabel] at e ⊢
  rw [Text.sameIgnoringCase, beq_iff_eq] at e
  have hlower := dotted_injective_lower (identifier_names hs ha) (identifier_names hs hb) e
  rw [ha.names_eq hs.checked hb hlower]

/-- A label without a point is the name of an array of the root type. -/
theorem CompiledTo.root_array (hs : schema.Built) (h : CompiledTo schema d table q c) {j : ArrayJoin}
    (hj : j ∈ c.statement.joins) {name : String} (hname : Name.Identifier name)
    (e : Text.sameIgnoringCase j.label name = true) :
    ∃ t f typeName, schema.rootType? = some t ∧ f ∈ t.fields ∧ f.name = j.label ∧ f.type = .array (.object typeName) := by
  obtain ⟨a, n, hlabel, hn, hdeclared⟩ := h.label_declared hj
  have hsingle : ((a ++ [n]).map (·.name)).map Text.lower = [name].map Text.lower := by
    apply dotted_injective_lower (identifier_names hs hdeclared) (fun m hm => List.mem_singleton.mp hm ▸ hname)
    rw [← hlabel]
    have hdotted : dotted [name] = name := by simp [dotted]
    rw [hdotted]
    exact beq_iff_eq.mp e
  -- One name is left of the label, so no array encloses this one.
  obtain rfl : a = [] := by
    have hlength := congrArg List.length hsingle
    simp only [List.length_map, List.length_append, List.length_singleton] at hlength
    exact List.eq_nil_of_length_eq_zero (by omega)
  obtain ⟨f, hf, hclass, -⟩ := hdeclared
  obtain ⟨typeName, htype⟩ := (classify_element hclass).2.2.2.2.mp hn
  obtain ⟨t, ht, hft⟩ := Option.bind_eq_some_iff.mp hf
  refine ⟨t, f, typeName, ht, List.mem_of_find?_eq_some hft, ?_, htype⟩
  rw [hlabel]
  have hfname : f.name = n.name := by simpa using List.find?_some hft
  simpa [dotted] using hfname

/-- The labels of a statement's joins differ in more than letter case. One is among the names that
the statement uses itself only if an array of the root type bears it. -/
theorem labels_apart (hs : schema.Built) (h : CompiledTo schema d table q c) :
    (c.statement.joins.Pairwise fun j k => Text.sameIgnoringCase j.label k.label = false) ∧
      ∀ j ∈ c.statement.joins, ∀ name ∈ d.ownNames, Text.sameIgnoringCase j.label name = true →
        ∃ t f typeName, schema.rootType? = some t ∧ f ∈ t.fields ∧ f.name = j.label ∧
          f.type = .array (.object typeName) := by
  constructor
  · have hnodup : (c.statement.joins.map (·.label)).Nodup := by
      obtain ⟨shape, given, page, t, keys, -, rfl⟩ := h.request
      exact requestJoins_nodup t keys
    apply (List.pairwise_map.mp hnodup).imp_of_mem
    intro j k hj hk hne
    cases hsame : Text.sameIgnoringCase j.label k.label with
    | false => rfl
    | true => exact absurd (h.label_eq hs hj hk hsame) hne
  · intro j hj name hname
    exact h.root_array hs hj (d.ownNames_identifier name hname)

/-- Comments and their replies are joined under labels of their own. -/
theorem liveliest_apart : ∃ c, select discussion .sqlserver blogPosts (some liveliest) byRating .all = .ok c ∧
    c.statement.joins.map (·.label) = ["Comments", "Comments.Replies"] ∧
    c.statement.joins.Pairwise fun j k => Text.sameIgnoringCase j.label k.label = false := by
  have hc := select_of_bound (by rfl : boundRequest discussion (some liveliest) byRating.keys = .ok _)
    .sqlserver blogPosts .all
  exact ⟨_, hc, by rfl, (labels_apart discussion_built (.inl ⟨byRating, .all, hc⟩)).1⟩

/-! ## An array with the name of the table's alias -/

/-- Posts with notes under the name that the statement has for the table. -/
def docPosts : Schema :=
  ⟨"Post", [⟨"Note", [⟨"Text", .scalar .string⟩]⟩, ⟨"Post", [⟨tableAlias, .array (.object "Note")⟩]⟩]⟩

def noteIs (content : String) : Query := .unary "_doc.Text" (.comparison .equalTo) (.text content)

/-- The notes are joined under the alias of the table. -/
theorem docPost_clash : docPosts.Built ∧
    ∃ c, select docPosts .postgres ⟨"Post", none⟩ (some (noteIs "a")) .none .all = .ok c ∧
    ∃ j ∈ c.statement.joins, ∃ name ∈ Dialect.postgres.ownNames, Text.sameIgnoringCase j.label name = true := by
  have hc := select_of_bound (by rfl : boundRequest docPosts (some (noteIs "a")) Sorting.none.keys = .ok _)
    .postgres ⟨"Post", none⟩ .all
  refine ⟨⟨"Post", docPosts.types, by decide +kernel⟩, _, hc, ?_⟩
  exact ⟨⟨tableAlias, ⟨.document, [tableAlias]⟩, false⟩, List.mem_singleton.mpr (by rfl), tableAlias,
    List.mem_singleton.mpr rfl, Text.sameIgnoringCase_refl _⟩

end Statement

end DocQuery
