/-
  DocQuery.Proofs.Statement.Reading — the text of a condition is read back in one way.

  A leaf's text is its subject and what is asked of it, or a parameter and the set it is looked
  for in. The text gives back the leaf without its value (`leaf_cut`), whatever follows. A leaf
  that starts with a bracket is a cast and goes on otherwise than a bracketed condition
  (`leaf_ne_bracket`), so the text gives back the whole tree (`tree_cut`).
-/

import DocQuery.Proofs.Dialect.Reading
import DocQuery.Proofs.Statement.Leaf

namespace DocQuery

open DocQuery.Path Statement Text

namespace Statement

/-! ## Leaves without values -/

namespace Bound

/-- The leaf without the value it compares with. -/
def bare : Bound → Bound
  | identityNull negated => identityNull negated
  | identityCompare c _ => identityCompare c .null
  | isNull negated r => isNull negated r
  | compare c r type _ => compare c r type .null
  | member negated r type _ => member negated r type .null

def type? : Bound → Option Scalar
  | compare _ _ type _ => some type
  | member _ _ type _ => some type
  | _ => none

@[simp] theorem bare_condition (b : Bound) (n : Nat) : b.bare.condition n = b.condition n := by cases b <;> rfl

@[simp] theorem bare_path? (b : Bound) : b.bare.path? = b.path? := by cases b <;> rfl

@[simp] theorem bare_values (b : Bound) : b.bare.value?.toList.length = b.value?.toList.length := by cases b <;> rfl

/-- The leaf's path is resolved, and its type is that of the path. -/
structure Sound (schema : Schema) (b : Bound) : Prop where
  resolved : ∀ r, b.path? = some r → ∃ path, resolve schema path = .ok r
  typed : ∀ r type, b.path? = some r → b.type? = some type → r.terminal.element = .scalar type

end Bound

theorem boundIdentity_ok {field : String} {op : Operator} {v : Value} {b : Bound}
    (h : boundIdentity field op v = .ok b) : ∃ c, op = .comparison c ∧ b = .identityCompare c (asGuid v) := by
  cases op with
  | comparison c => cases h; exact ⟨c, rfl, rfl⟩
  | contains => cases h
  | notContains => cases h

theorem boundPath_ok {field : String} {op : Operator} {v : Value} {r : ResolvedPath} {b : Bound}
    (h : boundPath field op v r = .ok b) : ∃ type, r.terminal.element = .scalar type ∧
      ((∃ c, op = .comparison c ∧ b = .compare c r type (coerce v type)) ∨
       (op.isMembership = true ∧ r.terminal.kind = .valueArray ∧
        b = .member (op == .notContains) r type (coerce v type))) := by
  unfold boundPath scalar? at h
  cases he : r.terminal.element with
  | object name =>
    rw [he] at h
    split at h <;> split at h <;> cases h
  | scalar type =>
    rw [he] at h
    refine ⟨type, rfl, ?_⟩
    split at h
    · split at h <;> cases h
      exact Or.inl ⟨_, rfl, rfl⟩
    · split at h
      · cases h
      · rename_i hop hk
        cases h
        refine Or.inr ⟨?_, by simpa using hk, rfl⟩
        cases op with
        | comparison c => exact absurd rfl (hop c)
        | contains => rfl
        | notContains => rfl

/-- A bound leaf's target, and what the leaf makes of it. -/
theorem bound_ok {schema : Schema} {leaf : Query.Leaf} {b : Bound} (h : bound schema leaf = .ok b) :
    ∃ target, target? schema leaf.field = .ok target ∧
      match leaf.test with
      | .null negated => b = boundNull negated target
      | .unary op v => v.isNull = false ∧ boundUnary (Text.trim leaf.field) op v target = .ok b := by
  unfold bound at h
  by_cases hb : Text.allBlank leaf.field = true
  · simp only [hb, if_true] at h; cases h
  simp only [hb, Bool.false_eq_true, if_false] at h
  cases htest : leaf.test with
  | null negated =>
    rw [htest] at h
    obtain ⟨target, ht, rfl⟩ := Except.map_eq_ok.mp h
    exact ⟨target, Except.mapError_eq_ok.mp ht, rfl⟩
  | unary op v =>
    rw [htest] at h
    by_cases hn : v.isNull = true
    · simp only [hn, if_true] at h; cases h
    · simp only [hn, Bool.false_eq_true, if_false] at h
      obtain ⟨target, ht, hu⟩ := Except.bind_eq_ok.mp h
      exact ⟨target, Except.mapError_eq_ok.mp ht, by simpa using hn, hu⟩

theorem bound_sound {schema : Schema} {leaf : Query.Leaf} {b : Bound} (h : bound schema leaf = .ok b) :
    b.Sound schema := by
  obtain ⟨target, ht, hrest⟩ := bound_ok h
  cases target with
  | identity =>
    cases htest : leaf.test with
    | null negated =>
      rw [htest] at hrest; subst hrest
      exact ⟨fun _ hr => (nomatch hr), fun _ _ hr => (nomatch hr)⟩
    | unary op v =>
      rw [htest] at hrest
      obtain ⟨c, -, rfl⟩ := boundIdentity_ok hrest.2
      exact ⟨fun _ hr => (nomatch hr), fun _ _ hr => (nomatch hr)⟩
  | path r =>
    have hr := target?_path ht
    cases htest : leaf.test with
    | null negated =>
      rw [htest] at hrest; subst hrest
      exact ⟨fun r' e => (Option.some.inj e) ▸ ⟨_, hr⟩, fun r' type _ e => nomatch e⟩
    | unary op v =>
      rw [htest] at hrest
      obtain ⟨type, he, ⟨c, -, rfl⟩ | ⟨-, -, rfl⟩⟩ := boundPath_ok hrest.2
      · exact ⟨fun r' e => (Option.some.inj e) ▸ ⟨_, hr⟩,
          fun r' type' e e' => (Option.some.inj e) ▸ (Option.some.inj e') ▸ he⟩
      · exact ⟨fun r' e => (Option.some.inj e) ▸ ⟨_, hr⟩,
          fun r' type' e e' => (Option.some.inj e) ▸ (Option.some.inj e') ▸ he⟩

/-- The paths are paths of the schema. -/
def AllResolved (schema : Schema) (paths : List ResolvedPath) : Prop := ∀ r ∈ paths, ∃ path, resolve schema path = .ok r

/-! ## Trees without values -/

namespace BoundTree

def bare : BoundTree → BoundTree
  | leaf b => leaf b.bare
  | binary c left right => binary c left.bare right.bare

def bounds : BoundTree → List Bound
  | leaf b => [b]
  | binary _ left right => left.bounds ++ right.bounds

def Sound (schema : Schema) (t : BoundTree) : Prop := ∀ b ∈ t.bounds, b.Sound schema

@[simp] theorem bare_paths (t : BoundTree) : t.bare.paths = t.paths := by
  induction t with
  | leaf b => simp [bare, paths]
  | binary c left right ihl ihr => simp [bare, paths, ihl, ihr]

@[simp] theorem bare_values (t : BoundTree) : t.bare.values.length = t.values.length := by
  induction t with
  | leaf b => exact b.bare_values
  | binary c left right ihl ihr => simp [bare, values, ihl, ihr]

@[simp] theorem bare_condition (t : BoundTree) (n : Nat) : t.bare.condition n = t.condition n := by
  induction t generalizing n with
  | leaf b => exact b.bare_condition n
  | binary c left right ihl ihr => simp [bare, condition, ihl, ihr]

theorem Sound.left {schema : Schema} {c : Connective} {l r : BoundTree} (h : (binary c l r).Sound schema) :
    l.Sound schema := fun b hb => h b (List.mem_append_left _ hb)

theorem Sound.right {schema : Schema} {c : Connective} {l r : BoundTree} (h : (binary c l r).Sound schema) :
    r.Sound schema := fun b hb => h b (List.mem_append_right _ hb)

/-- The paths of a tree are those of its leaves. -/
theorem mem_paths {t : BoundTree} {r : ResolvedPath} : r ∈ t.paths ↔ ∃ b ∈ t.bounds, b.path? = some r := by
  induction t with
  | leaf b => simp [paths, bounds]
  | binary c left right ihl ihr => simp [paths, bounds, ihl, ihr, or_and_right, exists_or]

theorem Sound.resolved {schema : Schema} {t : BoundTree} (h : t.Sound schema) :
    AllResolved schema t.paths := by
  intro r hr
  obtain ⟨b, hb, hpath⟩ := mem_paths.mp hr
  exact (h b hb).resolved r hpath

end BoundTree

/-- A bound query's tree has the query's shape, one bound leaf for each leaf. -/
theorem boundTree_leaf {schema : Schema} {leaf : Query.Leaf} {t : BoundTree}
    (h : (bound schema leaf).map BoundTree.leaf = .ok t) : ∃ b, bound schema leaf = .ok b ∧ t = .leaf b := by
  obtain ⟨b, hb, rfl⟩ := Except.map_eq_ok.mp h
  exact ⟨b, hb, rfl⟩

theorem boundTree_binary {schema : Schema} {c : Connective} {l r : Query} {t : BoundTree}
    (h : boundTree schema (.binary c l r) = .ok t) :
    ∃ tl tr, boundTree schema l = .ok tl ∧ boundTree schema r = .ok tr ∧ t = .binary c tl tr := by
  obtain ⟨tl, hl, h⟩ := Except.bind_eq_ok.mp h
  obtain ⟨tr, hr, rfl⟩ := Except.map_eq_ok.mp h
  exact ⟨tl, tr, hl, hr, rfl⟩

theorem boundTree_sound {schema : Schema} {q : Query} {t : BoundTree} (h : boundTree schema q = .ok t) :
    t.Sound schema := by
  have one : ∀ {leaf : Query.Leaf} {t : BoundTree}, (bound schema leaf).map BoundTree.leaf = .ok t →
      t.Sound schema := by
    intro leaf t h b hb
    obtain ⟨b', hl, rfl⟩ := boundTree_leaf h
    cases List.mem_singleton.mp hb
    exact bound_sound hl
  induction q generalizing t with
  | unary field op v => exact one h
  | isNull field => exact one h
  | isNotNull field => exact one h
  | binary c left right ihl ihr =>
    obtain ⟨l, r, hl, hr, rfl⟩ := boundTree_binary h
    intro b hb
    rcases List.mem_append.mp hb with hb | hb
    · exact ihl hl b hb
    · exact ihr hr b hb

/-! ## Texts of leaves -/

/-- What a leaf that is no membership test asks of its subject. -/
inductive Ask where
  | null (negated : Bool)
  | compare (c : Comparison)
  deriving DecidableEq

namespace Ask

def all : List Ask :=
  [.null false, .null true, .compare .equalTo, .compare .notEqualTo, .compare .greaterThan,
   .compare .greaterOrEqualTo, .compare .lessThan, .compare .lessOrEqualTo]

theorem mem_all (a : Ask) : a ∈ all := by
  cases a with
  | null negated => cases negated <;> decide
  | compare c => cases c <;> decide

/-- The text before the parameter, if there is one. -/
def lead : Ask → String
  | null negated => nullTest negated
  | compare c => c.symbol ++ " "

def parameter (d : Dialect) (n : Nat) : Ask → String
  | null _ => ""
  | compare _ => d.placeholder (n + 1)

theorem lead_clash (a a' : Ask) : a = a' ∨ Clash a.lead.toList a'.lead.toList := by
  have check : ∀ a ∈ all, ∀ a' ∈ all, a = a' ∨ Clash a.lead.toList a'.lead.toList := by decide +kernel
  exact check a (mem_all a) a' (mem_all a')

/-- What is asked, as the text shows it. -/
theorem cut (d : Dialect) (n : Nat) {a a' : Ask} {x y : List Char}
    (h : (a.lead ++ a.parameter d n).toList ++ x = (a'.lead ++ a'.parameter d n).toList ++ y) : a = a' ∧ x = y := by
  simp only [String.toList_append, List.append_assoc] at h
  rcases lead_clash a a' with rfl | hc
  · exact ⟨rfl, List.append_cancel_left (List.append_cancel_left h)⟩
  · exact absurd h hc.append_ne

end Ask

/-- The identity, or a value as a type. -/
def subjectText (d : Dialect) : Option (Location × Scalar) → String
  | none => identityColumn
  | some (l, type) => l.typedText d type

/-- The subject of a leaf and what is asked of it. A null test reads its subject without a cast, as
texts are read. -/
def Bound.ask? : Bound → Option (Option (Location × Scalar) × Ask)
  | identityNull negated => some (none, .null negated)
  | identityCompare c _ => some (none, .compare c)
  | isNull negated r => some (some (r.place, .string), .null negated)
  | compare c r type _ => some (some (r.place, type), .compare c)
  | member _ _ _ _ => none

theorem ask?_text {b : Bound} {subject : Option (Location × Scalar)} {ask : Ask} (h : b.ask? = some (subject, ask))
    (d : Dialect) (n : Nat) :
    (b.condition n).text d = subjectText d subject ++ " " ++ (ask.lead ++ ask.parameter d n) := by
  cases b with
  | identityNull negated =>
    cases h
    show identityColumn ++ " " ++ nullTest negated = identityColumn ++ " " ++ (nullTest negated ++ "")
    rw [String.append_empty]
  | identityCompare c v =>
    cases h
    show identityColumn ++ " " ++ c.symbol ++ " " ++ _ = identityColumn ++ " " ++ (c.symbol ++ " " ++ _)
    simp only [String.append_assoc]; rfl
  | isNull negated r =>
    cases h
    show r.place.text d ++ " " ++ nullTest negated = r.place.typedText d .string ++ " " ++ (nullTest negated ++ "")
    rw [String.append_empty]; rfl
  | compare c r type v =>
    cases h
    show r.place.typedText d type ++ " " ++ c.symbol ++ " " ++ _ =
      r.place.typedText d type ++ " " ++ (c.symbol ++ " " ++ _)
    simp only [String.append_assoc]; rfl
  | member negated r type v => cases h

/-- A leaf that is a membership test, or asks something. -/
theorem ask?_cases (b : Bound) : (∃ subject ask, b.ask? = some (subject, ask)) ∨
    ∃ negated r type v, b = .member negated r type v := by
  cases b with
  | member negated r type v => exact Or.inr ⟨negated, r, type, v, rfl⟩
  | _ => exact Or.inl ⟨_, _, rfl⟩

theorem member_text (negated : Bool) (r : ResolvedPath) (type : Scalar) (v : Value) (d : Dialect) (n : Nat) :
    ((Bound.member negated r type v).condition n).text d = d.placeholder (n + 1) ++ (" " ++ (memberTest negated ++
      (" (" ++ (d.valueSet (r.place.source.text d) r.place.path type ++ ")")))) := by
  show _ ++ " " ++ memberTest negated ++ " (" ++ _ ++ ")" = _
  simp only [String.append_assoc]

theorem subject_starts (d : Dialect) (s : Scalar) : ∀ a ∈ d.castStarts,
    Clash identityColumn.toList (d.castStart s a) ∧ Clash d.placeholderMark.toList (d.castStart s a) := by
  have check : ∀ d ∈ Dialect.all, ∀ s ∈ scalars, ∀ a ∈ d.castStarts, Clash identityColumn.toList (d.castStart s a) ∧
      Clash d.placeholderMark.toList (d.castStart s a) := by decide +kernel
  exact check d (Dialect.mem_all d) s (mem_scalars s)

/-- The subject's locations are well formed. -/
def PlainSubject (o : Option (Location × Scalar)) : Prop := ∀ l s, o = some (l, s) → l.Plain

/-- A subject is read back, its type only as far as its cast shows it. -/
theorem subject_cut (d : Dialect) {o o' : Option (Location × Scalar)} (ho : PlainSubject o) (ho' : PlainSubject o')
    {x y : List Char} (h : (subjectText d o).toList ++ x = (subjectText d o').toList ++ y) :
    o.map (·.1) = o'.map (·.1) ∧ x = y := by
  have clash : ∀ {l : Location} {s : Scalar} {x y : List Char}, l.Plain →
      (subjectText d none).toList ++ x ≠ (subjectText d (some (l, s))).toList ++ y := by
    intro l s x y hl e
    obtain ⟨a, ha, rest, hr⟩ := d.typedText_starts s hl
    rw [subjectText, subjectText, hr, List.append_assoc] at e
    exact (subject_starts d s a ha).1.append_ne e
  rcases o with _ | ⟨l, s⟩ <;> rcases o' with _ | ⟨l', s'⟩
  · exact ⟨rfl, List.append_cancel_left h⟩
  · exact absurd h (clash (ho' l' s' rfl))
  · exact absurd h.symm (clash (ho l s rfl))
  · obtain ⟨rfl, -, hxy⟩ := d.typedText_cut (ho l s rfl) (ho' l' s' rfl) h
    exact ⟨rfl, hxy⟩

/-- A parameter is no subject. -/
theorem placeholder_ne_subject (d : Dialect) (n : Nat) {o : Option (Location × Scalar)} (ho : PlainSubject o)
    {x y : List Char} : (d.placeholder n).toList ++ x ≠ (subjectText d o).toList ++ y := by
  intro e
  rw [Dialect.placeholder, String.toList_append, List.append_assoc] at e
  rcases o with _ | ⟨l, s⟩
  · have hc : Clash d.placeholderMark.toList identityColumn.toList := by cases d <;> decide
    exact hc.append_ne e
  · obtain ⟨a, ha, rest, hr⟩ := d.typedText_starts s (ho l s rfl)
    rw [subjectText, hr, List.append_assoc] at e
    exact (subject_starts d s a ha).2.append_ne e

variable {schema : Schema}

theorem Bound.Sound.plainSubject {b : Bound} (hs : schema.Built) (h : b.Sound schema)
    {o : Option (Location × Scalar)} {ask : Ask} (ha : b.ask? = some (o, ask)) : PlainSubject o := by
  intro l s e
  cases b with
  | isNull negated r =>
    cases ha; cases e
    obtain ⟨path, hr⟩ := h.resolved r rfl
    exact ResolvedPath.place_plain hs hr
  | compare c r type v =>
    cases ha; cases e
    obtain ⟨path, hr⟩ := h.resolved r rfl
    exact ResolvedPath.place_plain hs hr
  | _ => cases ha <;> cases e

/-- Sound leaves whose paths are read at one place have one path. -/
theorem Bound.Sound.path_eq {b b' : Bound} (hs : schema.Built) (h : b.Sound schema) (h' : b'.Sound schema)
    {r r' : ResolvedPath} (hr : b.path? = some r) (hr' : b'.path? = some r') (e : r.place = r'.place) : r = r' := by
  obtain ⟨path, hp⟩ := h.resolved r hr
  obtain ⟨path', hp'⟩ := h'.resolved r' hr'
  exact ResolvedPath.place_injective hs hp hp' e

theorem Bound.Sound.type_eq {b b' : Bound} (h : b.Sound schema) (h' : b'.Sound schema) {r : ResolvedPath}
    {s s' : Scalar} (hr : b.path? = some r) (hr' : b'.path? = some r) (hs : b.type? = some s)
    (hs' : b'.type? = some s') : s = s' :=
  Element.scalar.inj ((h.typed r s hr hs).symm.trans (h'.typed r s' hr' hs'))

/-- Two leaves that ask the same of one place are one leaf but for their values. -/
theorem bare_of_ask {b b' : Bound} (hs : schema.Built) (h : b.Sound schema) (h' : b'.Sound schema)
    {o o' : Option (Location × Scalar)} {ask : Ask} (ha : b.ask? = some (o, ask)) (ha' : b'.ask? = some (o', ask))
    (ho : o.map (·.1) = o'.map (·.1)) : b.bare = b'.bare := by
  cases b with
  | identityNull negated => cases ha; cases b' <;> cases ha' <;> first | rfl | cases ho
  | identityCompare c v => cases ha; cases b' <;> cases ha' <;> first | rfl | cases ho
  | isNull negated r =>
    cases ha
    cases b' <;> cases ha'
    · cases ho
    · obtain rfl := h.path_eq hs h' rfl rfl (Option.some.inj ho)
      rfl
  | compare c r type v =>
    cases ha
    cases b' <;> cases ha'
    · cases ho
    · obtain rfl := h.path_eq hs h' rfl rfl (Option.some.inj ho)
      obtain rfl := h.type_eq h' rfl rfl rfl rfl
      rfl
  | member negated r type v => cases ha

/-- Membership tests are read back. -/
theorem member_cut (hs : schema.Built) (d : Dialect) (n : Nat) {negated negated' : Bool} {r r' : ResolvedPath}
    {type type' : Scalar} {v v' : Value} (h : (Bound.member negated r type v).Sound schema)
    (h' : (Bound.member negated' r' type' v').Sound schema) {x y : List Char}
    (e : (((Bound.member negated r type v).condition n).text d).toList ++ x =
      (((Bound.member negated' r' type' v').condition n).text d).toList ++ y) :
    (Bound.member negated r type v).bare = (Bound.member negated' r' type' v').bare ∧ x = y := by
  simp only [member_text, String.toList_append, List.append_assoc] at e
  have hset := List.append_cancel_left (List.append_cancel_left e)
  have htest : negated = negated' ∨ Clash (memberTest negated).toList (memberTest negated').toList := by
    cases negated <;> cases negated' <;> decide
  rcases htest with rfl | hc
  · obtain ⟨path, hp⟩ := h.resolved r rfl
    obtain ⟨path', hp'⟩ := h'.resolved r' rfl
    have hvalues := List.append_cancel_left (List.append_cancel_left hset)
    obtain ⟨hplace, hxy⟩ := d.valueSet_cut (ResolvedPath.place_plain hs hp) (ResolvedPath.place_plain hs hp') hvalues
    obtain rfl := h.path_eq hs h' rfl rfl hplace
    obtain rfl := h.type_eq h' rfl rfl rfl rfl
    exact ⟨rfl, List.append_cancel_left hxy⟩
  · exact absurd hset hc.append_ne

/-- A leaf's text, whatever follows it, gives the leaf back but for its value. -/
theorem leaf_cut (hs : schema.Built) (d : Dialect) (n : Nat) {b b' : Bound} (h : b.Sound schema) (h' : b'.Sound schema)
    {x y : List Char} (e : ((b.condition n).text d).toList ++ x = ((b'.condition n).text d).toList ++ y) :
    b.bare = b'.bare ∧ x = y := by
  rcases ask?_cases b with ⟨o, ask, ha⟩ | ⟨negated, r, type, v, rfl⟩
  · rcases ask?_cases b' with ⟨o', ask', ha'⟩ | ⟨negated, r, type, v, rfl⟩
    · simp only [ask?_text ha, ask?_text ha'] at e
      rw [String.toList_append, String.toList_append, String.toList_append (s := subjectText d o' ++ " "),
        String.toList_append (s := subjectText d o')] at e
      simp only [List.append_assoc] at e
      obtain ⟨ho, hask⟩ := subject_cut d (h.plainSubject hs ha) (h'.plainSubject hs ha') e
      obtain ⟨rfl, hxy⟩ := Ask.cut d n (List.append_cancel_left hask)
      exact ⟨bare_of_ask hs h h' ha ha' ho, hxy⟩
    · rw [ask?_text ha, member_text] at e
      simp only [String.toList_append, List.append_assoc] at e
      exact absurd e.symm (placeholder_ne_subject d (n + 1) (h.plainSubject hs ha))
  · rcases ask?_cases b' with ⟨o', ask', ha'⟩ | ⟨negated', r', type', v', rfl⟩
    · rw [ask?_text ha', member_text] at e
      simp only [String.toList_append, List.append_assoc] at e
      exact absurd e (placeholder_ne_subject d (n + 1) (h'.plainSubject hs ha'))
    · exact member_cut hs d n h h' e

/-! ## Texts of trees -/

/-- The text of a tree with leaves on both sides of a connective. -/
theorem binary_text (c : Connective) (l r : BoundTree) (d : Dialect) (n : Nat) :
    (((BoundTree.binary c l r).condition n).text d).toList = '(' :: (((l.condition n).text d).toList ++
      ')' :: ((" " ++ c.keyword ++ " (").toList ++
        (((r.condition (n + l.values.length)).text d).toList ++ [')']))) := by
  show ("(" ++ _ ++ ") " ++ _ ++ " (" ++ _ ++ ")").toList = _
  simp

/-- A value's text followed by a bracket starts no condition. -/
theorem value_ne_condition (hs : schema.Built) (d : Dialect) (n : Nat) {l : Location} (hl : l.Plain) {t : BoundTree}
    (ht : t.Sound schema) {x y : List Char} :
    (l.text d).toList ++ ')' :: x ≠ ((t.condition n).text d).toList ++ y := by
  intro e
  -- A location's text is that of a value read as a text.
  have hplain : PlainSubject (some (l, .string)) := fun l' s' h => by cases h; exact hl
  change (subjectText d (some (l, .string))).toList ++ _ = _ at e
  cases t with
  | leaf b =>
    have hb := ht b (List.mem_singleton.mpr rfl)
    change _ = ((b.condition n).text d).toList ++ y at e
    rcases ask?_cases b with ⟨o, ask, ha⟩ | ⟨negated, r, type, v, rfl⟩
    · rw [ask?_text ha, String.toList_append, String.toList_append, List.append_assoc, List.append_assoc] at e
      obtain ⟨-, h⟩ := subject_cut d hplain (hb.plainSubject hs ha) e
      exact absurd (List.cons.inj h).1 (by decide)
    · rw [member_text, String.toList_append, List.append_assoc] at e
      exact placeholder_ne_subject d (n + 1) hplain e.symm
  | binary c left right =>
    obtain ⟨a, ha, rest, hr⟩ := d.typedText_starts .string hl
    rw [binary_text, subjectText, hr, List.append_assoc] at e
    rcases d.castOpen_bracket .string with ⟨h, -⟩ | hc
    · exact absurd h (by cases d <;> decide)
    · exact (hc a ha).append_ne (y := _ ++ y) e

/-- A leaf is not taken for a bracketed condition. -/
theorem leaf_ne_bracket (hs : schema.Built) (d : Dialect) (n : Nat) {b : Bound} (hb : b.Sound schema) {t : BoundTree}
    (ht : t.Sound schema) {x y : List Char} :
    ((b.condition n).text d).toList ++ x ≠ '(' :: (((t.condition n).text d).toList ++ y) := by
  intro e
  rcases ask?_cases b with ⟨o, ask, ha⟩ | ⟨negated, r, type, v, rfl⟩
  · have hplain := hb.plainSubject hs ha
    rw [ask?_text ha, String.toList_append, String.toList_append, List.append_assoc, List.append_assoc] at e
    rcases o with _ | ⟨l, s⟩
    · have hc : Clash identityColumn.toList ['('] := by decide
      exact hc.append_ne e
    · have hl := hplain l s rfl
      rcases d.castOpen_bracket s with ⟨hopen, hclose⟩ | hc
      · obtain ⟨more, hmore⟩ : ∃ more, (d.castClose s).toList = ')' :: more := List.head?_eq_some_iff.mp hclose
        simp only [subjectText, Location.typedText, Dialect.castScalar_eq, String.toList_append, hopen, hmore,
          List.append_assoc, List.cons_append] at e
        exact value_ne_condition hs d n hl ht (List.cons.inj e).2
      · obtain ⟨a, ha, rest, hr⟩ := d.typedText_starts s hl
        rw [subjectText, hr, List.append_assoc] at e
        exact (hc a ha).append_ne e
  · rw [member_text, String.toList_append, List.append_assoc, Dialect.placeholder, String.toList_append,
      List.append_assoc] at e
    have hc : Clash d.placeholderMark.toList ['('] := by cases d <;> decide
    exact hc.append_ne e

/-- A tree's text, whatever follows it, gives the tree back but for its values. -/
theorem tree_cut (hs : schema.Built) (d : Dialect) {t t' : BoundTree} (h : t.Sound schema) (h' : t'.Sound schema)
    (n : Nat) {x y : List Char}
    (e : ((t.condition n).text d).toList ++ x = ((t'.condition n).text d).toList ++ y) : t.bare = t'.bare ∧ x = y := by
  induction t generalizing t' n x y with
  | leaf b =>
    have hb := h b (List.mem_singleton.mpr rfl)
    cases t' with
    | leaf b' =>
      obtain ⟨hbare, hxy⟩ := leaf_cut hs d n hb (h' b' (List.mem_singleton.mpr rfl)) e
      exact ⟨congrArg BoundTree.leaf hbare, hxy⟩
    | binary c' l' r' =>
      rw [binary_text] at e
      simp only [List.cons_append, List.append_assoc] at e
      exact absurd e (leaf_ne_bracket hs d n hb h'.left)
  | binary c l r ihl ihr =>
    cases t' with
    | leaf b' =>
      rw [binary_text] at e
      simp only [List.cons_append, List.append_assoc] at e
      exact absurd e.symm (leaf_ne_bracket hs d n (h' b' (List.mem_singleton.mpr rfl)) h.left)
    | binary c' l' r' =>
      rw [binary_text, binary_text] at e
      simp only [List.cons_append, List.append_assoc, List.cons.injEq, true_and] at e
      obtain ⟨hl, hmore⟩ := ihl h.left h'.left n e
      have hkey := (List.cons.inj hmore).2
      have hc : c = c' ∨ Clash (" " ++ c.keyword ++ " (").toList (" " ++ c'.keyword ++ " (").toList := by
        cases c <;> cases c' <;> decide
      rcases hc with rfl | hc
      · -- The parameters of the right sides start at the same number.
        have hvalues : l.values.length = l'.values.length := by rw [← l.bare_values, hl, l'.bare_values]
        rw [hvalues] at hkey
        obtain ⟨hr, hxy⟩ := ihr h.right h'.right (n + l'.values.length) (List.append_cancel_left hkey)
        exact ⟨by rw [BoundTree.bare, BoundTree.bare, hl, hr], (List.cons.inj hxy).2⟩
      · exact absurd hkey hc.append_ne

end Statement

end DocQuery
