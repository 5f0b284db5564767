/-
  DocQuery.Proofs.Statement.Acceptance — which requests compile, and what the others are refused for.

  A request is a query and sort keys. Each leaf and each key is well typed or has one offence,
  whatever stands beside it (`refusal_bound`, `refusal_boundKey`). A request compiles when all of
  them are well typed; otherwise the first offence from left to right, the query's before the
  keys', decides the error, and only the name of the dialect in it depends on the dialect
  (`select_accepts`). The name of the identity is reserved: a declared field of that name cannot
  be asked for (`reserved_array_refused`).
-/

import DocQuery.Proofs.Outcome
import DocQuery.Proofs.Path.Resolution
import DocQuery.Proofs.Statement.Leaf

namespace DocQuery

open DocQuery.Path Statement

/-! ## Ends of paths -/

theorem Path.Declared.classified {s : Schema} {type : FieldType} {nodes : List Node} (h : Declared s type nodes) :
    ∀ n ∈ nodes, ∃ t, classify t = some (n.kind, n.element) := by
  induction nodes generalizing type with
  | nil => intro n hn; cases hn
  | cons m rest ih =>
    obtain ⟨f, -, hc, hrest⟩ := h
    intro n hn
    rcases List.mem_cons.mp hn with rfl | hn
    · exact ⟨f.type, hc⟩
    · exact ih hrest n hn

/-- A path ends on a scalar, on an array of scalars or on an object. -/
theorem Path.terminal_cases {s : Schema} {path : String} {r : ResolvedPath} (h : resolve s path = .ok r) :
    (r.terminal.kind = .scalar ∧ ∃ t, r.terminal.element = .scalar t) ∨
    (r.terminal.kind = .valueArray ∧ ∃ t, r.terminal.element = .scalar t) ∨
    (r.terminal.kind = .object ∧ ∃ name, r.terminal.element = .object name) := by
  obtain ⟨hd, hk⟩ := resolve_declared h
  obtain ⟨t, ht⟩ := hd.classified r.terminal (by simp [ResolvedPath.nodes])
  obtain ⟨-, hscalar, hvalues, hobject, -⟩ := classify_element ht
  cases hkind : r.terminal.kind with
  | scalar => exact Or.inl ⟨rfl, hscalar hkind⟩
  | object => exact Or.inr (Or.inr ⟨rfl, hobject hkind⟩)
  | valueArray => exact Or.inr (Or.inl ⟨rfl, hvalues hkind⟩)
  | objectArray => exact absurd hkind hk

namespace Statement

/-! ## Well-typed requests -/

/-- What the path of a field ends on, if it leads anywhere. -/
def endsOn? (schema : Schema) (field : String) : Option Kind :=
  (Path.resolve schema (Text.trim field)).toOption.map (·.terminal.kind)

/-- What an operator's field has to end on. -/
def operand (op : Operator) : Kind := if op.isMembership then .valueArray else .scalar

/-- The leaf asks something that its field can answer. -/
def WellTyped (schema : Schema) (leaf : Query.Leaf) : Prop :=
  Text.allBlank leaf.field = false ∧
  match leaf.test with
  | .null _ => Text.trim leaf.field = identityField ∨ (endsOn? schema leaf.field).isSome
  | .unary op v => v.isNull = false ∧
      if Text.trim leaf.field = identityField then op.isMembership = false
      else endsOn? schema leaf.field = some (operand op)

/-- The key's field is the identity or a scalar. -/
def WellTypedKey (schema : Schema) (k : SortKey) : Prop :=
  Text.allBlank k.field = false ∧ (Text.trim k.field = identityField ∨ endsOn? schema k.field = some .scalar)

/-! ## Offences -/

/-- A path that ends on something else than is wanted. Where a scalar is wanted an object has no cast. -/
def kindOffence? (operator field : String) (wanted : Kind) (r : ResolvedPath) : Option Offence :=
  if r.terminal.kind = wanted then none
  else if wanted = .scalar ∧ r.terminal.kind = .object then some (.uncastable field "object")
  else some (.unsupported operator field)

/-- The first thing wrong with a leaf: its field's name, its value, its path, what it asks. -/
def offence? (schema : Schema) (leaf : Query.Leaf) : Option Offence :=
  let field := Text.trim leaf.field
  if Text.allBlank leaf.field then some .blankField
  else match leaf.test, target? schema leaf.field with
    | .null _, .ok _ => none
    | .null _, .error e => some (.unresolved e)
    | .unary op v, target =>
      if v.isNull then some (.nullValue op field)
      else match target with
        | .error e => some (.unresolved e)
        | .ok .identity => if op.isMembership then some (.unsupported op.name field) else none
        | .ok (.path r) => kindOffence? op.name field (operand op) r

def keyOffence? (schema : Schema) (k : SortKey) : Option Offence :=
  if Text.allBlank k.field then some .blankField
  else match target? schema k.field with
    | .error e => some (.unresolved e)
    | .ok .identity => none
    | .ok (.path r) => kindOffence? "ORDER BY" (Text.trim k.field) .scalar r

/-- The first offence of a request, from left to right and the query before the keys. -/
def firstOffence? (schema : Schema) (q : Option Query) (keys : List SortKey) : Option Offence :=
  ((q.elim [] Query.leaves).findSome? (offence? schema)).or (keys.findSome? (keyOffence? schema))

/-- What an outcome is refused for. -/
def refusal {α : Type} : Except Offence α → Option Offence
  | .ok _ => none
  | .error o => some o

@[simp] theorem refusal_map {α β : Type} (f : α → β) (x : Except Offence α) : refusal (x.map f) = refusal x := by
  cases x <;> rfl

theorem refusal_bind {α β : Type} (x : Except Offence α) (f : α → Except Offence β) (o : Option Offence)
    (h : ∀ a, x = .ok a → refusal (f a) = o) : refusal (x.bind f) = (refusal x).or o := by
  cases x with
  | error e => rfl
  | ok a => exact h a rfl

/-! ## Each leaf and key on its own -/

theorem refusal_boundPath {schema : Schema} {path : String} {r : ResolvedPath} (hr : Path.resolve schema path = .ok r)
    (field : String) (op : Operator) (v : Value) :
    refusal (boundPath field op v r) = kindOffence? op.name field (operand op) r := by
  rcases Path.terminal_cases hr with ⟨hk, t, he⟩ | ⟨hk, t, he⟩ | ⟨hk, name, he⟩ <;> cases op <;>
    simp [boundPath, kindOffence?, operand, Operator.isMembership, Operator.name, scalar?, Element.text, Except.map,
      refusal, hk, he]

theorem refusal_bound (schema : Schema) (leaf : Query.Leaf) :
    refusal (bound schema leaf) = offence? schema leaf := by
  unfold bound offence?
  by_cases hb : Text.allBlank leaf.field = true
  · simp only [hb, if_true]; rfl
  simp only [hb, Bool.false_eq_true, if_false]
  cases leaf.test with
  | null negated => cases target? schema leaf.field <;> rfl
  | unary op v =>
    by_cases hn : v.isNull = true
    · simp only [hn, if_true]; rfl
    simp only [hn, Bool.false_eq_true, if_false]
    cases ht : target? schema leaf.field with
    | error e => rfl
    | ok target =>
      cases target with
      | identity => cases op <;> rfl
      | path r => exact refusal_boundPath (target?_path ht) (Text.trim leaf.field) op v

theorem refusal_boundKey (schema : Schema) (k : SortKey) : refusal (boundKey schema k) = keyOffence? schema k := by
  unfold boundKey keyOffence?
  by_cases hb : Text.allBlank k.field = true
  · simp only [hb, if_true]; rfl
  simp only [hb, Bool.false_eq_true, if_false]
  cases ht : target? schema k.field with
  | error e => rfl
  | ok target =>
    cases target with
    | identity => rfl
    | path r =>
      rcases Path.terminal_cases (target?_path ht) with ⟨hk, t, he⟩ | ⟨hk, t, he⟩ | ⟨hk, name, he⟩ <;>
        simp [Except.bind, Except.map, boundKeyTarget, kindOffence?, scalar?, Element.text,
          refusal, hk, he]

/-! ## Whole requests -/

theorem refusal_boundTree (schema : Schema) (q : Query) :
    refusal (boundTree schema q) = q.leaves.findSome? (offence? schema) := by
  have one : ∀ leaf, refusal ((bound schema leaf).map BoundTree.leaf) = [leaf].findSome? (offence? schema) := by
    intro leaf
    rw [refusal_map, refusal_bound]
    cases h : offence? schema leaf <;> simp [h]
  induction q with
  | unary field op v => exact one ⟨field, .unary op v⟩
  | isNull field => exact one ⟨field, .null false⟩
  | isNotNull field => exact one ⟨field, .null true⟩
  | binary c left right ihl ihr =>
    simp only [boundTree, Query.leaves, List.findSome?_append]
    rw [refusal_bind _ _ (right.leaves.findSome? (offence? schema)) fun l _ => by rw [refusal_map, ihr], ihl]

theorem refusal_boundKeys (schema : Schema) (keys : List SortKey) :
    refusal (boundKeys schema keys) = keys.findSome? (keyOffence? schema) := by
  induction keys with
  | nil => rfl
  | cons k rest ih =>
    simp only [boundKeys]
    rw [refusal_bind _ _ (rest.findSome? (keyOffence? schema)) fun b _ => by rw [refusal_map, ih], refusal_boundKey]
    cases h : keyOffence? schema k <;> simp [h]

theorem refusal_boundRequest (schema : Schema) (q : Option Query) (keys : List SortKey) :
    refusal (boundRequest schema q keys) = firstOffence? schema q keys := by
  cases q with
  | none => simp [boundRequest, firstOffence?, refusal_boundKeys]
  | some q =>
    simp only [boundRequest, firstOffence?, Option.elim]
    rw [refusal_bind _ _ (keys.findSome? (keyOffence? schema)) fun t _ => by rw [refusal_map, refusal_boundKeys],
      refusal_boundTree]

theorem kindOffence?_eq_none {operator field : String} {wanted : Kind} {r : ResolvedPath} :
    kindOffence? operator field wanted r = none ↔ r.terminal.kind = wanted := by
  unfold kindOffence?
  by_cases h : r.terminal.kind = wanted
  · simp [h]
  · simp only [h, if_false, iff_false]; split <;> simp

theorem endsOn?_ok {schema : Schema} {field : String} {r : ResolvedPath}
    (h : Path.resolve schema (Text.trim field) = .ok r) : endsOn? schema field = some r.terminal.kind := by
  simp [endsOn?, h, Except.toOption]

theorem endsOn?_error {schema : Schema} {field : String} {e : Error}
    (h : Path.resolve schema (Text.trim field) = .error e) : endsOn? schema field = none := by
  simp [endsOn?, h, Except.toOption]

/-- A leaf is well typed when nothing is wrong with it. -/
theorem offence?_eq_none {schema : Schema} {leaf : Query.Leaf} :
    offence? schema leaf = none ↔ WellTyped schema leaf := by
  unfold offence? WellTyped target?
  by_cases hb : Text.allBlank leaf.field = true
  · simp [hb]
  by_cases hid : Text.trim leaf.field = identityField
  · cases leaf.test with
    | null negated => simp [hb, hid]
    | unary op v => by_cases hn : v.isNull = true <;> simp [hb, hid, hn]
  · cases hr : Path.resolve schema (Text.trim leaf.field) with
    | error e =>
      cases leaf.test with
      | null negated => simp [hb, hid, Except.map, endsOn?_error hr]
      | unary op v => by_cases hn : v.isNull = true <;> simp [hb, hid, hn, Except.map, endsOn?_error hr]
    | ok r =>
      cases leaf.test with
      | null negated => simp [hb, hid, Except.map, endsOn?_ok hr]
      | unary op v =>
        by_cases hn : v.isNull = true
        · simp [hb, hn]
        · simp [hb, hid, hn, Except.map, endsOn?_ok hr, kindOffence?_eq_none]

theorem keyOffence?_eq_none {schema : Schema} {k : SortKey} : keyOffence? schema k = none ↔ WellTypedKey schema k := by
  unfold keyOffence? WellTypedKey target?
  by_cases hb : Text.allBlank k.field = true
  · simp [hb]
  by_cases hid : Text.trim k.field = identityField
  · simp [hb, hid]
  · cases hr : Path.resolve schema (Text.trim k.field) with
    | error e => simp [hb, hid, Except.map, endsOn?_error hr]
    | ok r => simp [hb, hid, Except.map, endsOn?_ok hr, kindOffence?_eq_none]

theorem firstOffence?_eq_none {schema : Schema} {q : Option Query} {keys : List SortKey} :
    firstOffence? schema q keys = none ↔
      (∀ leaf ∈ q.elim [] Query.leaves, WellTyped schema leaf) ∧ ∀ k ∈ keys, WellTypedKey schema k := by
  simp only [firstOffence?, Option.or_eq_none_iff, List.findSome?_eq_none_iff, offence?_eq_none, keyOffence?_eq_none]

/-! ## Dialects -/

end Statement

/-- The error as another dialect would report it. -/
def Error.inDialect (dialect : Dialect) : Error → Error
  | .fieldType field typeName _ => .fieldType field typeName dialect.name
  | e => e

/-- What paths are refused for: a name that is not found, an array of objects at the end, a field that cannot be
walked. -/
inductive Path.Refused : Error → Prop
  | pathNotFound (path typeName : String) : Refused (.pathNotFound path typeName)
  | arrayTerminal (path : String) : Refused (.arrayTerminal path)
  | untraversable (field type : String) : Refused (.schema (.untraversable field type))

theorem Path.step_refused {s : Schema} {path : String} {place : Place} {segment : List Char} {e : Error}
    (h : step s path place segment = .error e) : Refused e := by
  unfold step at h
  repeat' split at h
  all_goals cases h <;> constructor

theorem Path.walk_refused {s : Schema} {path : String} {place : Place} {segments : List (List Char)} {e : Error}
    (h : walk s path place segments = .error e) : Refused e := by
  induction segments generalizing place with
  | nil => cases h
  | cons segment rest ih =>
    rcases Except.bind_eq_error.mp h with hstep | ⟨out, -, h⟩
    · exact step_refused hstep
    · rcases Except.bind_eq_error.mp h with hrest | ⟨nodes, -, h⟩
      · exact ih hrest
      · cases h

theorem Path.resolve_refused {s : Schema} {path : String} {e : Error} (h : resolve s path = .error e) :
    Refused e := by
  simp only [resolve, bind, Except.bind] at h
  by_cases hempty : (Text.trimChars path.toList).isEmpty = true
  · simp only [hempty, if_true] at h
    cases h
    exact .pathNotFound path s.root
  simp only [hempty, Bool.false_eq_true, if_false] at h
  cases hw : walk s path (origin s) (pieces (Text.trimChars path.toList)) with
  | error e' =>
    rw [hw] at h
    cases h
    exact walk_refused hw
  | ok nodes =>
    simp only [hw] at h
    repeat' split at h
    all_goals cases h <;> constructor

/-- A path is refused in the same way for every dialect. -/
theorem Path.Refused.inDialect {e : Error} (h : Refused e) (dialect : Dialect) : e.inDialect dialect = e := by
  cases h <;> rfl

namespace Statement

theorem target?_refused {schema : Schema} {field : String} {e : Error} (h : target? schema field = .error e) :
    Path.Refused e := by
  unfold target? at h
  split_ifs at h
  exact Path.resolve_refused (Except.map_eq_error.mp h)

/-- What is unresolved in an offence is a path. -/
def Offence.OfPath (o : Offence) : Prop := ∀ e, o = .unresolved e → Path.Refused e

theorem Offence.OfPath.inDialect {o : Offence} (h : o.OfPath) (d d' : Dialect) :
    (o.error d).inDialect d' = o.error d' := by
  cases o with
  | unresolved e => exact (h e rfl).inDialect d'
  | _ => rfl

theorem kindOffence?_ofPath {operator field : String} {wanted : Kind} {r : ResolvedPath} {o : Offence}
    (h : kindOffence? operator field wanted r = some o) : o.OfPath := by
  unfold kindOffence? at h
  split_ifs at h
  all_goals cases h; exact nofun

theorem offence?_ofPath {schema : Schema} {leaf : Query.Leaf} {o : Offence} (h : offence? schema leaf = some o) :
    o.OfPath := by
  have hpath : ∀ {e}, target? schema leaf.field = .error e → (Offence.unresolved e).OfPath := by
    rintro e ht _ ⟨⟩
    exact target?_refused ht
  simp only [offence?] at h
  split at h
  · cases h
    exact nofun
  split at h
  · cases h
  · rename_i ht
    cases h
    exact hpath ht
  · split at h
    · cases h
      exact nofun
    split at h
    · rename_i ht
      cases h
      exact hpath ht
    · split_ifs at h
      cases h
      exact nofun
    · exact kindOffence?_ofPath h

theorem keyOffence?_ofPath {schema : Schema} {k : SortKey} {o : Offence} (h : keyOffence? schema k = some o) :
    o.OfPath := by
  unfold keyOffence? at h
  split at h
  · cases h
    exact nofun
  split at h
  · rename_i ht
    cases h
    rintro _ ⟨⟩
    exact target?_refused ht
  · cases h
  · exact kindOffence?_ofPath h

theorem firstOffence?_ofPath {schema : Schema} {q : Option Query} {keys : List SortKey} {o : Offence}
    (h : firstOffence? schema q keys = some o) : o.OfPath := by
  rcases Option.or_eq_some_iff.mp h with h | ⟨-, h⟩
  · obtain ⟨leaf, -, hl⟩ := List.exists_of_findSome?_eq_some h
    exact offence?_ofPath hl
  · obtain ⟨k, -, hk⟩ := List.exists_of_findSome?_eq_some h
    exact keyOffence?_ofPath hk

/-! ## Acceptance -/

theorem select_ok_iff {schema : Schema} {dialect : Dialect} {table : Table} {q : Option Query} {sorting : Sorting}
    {page : Page} : (∃ c, select schema dialect table q sorting page = .ok c) ↔
      firstOffence? schema q sorting.keys = none := by
  rw [select_eq, ← refusal_boundRequest]
  cases boundRequest schema q sorting.keys <;> simp [reported, Except.map, Except.mapError, refusal]

theorem select_error_iff {schema : Schema} {dialect : Dialect} {table : Table} {q : Option Query}
    {sorting : Sorting} {page : Page} {e : Error} : select schema dialect table q sorting page = .error e ↔
      ∃ o, firstOffence? schema q sorting.keys = some o ∧ o.error dialect = e := by
  rw [select_eq, ← refusal_boundRequest]
  cases boundRequest schema q sorting.keys <;> simp [reported, Except.map, Except.mapError, refusal]

/-- A request compiles exactly when its leaves and sort keys are well typed. Otherwise its first
offence is reported, by every dialect alike but for the dialect's own name. -/
theorem select_accepts (schema : Schema) (table : Table) (q : Option Query) (sorting : Sorting) (page : Page) :
    (∀ dialect, (∃ c, select schema dialect table q sorting page = .ok c) ↔
      (∀ leaf ∈ q.elim [] Query.leaves, WellTyped schema leaf) ∧ ∀ k ∈ sorting.keys, WellTypedKey schema k) ∧
    (∀ dialect e, select schema dialect table q sorting page = .error e ↔
      ∃ o, firstOffence? schema q sorting.keys = some o ∧ o.error dialect = e) ∧
    (∀ d d' e, select schema d table q sorting page = .error e →
      select schema d' table q sorting page = .error (e.inDialect d')) := by
  refine ⟨fun dialect => select_ok_iff.trans firstOffence?_eq_none, fun dialect e => select_error_iff, ?_⟩
  intro d d' e h
  obtain ⟨o, ho, rfl⟩ := select_error_iff.mp h
  exact select_error_iff.mpr ⟨o, ho, ((firstOffence?_ofPath ho).inDialect d d').symm⟩

/-! ## The reserved name -/

/-- Documents with an array of texts under the identity's name. -/
def reservedArray : Schema := ⟨"Post", [⟨"Post", [⟨identityField, .array (.scalar .string)⟩]⟩]⟩

/-- A declared array of values under the identity's name resolves, yet no dialect lets a leaf ask
for its members: the name means the identity. -/
theorem reserved_array_refused : reservedArray.Built ∧ endsOn? reservedArray identityField = some .valueArray ∧
    ∀ dialect table page, select reservedArray dialect table
      (some (.unary identityField .contains (.text "a"))) .none page =
        .error (.operator "Contains" identityField) := by
  refine ⟨⟨"Post", reservedArray.types, by decide +kernel⟩, by decide +kernel, fun dialect table page => ?_⟩
  exact select_error_iff.mpr ⟨.unsupported "Contains" identityField, by decide +kernel, rfl⟩

end Statement

end DocQuery
