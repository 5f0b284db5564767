/-
  DocQuery.Proofs.Statement.Leaf — what a query compiles to, leaf by leaf.

  A leaf asks something of a field. Bound to a schema it has a meaning of its own, whatever
  joins and parameters its neighbours need: it reads the identity or a resolved path, and it
  compares with a value of the path's type. `compileQuery_eq` says that compiling a query is
  binding its leaves from left to right, and that the condition, the parameters and the joins are
  functions of what they are bound to. `orderKeys_eq` says the same of sort keys.
-/

import DocQuery.Proofs.Join.Growth
import DocQuery.Proofs.Outcome

namespace DocQuery

open DocQuery.Path Statement

/-! ## Leaves -/

/-- What a leaf asks of its field. -/
inductive Query.Test where
  | unary (op : Operator) (v : Value)
  | null (negated : Bool)

structure Query.Leaf where
  field : String
  test : Query.Test

/-- The leaves of a query, from left to right. -/
def Query.leaves : Query → List Query.Leaf
  | .unary field op v => [⟨field, .unary op v⟩]
  | .isNull field => [⟨field, .null false⟩]
  | .isNotNull field => [⟨field, .null true⟩]
  | .binary _ left right => left.leaves ++ right.leaves

namespace Statement

/-- What is wrong with a leaf or a sort key, for every dialect. -/
inductive Offence where
  | blankField
  | nullValue (op : Operator) (field : String)
  | unresolved (e : Error)
  | unsupported (operator field : String)
  | uncastable (field typeName : String)
  deriving DecidableEq

/-- The error a dialect reports an offence with; only a missing cast names the dialect. -/
def Offence.error (dialect : Dialect) : Offence → Error
  | .blankField => .query .blankField
  | .nullValue op field => .query (.nullValue op.name field)
  | .unresolved e => e
  | .unsupported operator field => .operator operator field
  | .uncastable field typeName => .fieldType field typeName dialect.name

/-- What a field names: the row's identity, or a path into the document. -/
inductive Target where
  | identity
  | path (r : ResolvedPath)
  deriving DecidableEq

def target? (schema : Schema) (field : String) : Except Error Target :=
  if Text.trim field == identityField then .ok .identity
  else (Path.resolve schema (Text.trim field)).map .path

theorem target?_path {schema : Schema} {field : String} {r : ResolvedPath}
    (h : target? schema field = .ok (.path r)) : Path.resolve schema (Text.trim field) = .ok r := by
  unfold target? at h
  split at h
  · cases h
  · obtain ⟨r', hr, e⟩ := Except.map_eq_ok.mp h
    cases e
    exact hr

/-- A leaf with its field resolved and its value given the field's type. -/
inductive Bound where
  | identityNull (negated : Bool)
  | identityCompare (c : Comparison) (v : Value)
  | isNull (negated : Bool) (r : ResolvedPath)
  | compare (c : Comparison) (r : ResolvedPath) (type : Scalar) (v : Value)
  | member (negated : Bool) (r : ResolvedPath) (type : Scalar) (v : Value)

namespace Bound

def path? : Bound → Option ResolvedPath
  | identityNull _ => none
  | identityCompare _ _ => none
  | isNull _ r => some r
  | compare _ r _ _ => some r
  | member _ r _ _ => some r

/-- The parameter a leaf binds. -/
def value? : Bound → Option Value
  | identityNull _ => none
  | identityCompare _ v => some v
  | isNull _ _ => none
  | compare _ _ _ v => some v
  | member _ _ _ v => some v

/-- The condition of a leaf whose parameter, if it has one, is the one after `n` others. -/
def condition (n : Nat) : Bound → Condition
  | identityNull negated => .identityNull negated
  | identityCompare c _ => .identityCompare c (n + 1)
  | isNull negated r => .isNull negated r.place
  | compare c r type _ => .compare c r.place type (n + 1)
  | member negated r type _ => .member negated r.place type (n + 1)

/-- A draft after the leaf: its path's arrays are joined and its value is a parameter. -/
def draft (b : Bound) (d : Draft) : Draft :=
  ⟨d.plan.addAll false b.path?.toList, d.parameters ++ b.value?.toList⟩

end Bound

/-- The scalar a path's value is compared as; an object is compared as nothing. -/
def scalar? (field : String) : Element → Except Offence Scalar
  | .scalar s => .ok s
  | .object typeName => .error (.uncastable field (Element.object typeName).text)

/-- A comparison or membership test of a resolved path. -/
def boundPath (field : String) (op : Operator) (v : Value) (r : ResolvedPath) : Except Offence Bound :=
  match op with
  | .comparison c =>
    if r.terminal.kind == .valueArray then .error (.unsupported c.name field)
    else (scalar? field r.terminal.element).map fun s => .compare c r s (coerce v s)
  | op =>
    if r.terminal.kind != .valueArray then .error (.unsupported op.name field)
    else (scalar? field r.terminal.element).map fun s => .member (op == .notContains) r s (coerce v s)

def boundIdentity (field : String) (op : Operator) (v : Value) : Except Offence Bound :=
  match op with
  | .comparison c => .ok (.identityCompare c (asGuid v))
  | op => .error (.unsupported op.name field)

def boundNull (negated : Bool) : Target → Bound
  | .identity => .identityNull negated
  | .path r => .isNull negated r

def boundUnary (field : String) (op : Operator) (v : Value) : Target → Except Offence Bound
  | .identity => boundIdentity field op v
  | .path r => boundPath field op v r

/-- The leaf's meaning under a schema, or the first thing wrong with it. -/
def bound (schema : Schema) (leaf : Query.Leaf) : Except Offence Bound :=
  if Text.allBlank leaf.field then .error .blankField
  else match leaf.test with
    | .null negated => ((target? schema leaf.field).mapError .unresolved).map (boundNull negated)
    | .unary op v =>
      if v.isNull then .error (.nullValue op (Text.trim leaf.field))
      else ((target? schema leaf.field).mapError .unresolved).bind (boundUnary (Text.trim leaf.field) op v)

/-! ## Trees -/

/-- A query with all its leaves bound. -/
inductive BoundTree where
  | leaf (b : Bound)
  | binary (c : Connective) (left right : BoundTree)

namespace BoundTree

def paths : BoundTree → List ResolvedPath
  | leaf b => b.path?.toList
  | binary _ left right => left.paths ++ right.paths

def values : BoundTree → List Value
  | leaf b => b.value?.toList
  | binary _ left right => left.values ++ right.values

/-- The condition of a tree whose parameters come after `n` others. -/
def condition (n : Nat) : BoundTree → Condition
  | leaf b => b.condition n
  | binary c left right => .binary c (left.condition n) (right.condition (n + left.values.length))

def draft (t : BoundTree) (d : Draft) : Draft :=
  ⟨d.plan.addAll false t.paths, d.parameters ++ t.values⟩

theorem draft_binary (c : Connective) (left right : BoundTree) (d : Draft) :
    (binary c left right).draft d = right.draft (left.draft d) := by
  simp [draft, paths, values, Join.Plan.addAll_append]

end BoundTree

def boundTree (schema : Schema) : Query → Except Offence BoundTree
  | .unary field op v => (bound schema ⟨field, .unary op v⟩).map .leaf
  | .isNull field => (bound schema ⟨field, .null false⟩).map .leaf
  | .isNotNull field => (bound schema ⟨field, .null true⟩).map .leaf
  | .binary c left right => (boundTree schema left).bind fun l => (boundTree schema right).map (.binary c l)

/-! ## Compiling a leaf -/

/-- The outcome of a check that knows no dialect, as a dialect reports it. -/
def reported {α β : Type} (dialect : Dialect) (f : α → β) (x : Except Offence α) : Except Error β :=
  (x.mapError (Offence.error dialect)).map f

theorem reported_eq_ok {α β : Type} {dialect : Dialect} {f : α → β} {x : Except Offence α} {b : β} :
    reported dialect f x = .ok b ↔ ∃ a, x = .ok a ∧ f a = b := by
  rw [reported, Except.map_eq_ok]
  simp only [Except.mapError_eq_ok]

theorem locate_eq (schema : Schema) (d : Draft) (field : String) (fromSort : Bool) :
    locate schema d field fromSort = (Path.resolve schema field).map fun r =>
      (r.place, r.terminal, { d with plan := (d.plan.add r fromSort).1 }) := by
  unfold locate
  cases Path.resolve schema field with
  | error e => rfl
  | ok r =>
    have hplace := Join.Plan.add_place d.plan r fromSort
    simp only [Except.map]
    rw [← hplace]
    rfl

theorem comparable_eq (dialect : Dialect) (field : String) (node : Node) :
    comparable dialect field node = reported dialect id (scalar? field node.element) := by
  unfold comparable scalar?
  cases node.element <;> rfl

/-- A draft that one more leaf was compiled into. -/
def compiledLeaf (d : Draft) (b : Bound) : Condition × Draft := (b.condition d.parameters.length, b.draft d)

theorem nullLeaf_eq (schema : Schema) (dialect : Dialect) (d : Draft) (field : String) (negated : Bool) :
    nullLeaf schema d field negated = reported dialect (compiledLeaf d) (bound schema ⟨field, .null negated⟩) := by
  unfold nullLeaf checkedField bound
  by_cases hb : Text.allBlank field = true
  · simp only [hb, if_true]; rfl
  simp only [hb, Bool.false_eq_true, if_false, target?, bind, Except.bind]
  by_cases hid : (Text.trim field == identityField) = true
  · simp [hid, reported, Except.map, boundNull, compiledLeaf, Bound.condition, Bound.draft,
      Bound.path?, Bound.value?, Join.Plan.addAll, pure, Except.pure]
  · simp only [hid, Bool.false_eq_true, if_false]
    rw [locate_eq]
    cases Path.resolve schema (Text.trim field) with
    | error e => rfl
    | ok r =>
      simp [reported, Except.map, boundNull, compiledLeaf, Bound.condition, Bound.draft,
        Bound.path?, Bound.value?, Join.Plan.addAll, pure, Except.pure]

theorem identityLeaf_eq (dialect : Dialect) (d : Draft) (field : String) (op : Operator) (v : Value) :
    identityLeaf d field op v = reported dialect (compiledLeaf d) (boundIdentity field op v) := by
  cases op with
  | comparison c => simp [identityLeaf, boundIdentity, reported, Except.map, compiledLeaf,
      Bound.condition, Bound.draft, Bound.path?, Bound.value?, Draft.bind, Join.Plan.addAll]
  | contains => rfl
  | notContains => rfl

/-- The leaf of a located path, compiled after its arrays are joined. -/
def locatedLeaf (dialect : Dialect) (d : Draft) (field : String) (op : Operator) (v : Value) (place : Location)
    (node : Node) : Except Error (Condition × Draft) :=
  match op with
  | .comparison c => comparisonLeaf dialect d field c v place node
  | op => memberLeaf dialect d field op v place node

theorem locatedLeaf_eq (dialect : Dialect) (d : Draft) (field : String) (op : Operator) (v : Value)
    (r : ResolvedPath) :
    locatedLeaf dialect { d with plan := (d.plan.add r false).1 } field op v r.place r.terminal =
      reported dialect (compiledLeaf d) (boundPath field op v r) := by
  cases op with
  | comparison c =>
    simp only [locatedLeaf, comparisonLeaf, boundPath, comparable_eq]
    by_cases hk : (r.terminal.kind == .valueArray) = true
    · simp only [hk, if_true]; rfl
    · simp only [hk, Bool.false_eq_true, if_false]
      cases scalar? field r.terminal.element <;> rfl
  | _ =>
    simp only [locatedLeaf, memberLeaf, boundPath, comparable_eq]
    by_cases hk : (r.terminal.kind != .valueArray) = true
    · simp only [hk, if_true]; rfl
    · simp only [hk, Bool.false_eq_true, if_false]
      cases scalar? field r.terminal.element <;> rfl

theorem unaryLeaf_eq (schema : Schema) (dialect : Dialect) (d : Draft) (field : String) (op : Operator) (v : Value) :
    unaryLeaf schema dialect d field op v =
      reported dialect (compiledLeaf d) (bound schema ⟨field, .unary op v⟩) := by
  unfold unaryLeaf checkedField bound
  by_cases hb : Text.allBlank field = true
  · simp only [hb, if_true]; rfl
  simp only [hb, Bool.false_eq_true, if_false, target?, bind, Except.bind]
  by_cases hn : v.isNull = true
  · simp only [hn, if_true]; rfl
  simp only [hn, Bool.false_eq_true, if_false]
  by_cases hid : (Text.trim field == identityField) = true
  · simp only [hid, if_true]
    exact identityLeaf_eq dialect d (Text.trim field) op v
  · simp only [hid, Bool.false_eq_true, if_false]
    rw [locate_eq]
    cases Path.resolve schema (Text.trim field) with
    | error e => rfl
    | ok r => exact locatedLeaf_eq dialect d (Text.trim field) op v r

/-! ## Compiling a tree -/

/-- A draft that a whole tree was compiled into. -/
def compiledTree (d : Draft) (t : BoundTree) : Condition × Draft := (t.condition d.parameters.length, t.draft d)

theorem reported_map {α β γ : Type} (dialect : Dialect) (f : β → γ) (g : α → β) (x : Except Offence α) :
    reported dialect f (x.map g) = reported dialect (f ∘ g) x := by
  cases x <;> rfl

theorem compileQuery_eq (schema : Schema) (dialect : Dialect) (q : Query) (d : Draft) :
    compileQuery schema dialect q d = reported dialect (compiledTree d) (boundTree schema q) := by
  induction q generalizing d with
  | unary field op v => simp only [compileQuery, boundTree, unaryLeaf_eq, reported_map]; rfl
  | isNull field => simp only [compileQuery, boundTree, nullLeaf_eq schema dialect, reported_map]; rfl
  | isNotNull field => simp only [compileQuery, boundTree, nullLeaf_eq schema dialect, reported_map]; rfl
  | binary c left right ihl ihr =>
    simp only [compileQuery, boundTree, ihl]
    cases boundTree schema left with
    | error o => rfl
    | ok l =>
      show (compileQuery schema dialect right (l.draft d)).bind _ = _
      rw [ihr]
      cases boundTree schema right with
      | error o => rfl
      | ok r =>
        show Except.ok _ = Except.ok (compiledTree d (.binary c l r))
        simp only [compiledTree, BoundTree.condition, BoundTree.draft_binary]
        simp [BoundTree.draft]

/-! ## Sort keys -/

/-- A sort key with its field resolved. -/
inductive BoundKey where
  | identity (direction : Direction)
  | field (r : ResolvedPath) (type : Scalar) (direction : Direction)

namespace BoundKey

def path? : BoundKey → Option ResolvedPath
  | identity _ => none
  | field r _ _ => some r

def order : BoundKey → Order
  | identity direction => .identity direction
  | field r type direction => .field r.place type direction

end BoundKey

def boundKeyTarget (field : String) (direction : Direction) : Target → Except Offence BoundKey
  | .identity => .ok (.identity direction)
  | .path r =>
    if r.terminal.kind == .valueArray then .error (.unsupported "ORDER BY" field)
    else (scalar? field r.terminal.element).map fun s => .field r s direction

/-- The sort key's meaning under a schema, or the first thing wrong with it. -/
def boundKey (schema : Schema) (k : SortKey) : Except Offence BoundKey :=
  if Text.allBlank k.field then .error .blankField
  else ((target? schema k.field).mapError .unresolved).bind (boundKeyTarget (Text.trim k.field) k.direction)

def boundKeys (schema : Schema) : List SortKey → Except Offence (List BoundKey)
  | [] => .ok []
  | k :: rest => (boundKey schema k).bind fun b => (boundKeys schema rest).map (b :: ·)

/-- A draft with the arrays of sort keys joined and marked. -/
def sortedDraft (d : Draft) (keys : List BoundKey) : Draft :=
  { d with plan := d.plan.addAll true (keys.filterMap BoundKey.path?) }

theorem orderKey_eq (schema : Schema) (dialect : Dialect) (d : Draft) (k : SortKey) :
    orderKey schema dialect d k = reported dialect (fun b => (b.order, sortedDraft d [b])) (boundKey schema k) := by
  unfold orderKey checkedField boundKey
  by_cases hb : Text.allBlank k.field = true
  · simp only [hb, if_true]; rfl
  simp only [hb, Bool.false_eq_true, if_false, target?, bind, Except.bind]
  by_cases hid : (Text.trim k.field == identityField) = true
  · simp only [hid, if_true]; rfl
  · simp only [hid, Bool.false_eq_true, if_false]
    rw [locate_eq]
    cases Path.resolve schema (Text.trim k.field) with
    | error e => rfl
    | ok r =>
      simp only [Except.map, Except.mapError_ok, comparable_eq]
      by_cases hk : (r.terminal.kind == .valueArray) = true
      · simp only [hk, if_true, boundKeyTarget]; rfl
      · simp only [hk, Bool.false_eq_true, if_false, boundKeyTarget]
        cases scalar? (Text.trim k.field) r.terminal.element <;> rfl

theorem orderKeys_eq (schema : Schema) (dialect : Dialect) (keys : List SortKey) (d : Draft) :
    orderKeys schema dialect keys d =
      reported dialect (fun bs => (bs.map BoundKey.order, sortedDraft d bs)) (boundKeys schema keys) := by
  induction keys generalizing d with
  | nil => rfl
  | cons k rest ih =>
    simp only [orderKeys, boundKeys, orderKey_eq]
    cases boundKey schema k with
    | error o => rfl
    | ok b =>
      show (orderKeys schema dialect rest (sortedDraft d [b])).bind _ = _
      rw [ih]
      cases boundKeys schema rest with
      | error o => rfl
      | ok bs =>
        show Except.ok _ = Except.ok _
        cases hb : b.path? <;> simp [sortedDraft, Join.Plan.addAll, hb]

/-! ## Statements -/

/-- A query, if there is one, and its sort keys, bound in this order. -/
def boundRequest (schema : Schema) (q : Option Query) (keys : List SortKey) :
    Except Offence (Option BoundTree × List BoundKey) :=
  match q with
  | none => (boundKeys schema keys).map (none, ·)
  | some q => (boundTree schema q).bind fun t => (boundKeys schema keys).map (some t, ·)

theorem boundRequest_ok {schema : Schema} {q : Option Query} {given : List SortKey} {t : Option BoundTree}
    {keys : List BoundKey} (h : boundRequest schema q given = .ok (t, keys)) : boundKeys schema given = .ok keys ∧
      ((q = none ∧ t = none) ∨ ∃ q' t', q = some q' ∧ t = some t' ∧ boundTree schema q' = .ok t') := by
  cases q with
  | none =>
    obtain ⟨bs, hk, e⟩ := Except.map_eq_ok.mp h
    cases e
    exact ⟨hk, Or.inl ⟨rfl, rfl⟩⟩
  | some q =>
    obtain ⟨t', ht, h⟩ := Except.bind_eq_ok.mp h
    obtain ⟨bs, hk, e⟩ := Except.map_eq_ok.mp h
    cases e
    exact ⟨hk, Or.inr ⟨q, t', rfl, rfl, ht⟩⟩

/-- All joins of a request. -/
def requestPlan (t : Option BoundTree) (keys : List BoundKey) : Join.Plan :=
  (Join.Plan.empty.addAll false (t.elim [] BoundTree.paths)).addAll true (keys.filterMap BoundKey.path?)

/-- The paths of a request. -/
def requestPaths (t : Option BoundTree) (keys : List BoundKey) : List ResolvedPath :=
  t.elim [] BoundTree.paths ++ keys.filterMap BoundKey.path?

/-- The arrays that sort keys cross. -/
def sortArrays (keys : List BoundKey) : List Crossing := (keys.filterMap BoundKey.path?).flatMap (·.arrays)

/-- The joins of a request are those of its paths' arrays, and sort keys mark theirs. -/
theorem requestPlan_covers (t : Option BoundTree) (keys : List BoundKey) :
    (requestPlan t keys).Covers ((requestPaths t keys).flatMap (·.arrays)) (sortArrays keys) := by
  have h := (Join.Plan.Covers.empty.addAll (t.elim [] BoundTree.paths) false).addAll
    (keys.filterMap BoundKey.path?) true
  simpa [requestPlan, requestPaths, sortArrays] using h

/-- The statement of a bound request. -/
def requestCompiled (dialect : Dialect) (table : Table) (page : Page) (request : Option BoundTree × List BoundKey) :
    Compiled :=
  ⟨dialect, ⟨.documents, table, arrayJoins (requestPlan request.1 request.2), request.1.map (·.condition 0),
    request.2.map BoundKey.order, page⟩, request.1.elim [] BoundTree.values⟩

theorem select_eq (schema : Schema) (dialect : Dialect) (table : Table) (q : Option Query) (sorting : Sorting)
    (page : Page) :
    select schema dialect table q sorting page =
      reported dialect (requestCompiled dialect table page) (boundRequest schema q sorting.keys) := by
  unfold select boundRequest
  cases q with
  | none =>
    simp only [optionalCondition, bind, Except.bind, orderKeys_eq]
    cases boundKeys schema sorting.keys <;> rfl
  | some q =>
    simp only [optionalCondition, bind, Except.bind, compileQuery_eq]
    cases boundTree schema q with
    | error o => rfl
    | ok t =>
      simp only [reported, Except.mapError_ok, Except.map, pure, Except.pure]
      rw [orderKeys_eq]
      cases boundKeys schema sorting.keys <;> rfl

theorem select_of_bound {schema : Schema} {q : Option Query} {sorting : Sorting}
    {request : Option BoundTree × List BoundKey} (h : boundRequest schema q sorting.keys = .ok request)
    (dialect : Dialect) (table : Table) (page : Page) :
    select schema dialect table q sorting page = .ok (requestCompiled dialect table page request) := by
  rw [select_eq, h]; rfl

end Statement

end DocQuery
