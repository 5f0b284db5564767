/-
  DocQuery.Statement.Compile — from queries to statements.

  The predicate is compiled leaf by leaf from left to right, then the sort keys; each path is
  resolved, joined where it passes arrays and checked against what its leaf does with it. The
  first leaf or key that is wrong decides the error. Constants become parameters in the order
  of their leaves, given the type of the field they are compared with.
-/

import DocQuery.Join.Plan
import DocQuery.Statement.Text

namespace DocQuery

/-- A statement for one dialect and the values of its parameters. -/
structure Compiled where
  dialect : Dialect
  statement : Statement
  parameters : List Value

namespace Compiled

def text (c : Compiled) : String := c.statement.text c.dialect

/-- The parameters with their numbers. -/
def numbered (c : Compiled) : List (Nat × Value) := c.parameters.zipIdx.map fun (v, i) => (i + 1, v)

/-- The same text and shape, and equal parameters under equal numbers. -/
def beq (c c' : Compiled) : Bool :=
  c.text == c'.text && c.numbered == c'.numbered && c.statement.shape == c'.statement.shape

instance : BEq Compiled := ⟨beq⟩

def shapeName : Statement.Shape → String
  | .documents => "documents"
  | .count => "count"

def parameterJson (p : Nat × Value) : Json := .object [("index", .int p.1), ("value", p.2.toJson)]

def toJson (c : Compiled) : Json :=
  .object [("sql", .string c.text), ("parameters", .array (c.numbered.map parameterJson)),
    ("shape", .string (shapeName c.statement.shape))]

end Compiled

namespace Statement

/-- The joins and parameters gathered so far. -/
structure Draft where
  plan : Join.Plan
  parameters : List Value

namespace Draft

def empty : Draft := ⟨.empty, []⟩

/-- One more parameter, and its number. -/
def bind (d : Draft) (v : Value) : Nat × Draft :=
  (d.parameters.length + 1, { d with parameters := d.parameters ++ [v] })

end Draft

/-! ## Values -/

/-- A text that reads as a guid is one. -/
def asGuid : Value → Value
  | .text s => match Guid.read? s with
    | some g => .guid g
    | none => .text s
  | v => v

/-- A text that reads as an instant is one. -/
def asInstant : Value → Value
  | .text s => match Instant.read? s with
    | some t => .instant t
    | none => .text s
  | v => v

def asFloat : Value → Value
  | .integer n => .float (Value.nearest n)
  | v => v

/-- A constant as the type of the field it is compared with. -/
def coerce (v : Value) : Scalar → Value
  | .datetime => asInstant v
  | .guid => asGuid v
  | .float => asFloat v
  | _ => v

/-! ## Leaves -/

/-- The field of a leaf without the blanks around it. -/
def checkedField (field : String) : Except Error String :=
  if Text.allBlank field then .error (.query .blankField) else .ok (Text.trim field)

def sourceOf (plan : Join.Plan) : Option Nat → Source
  | some i => match plan.joins[i]? with
    | some j => .element j.label
    | none => .document
  | none => .document

/-- A field's place and the node its path ends on, with its arrays joined. -/
def locate (schema : Schema) (d : Draft) (field : String) (fromSort : Bool) :
    Except Error (Location × Path.Node × Draft) := do
  let path ← Path.resolve schema field
  let (plan, binding) := d.plan.add path fromSort
  return (⟨sourceOf plan binding.join, binding.suffix⟩, binding.terminal, { d with plan := plan })

/-- The scalar type a place is compared as. -/
def comparable (dialect : Dialect) (field : String) (node : Path.Node) : Except Error Scalar :=
  match node.element with
  | .scalar s => .ok s
  | .object typeName =>
    .error (.fieldType field (Path.Element.object typeName).text dialect.name)

def nullLeaf (schema : Schema) (d : Draft) (field : String) (negated : Bool) :
    Except Error (Condition × Draft) := do
  let field ← checkedField field
  if field == identityField then return (.identityNull negated, d)
  let (place, _, d) ← locate schema d field false
  return (.isNull negated place, d)

def identityLeaf (d : Draft) (field : String) (op : Operator) (v : Value) :
    Except Error (Condition × Draft) :=
  match op with
  | .comparison c =>
    let (i, d) := d.bind (asGuid v)
    .ok (.identityCompare c i, d)
  | op => .error (.operator op.name field)

def comparisonLeaf (dialect : Dialect) (d : Draft) (field : String) (c : Comparison) (v : Value)
    (place : Location) (node : Path.Node) : Except Error (Condition × Draft) := do
  if node.kind == .valueArray then throw (.operator c.name field)
  let type ← comparable dialect field node
  let (i, d) := d.bind (coerce v type)
  return (.compare c place type i, d)

def memberLeaf (dialect : Dialect) (d : Draft) (field : String) (op : Operator) (v : Value)
    (place : Location) (node : Path.Node) : Except Error (Condition × Draft) := do
  if node.kind != .valueArray then throw (.operator op.name field)
  let type ← comparable dialect field node
  let (i, d) := d.bind (coerce v type)
  return (.member (op == .notContains) place type i, d)

def unaryLeaf (schema : Schema) (dialect : Dialect) (d : Draft) (field : String) (op : Operator)
    (v : Value) : Except Error (Condition × Draft) := do
  let field ← checkedField field
  if v.isNull then throw (.query (.nullValue op.name field))
  if field == identityField then identityLeaf d field op v
  else
    let (place, node, d) ← locate schema d field false
    match op with
    | .comparison c => comparisonLeaf dialect d field c v place node
    | op => memberLeaf dialect d field op v place node

/-! ## Statements -/

def compileQuery (schema : Schema) (dialect : Dialect) : Query → Draft → Except Error (Condition × Draft)
  | .unary field op v, d => unaryLeaf schema dialect d field op v
  | .isNull field, d => nullLeaf schema d field false
  | .isNotNull field, d => nullLeaf schema d field true
  | .binary c left right, d => do
    let (left, d) ← compileQuery schema dialect left d
    let (right, d) ← compileQuery schema dialect right d
    return (.binary c left right, d)

def optionalCondition (schema : Schema) (dialect : Dialect) (d : Draft) :
    Option Query → Except Error (Option Condition × Draft)
  | none => .ok (none, d)
  | some q => do
    let (c, d) ← compileQuery schema dialect q d
    return (some c, d)

def orderKey (schema : Schema) (dialect : Dialect) (d : Draft) (k : SortKey) :
    Except Error (Order × Draft) := do
  let field ← checkedField k.field
  if field == identityField then return (.identity k.direction, d)
  let (place, node, d) ← locate schema d field true
  if node.kind == .valueArray then throw (.operator "ORDER BY" field)
  let type ← comparable dialect field node
  return (.field place type k.direction, d)

def orderKeys (schema : Schema) (dialect : Dialect) : List SortKey → Draft →
    Except Error (List Order × Draft)
  | [], d => .ok ([], d)
  | k :: rest, d => do
    let (order, d) ← orderKey schema dialect d k
    let (orders, d) ← orderKeys schema dialect rest d
    return (order :: orders, d)

def arrayJoin (plan : Join.Plan) (j : Join) : ArrayJoin :=
  ⟨j.label, ⟨sourceOf plan j.parent, j.pointer⟩, j.grouped⟩

def arrayJoins (plan : Join.Plan) : List ArrayJoin := plan.ordered.map (arrayJoin plan)

/-- The rows that satisfy a query, in the order of the sort keys, as far as the page wants them. -/
def select (schema : Schema) (dialect : Dialect) (table : Table) (query : Option Query)
    (sorting : Sorting) (page : Page) : Except Error Compiled := do
  let (c, d) ← optionalCondition schema dialect .empty query
  let (order, d) ← orderKeys schema dialect sorting.keys d
  return ⟨dialect, ⟨.documents, table, arrayJoins d.plan, c, order, page⟩, d.parameters⟩

/-- How many documents satisfy a query. -/
def count (schema : Schema) (dialect : Dialect) (table : Table) (query : Option Query) :
    Except Error Compiled := do
  let (c, d) ← optionalCondition schema dialect .empty query
  return ⟨dialect, ⟨.count, table, arrayJoins d.plan, c, [], .all⟩, d.parameters⟩

end Statement

end DocQuery
