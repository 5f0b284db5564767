/-
  DocQuery.Schema.Text — schemas as JSON text.

  `{"root": "Post", "types": {"Post": {"Title": "string", "Comments": ["Comment"]}}}`: a name
  is a scalar if it is one of the scalar names, else an object type; a list of one is an
  array. Of repeated names in `types` or in a type the last counts; `root` and `types`
  themselves may not be repeated. What else the outer object holds is ignored: it has to be JSON,
  but its escapes may be halves of surrogate pairs. The pair `[root, types]` is read as well. Types
  and fields are read and written in byte order.
-/

import DocQuery.Json.Reader
import DocQuery.Json.Writer
import DocQuery.Schema.Basic

namespace DocQuery.Schema

/-- A field's type as it stands in JSON. -/
inductive Spec where
  | name (text : String)
  | list (items : List Spec)

mutual

def Spec.ofJson? : Json → Option Spec
  | .string s => some (.name s)
  | .array items => (specItems? items).map .list
  | _ => none

def specItems? : List Json → Option (List Spec)
  | [] => some []
  | j :: rest =>
    match Spec.ofJson? j, specItems? rest with
    | some spec, some specs => some (spec :: specs)
    | _, _ => none

end

def Spec.toFieldType : Spec → Except Error FieldType
  | .name text =>
    match Scalar.ofName? text with
    | some s => .ok (.scalar s)
    | none => .ok (.object text)
  | .list [] => .error (.schema (.arrayArity 0))
  | .list [item] => item.toFieldType.map .array
  | .list items => .error (.schema (.arrayArity items.length))

/-- The entries of an object, each read by `read`, in byte order of the keys. -/
def entries? {α : Type} (read : Json → Option α) : Json → Option (List (String × α))
  | .object members =>
    members.foldlM (fun acc (key, j) => (read j).map fun v => insertSorted key v acc) []
  | _ => none

/-- A schema as written, before names are looked at. -/
structure Description where
  root : String
  types : List (String × List (String × Spec))

def typesOf? (j : Json) : Option (List (String × List (String × Spec))) :=
  entries? (entries? Spec.ofJson?) j

def membersNamed (key : String) (members : List (String × Json)) : List Json :=
  (members.filter (·.1 == key)).map (·.2)

/-- The levels of nesting allowed in a schema, counted from its own brackets. -/
def maxDepth : Nat := 127

def Description.ofParts? (root types : Json) : Option Description :=
  match root with
  | .string root =>
    if types.depth < maxDepth then (typesOf? types).map fun types => ⟨root, types⟩ else none
  | _ => none

def Description.ofJson? : Json → Option Description
  | .object members =>
    match membersNamed "root" members, membersNamed "types" members with
    | [root], [types] => ofParts? root types
    | _, _ => none
  | .array [root, types] => ofParts? root types
  | _ => none

def fieldOf (entry : String × Spec) : Except Error Field :=
  entry.2.toFieldType.map fun t => ⟨entry.1, t⟩

def objectTypeOf (entry : String × List (String × Spec)) : Except Error ObjectType :=
  (entry.2.mapM fieldOf).map fun fields => ⟨entry.1, fields⟩

/-- Any depth is read; what the schema is made of is held to `maxDepth`. -/
def reading (text : String) : Json.Reading := ⟨text.length, fun t => some t.nearest⟩

/-- How a member of the outer object is read. What is not the schema's own is passed over, and there an escape
need not name a character. -/
def memberReader (reading : Json.Reading) (key : String) : Json.Reader Json :=
  Json.value (if key == "root" || key == "types" then Json.stringText else Json.looseText) reading.number reading.depth

def outerValue (reading : Json.Reading) (s : List Char) : Option (Json × List Char) :=
  match Json.skipGap s with
  | '{' :: r => (Json.members Json.stringText (memberReader reading) r).map fun (l, t) => (.object l, t)
  | r => Json.value Json.stringText reading.number reading.depth r

/-- The JSON of a description's text. -/
def json? (text : String) : Option Json := Json.whole? (outerValue (reading text)) text

def ofText (text : String) : Except Error Schema :=
  match (json? text).bind Description.ofJson? with
  | none => .error .unreadable
  | some d => do ofTypes d.root (← d.types.mapM objectTypeOf)

/-! ## Writing -/

def typeJson : FieldType → Json
  | .scalar s => .string s.name
  | .object name => .string name
  | .array element => .array [typeJson element]

def objectTypeJson (t : ObjectType) : Json :=
  .object (sortEntries (t.fields.map fun f => (f.name, typeJson f.type)))

def toJson (s : Schema) : Json :=
  .object [("root", .string s.root), ("types", .object (s.types.map fun t => (t.name, objectTypeJson t)))]

end DocQuery.Schema
