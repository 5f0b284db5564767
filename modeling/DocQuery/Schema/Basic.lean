/-
  DocQuery.Schema.Basic — the shape of a collection's documents.

  A schema names a root object type and holds every object type by name, in the byte order of
  the names. Object types refer to each other by name, so a comment may hold replies that are
  comments. Names of fields are looked up ignoring ASCII case. `Schema.ofTypes` is the only
  way to a schema: it refuses repeated names, references to nothing and arrays of arrays, and
  reports the first fault it meets.
-/

import DocQuery.Name
import DocQuery.Text.Fold

namespace DocQuery

inductive Scalar where
  | string
  | int
  | float
  | bool
  | datetime
  | guid
  deriving DecidableEq, Repr

namespace Scalar

def name : Scalar → String
  | string => "string"
  | int => "int"
  | float => "float"
  | bool => "bool"
  | datetime => "datetime"
  | guid => "guid"

/-- A scalar by one of its names, in any letter case. -/
def ofName? (text : String) : Option Scalar :=
  match Text.lower text with
  | "string" | "text" => some string
  | "int" | "integer" => some int
  | "float" | "double" | "number" => some float
  | "bool" | "boolean" => some bool
  | "datetime" | "timestamp" => some datetime
  | "guid" | "uuid" => some guid
  | _ => none

/-- Compared as extracted, without a cast. -/
def isTextual : Scalar → Bool
  | string | guid => true
  | _ => false

end Scalar

inductive FieldType where
  | scalar (s : Scalar)
  | object (name : String)
  | array (element : FieldType)
  deriving DecidableEq, Repr

namespace FieldType

def text : FieldType → String
  | scalar s => s.name
  | object name => name
  | array element => element.text ++ "[]"

end FieldType

structure Field where
  name : String
  type : FieldType
  deriving DecidableEq, Repr

structure ObjectType where
  name : String
  fields : List Field
  deriving DecidableEq, Repr

namespace ObjectType

def field? (t : ObjectType) (name : String) : Option Field :=
  t.fields.find? fun f => Text.sameIgnoringCase f.name name

/-- Every name is a field name, and none repeats an earlier one. -/
def checkFields (typeName : String) (earlier : List String) : List Field → Except Error Unit
  | [] => .ok ()
  | f :: rest => do
    checkFieldName f.name
    if earlier.any (Text.sameIgnoringCase f.name) then
      throw (.schema (.repeatedField typeName f.name))
    checkFields typeName (f.name :: earlier) rest

end ObjectType

structure Schema where
  root : String
  types : List ObjectType
  deriving DecidableEq, Repr

namespace Schema

def type? (s : Schema) (name : String) : Option ObjectType := s.types.find? (·.name == name)

def rootType? (s : Schema) : Option ObjectType := s.type? s.root

/-! ## Construction -/

/-- The types with one more, in byte order of the names; `none` if the name is taken. -/
def insertType? (t : ObjectType) : List ObjectType → Option (List ObjectType)
  | [] => some [t]
  | u :: rest =>
    if t.name < u.name then some (t :: u :: rest)
    else if u.name < t.name then (insertType? t rest).map (u :: ·)
    else none

/-- All object types in order of their names, each with sound fields. -/
def collect (types : List ObjectType) : List ObjectType → Except Error (List ObjectType)
  | [] => .ok types
  | t :: rest => do
    ObjectType.checkFields t.name [] t.fields
    match insertType? t types with
    | some types => collect types rest
    | none => throw (.schema (.repeatedType t.name))

/-- A field's type refers to declared types only and nests no array in an array. -/
def checkReference (declared : String → Bool) (owner field : String) (inArray : Bool) :
    FieldType → Except Error Unit
  | .scalar _ => .ok ()
  | .object name =>
    if declared name then .ok () else .error (.schema (.unknownReference owner field name))
  | .array element =>
    if inArray then .error (.schema (.nestedArray owner field))
    else checkReference declared owner field true element

def checkReferences (declared : String → Bool) (t : ObjectType) : Except Error Unit :=
  t.fields.forM fun f => checkReference declared t.name f.name false f.type

/-- A schema of these object types, given in any order. -/
def ofTypes (root : String) (types : List ObjectType) : Except Error Schema := do
  let types ← collect [] types
  let schema : Schema := ⟨root, types⟩
  let declared := fun name => (schema.type? name).isSome
  if !declared root then throw (.schema (.undeclaredRoot root))
  types.forM (checkReferences declared)
  return schema

end Schema

end DocQuery
