/-
  DocQuery.Schema.Infer — a schema from sample documents.

  The samples' shapes are merged and laid out as object types. A nested object becomes a type
  named by its owner's name and the field's, with the first of the suffixes 2, 3, … that
  makes the name new (ignoring case). A type stands after the types of its fields.
-/

import DocQuery.Json.Writer
import DocQuery.Schema.Shape

namespace DocQuery.Schema

/-- Object types laid out so far, and the names taken by them and by those being laid out. -/
structure Layout where
  types : List ObjectType
  taken : List String

namespace Layout

def isTaken (l : Layout) (name : String) : Bool := l.taken.any (Text.sameIgnoringCase name)

def candidate (base : String) (n : Nat) : String := if n == 0 then base else base ++ toString (n + 1)

/-- A free name: of one candidate more than there are names, one is free. -/
def freeName (l : Layout) (base : String) : String :=
  (((List.range (l.taken.length + 1)).map (candidate base)).find? fun name => !l.isTaken name).getD base

def reserve (l : Layout) (base : String) : String × Layout :=
  let name := l.freeName base
  (name, { l with taken := name :: l.taken })

def push (l : Layout) (t : ObjectType) : Layout := { l with types := l.types ++ [t] }

end Layout

mutual

/-- The type of a field whose nested types are named after `name`. -/
def fieldType (name : String) : Shape → Layout → Except Error (FieldType × Layout)
  | .unknown, l => .ok (.scalar .string, l)
  | .scalar s, l => .ok (.scalar s, l)
  | .object fields, l => do
    let (typeName, l) := l.reserve name
    let (fields, l) ← fieldTypes typeName fields l
    return (.object typeName, l.push ⟨typeName, fields⟩)
  | .array (.array _), _ => .error (.schema (.nestedArrayIn name))
  | .array element, l => do
    let (t, l) ← fieldType name element l
    return (.array t, l)

def fieldTypes (owner : String) : List (String × Shape) → Layout → Except Error (List Field × Layout)
  | [], l => .ok ([], l)
  | (field, shape) :: rest, l => do
    checkFieldName field
    let (t, l) ← fieldType (owner ++ field) shape l
    let (fields, l) ← fieldTypes owner rest l
    return (⟨field, t⟩ :: fields, l)

end

/-- The merged shape of the samples, which must all be objects. -/
def mergeDocuments (seen : Shape) : List Json → Except Error Shape
  | [] => .ok seen
  | .object members :: rest =>
    mergeDocuments (seen.merge (Shape.ofJson (Json.object members).canonical)) rest
  | j :: _ => .error (.argument (.notObject j.canonical.compact))

def rootFields : Shape → List (String × Shape)
  | .object fields => fields
  | _ => []

def infer (root : String) (documents : List Json) : Except Error Schema := do
  if documents.isEmpty then throw (.argument .noDocuments)
  let shape ← mergeDocuments .unknown documents
  let (rootName, l) := (Layout.mk [] []).reserve root
  let (fields, l) ← fieldTypes rootName (rootFields shape) l
  ofTypes root (l.push ⟨rootName, fields⟩).types

end DocQuery.Schema
