/-
  DocQuery.Schema.Shape — what is seen in sample documents, field by field.

  A shape records scalars, objects and arrays; nulls and the items of empty arrays leave it
  unknown. Merging keeps what both samples agree on, widens integers to doubles and takes
  every other conflict for text, so `string` absorbs whatever it meets and merging does not
  depend on the order of the samples.
-/

import DocQuery.Guid
import DocQuery.Instant.Text
import DocQuery.Json.Basic
import DocQuery.Schema.Basic

namespace DocQuery.Schema

inductive Shape where
  | unknown
  | scalar (s : Scalar)
  | object (fields : List (String × Shape))
  | array (element : Shape)

namespace Shape

def widen (a b : Scalar) : Scalar :=
  if a == b then a
  else match a, b with
    | .int, .float => .float
    | .float, .int => .float
    | _, _ => .string

def fieldShape (fields : List (String × Shape)) (key : String) : Shape :=
  ((fields.find? (·.1 == key)).map (·.2)).getD unknown

mutual

def merge : Shape → Shape → Shape
  | unknown, b => b
  | scalar a, unknown => scalar a
  | scalar a, scalar b => scalar (widen a b)
  | object a, unknown => object a
  | object a, object b => object (mergeFields a b)
  | array a, unknown => array a
  | array a, array b => array (merge a b)
  | _, _ => scalar .string

/-- Fields of either side, in order of the keys; both sides are in that order. -/
def mergeFields : List (String × Shape) → List (String × Shape) → List (String × Shape)
  | [], b => b
  | (key, shape) :: rest, b =>
    b.filter (fun f => f.1 < key) ++
      (key, merge shape (fieldShape b key)) :: mergeFields rest (b.filter fun f => key < f.1)

end

def ofString (s : String) : Scalar :=
  if (Instant.read? s).isSome then .datetime
  else if (Guid.read? s).isSome then .guid
  else .string

mutual

def ofJson : Json → Shape
  | .null => unknown
  | .bool _ => scalar .bool
  | .int _ => scalar .int
  | .float _ => scalar .float
  | .string s => scalar (ofString s)
  | .array items => array (ofItems unknown items)
  | .object members => object (ofMembers members)

/-- The merge of what came before with every item. -/
def ofItems (seen : Shape) : List Json → Shape
  | [] => seen
  | j :: rest => ofItems (merge seen (ofJson j)) rest

def ofMembers : List (String × Json) → List (String × Shape)
  | [] => []
  | (key, j) :: rest => (key, ofJson j) :: ofMembers rest

end

end Shape

end DocQuery.Schema
