/-
  DocQuery.Path.Resolve — dotted paths read against a schema.

  Resolution walks from the root type, one segment at a time. Names match ignoring ASCII case
  and the nodes carry the names as declared. Only objects and object arrays have fields, and
  a path may not end on an object array.
-/

import DocQuery.Path.Segment
import DocQuery.Schema.Basic

namespace DocQuery

namespace Path

/-- What a node's value is, or what the elements of its array are. -/
inductive Element where
  | scalar (s : Scalar)
  | object (typeName : String)
  deriving DecidableEq, Repr

namespace Element

def text : Element → String
  | scalar s => s.name
  | object _ => "object"

end Element

inductive Kind where
  | scalar
  | object
  | valueArray
  | objectArray
  deriving DecidableEq, Repr

namespace Kind

def isArray : Kind → Bool
  | valueArray | objectArray => true
  | _ => false

end Kind

structure Node where
  name : String
  kind : Kind
  element : Element
  deriving DecidableEq, Repr

/-- How a field of a type holds its value; arrays of arrays cannot be walked. -/
def classify : FieldType → Option (Kind × Element)
  | .scalar s => some (.scalar, .scalar s)
  | .object name => some (.object, .object name)
  | .array (.scalar s) => some (.valueArray, .scalar s)
  | .array (.object name) => some (.objectArray, .object name)
  | .array (.array _) => none

/-- Where a walk stands: on an object type, or on something without fields, called `name`. -/
inductive Place where
  | type (t : ObjectType)
  | leaf (name : String)

/-- Names joined by dots. -/
def dotted (names : List String) : String := String.intercalate "." names

/-- The pieces between dots. -/
def pieces : List Char → List (List Char)
  | [] => [[]]
  | c :: r =>
    if c == '.' then [] :: pieces r
    else match pieces r with
      | piece :: rest => (c :: piece) :: rest
      | [] => [[c]]

/-- The node that a segment reaches on a type, and the place it leads to. -/
def step (schema : Schema) (path : String) (place : Place) (segment : List Char) :
    Except Error (Node × Place) :=
  match place with
  | .leaf name => .error (.pathNotFound path name)
  | .type t =>
    match (segmentName? segment).bind t.field? with
    | none => .error (.pathNotFound path t.name)
    | some f =>
      match classify f.type with
      | none => .error (.schema (.untraversable f.name f.type.text))
      | some (kind, .scalar s) => .ok (⟨f.name, kind, .scalar s⟩, .leaf s.name)
      | some (kind, .object typeName) =>
        match schema.type? typeName with
        | some target => .ok (⟨f.name, kind, .object typeName⟩, .type target)
        | none => .error (.pathNotFound path typeName)

def walk (schema : Schema) (path : String) : Place → List (List Char) → Except Error (List Node)
  | _, [] => .ok []
  | place, segment :: rest => do
    let (node, next) ← step schema path place segment
    let nodes ← walk schema path next rest
    return node :: nodes

/-- The index of the node that the node at an index is below. -/
def parent? : Nat → Option Nat
  | 0 => none
  | i + 1 => some i

/-- The place from which a path starts. -/
def origin (schema : Schema) : Place :=
  match schema.rootType? with
  | some t => .type t
  | none => .leaf schema.root

end Path

/-- A resolved path: the nodes it passes, and the one it ends on. -/
structure ResolvedPath where
  before : List Path.Node
  terminal : Path.Node
  deriving DecidableEq, Repr

namespace ResolvedPath

def nodes (r : ResolvedPath) : List Path.Node := r.before ++ [r.terminal]

def names (r : ResolvedPath) : List String := r.nodes.map (·.name)

def canonical (r : ResolvedPath) : String := Path.dotted r.names

/-- The dotted names up to and including the node at an index. -/
def keyAt (r : ResolvedPath) (i : Nat) : String := Path.dotted (r.names.take (i + 1))

def ofNodes? : List Path.Node → Option ResolvedPath
  | [] => none
  | [n] => some ⟨[], n⟩
  | n :: rest => (ofNodes? rest).map fun r => ⟨n :: r.before, r.terminal⟩

/-- The object arrays a path goes through, with their indices. -/
def crossings (r : ResolvedPath) : List (Nat × Path.Node) :=
  (r.before.zipIdx.filter fun (n, _) => n.kind == .objectArray).map fun (n, i) => (i, n)

end ResolvedPath

namespace Path

/-- The resolution of a path text from the root type of a schema. -/
def resolve (schema : Schema) (path : String) : Except Error ResolvedPath := do
  let trimmed := Text.trimChars path.toList
  if trimmed.isEmpty then throw (.pathNotFound path schema.root)
  let nodes ← walk schema path (origin schema) (pieces trimmed)
  match ResolvedPath.ofNodes? nodes with
  | none => throw (.pathNotFound path schema.root)
  | some r => if r.terminal.kind == .objectArray then throw (.arrayTerminal path) else return r

end Path

end DocQuery
