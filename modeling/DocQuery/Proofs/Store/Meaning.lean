/-
  DocQuery.Proofs.Store.Meaning — what a query means on a document.

  A query is asked of a document with one element chosen for every object array that its paths
  pass. A path is read by following its names from the document; below an array the chosen
  element is read. Where the array is missing there is no choice. No joins and no rows are
  spoken of here: that statements select by this meaning is `Proofs.Store.Selection`.
-/

import Mathlib.Data.Set.Card
import DocQuery.Proofs.Statement.Reading
import DocQuery.Store.Basic

namespace DocQuery

open DocQuery.Path Statement

/-! ## Documents of a schema -/

namespace Json

/-- A scalar of a declared type is of its kind or null; instants and guids are texts. -/
def isOf : Scalar → Json → Bool
  | _, .null => true
  | .string, .string _ => true
  | .datetime, .string _ => true
  | .guid, .string _ => true
  | .int, .int _ => true
  | .float, .int _ => true
  | .float, .float _ => true
  | .bool, .bool _ => true
  | _, _ => false

/-- A value of a declared type. Fields may be missing and others may be there. -/
inductive Conforms (s : Schema) : FieldType → Json → Prop
  | scalar {t : Scalar} {j : Json} : isOf t j = true → Conforms s (.scalar t) j
  | array {e : FieldType} {items : List Json} : (∀ j ∈ items, Conforms s e j) → Conforms s (.array e) (.array items)
  | object {name : String} {t : ObjectType} {members : List (String × Json)} : s.type? name = some t →
      (∀ f ∈ t.fields, ∀ j, first? members f.name = some j → Conforms s f.type j) →
      Conforms s (.object name) (.object members)

/-- The member of this name. -/
def field? (name : String) : Json → Option Json
  | .object members => first? members name
  | _ => none

end Json

/-- The row's text is this document, and the document is one of the schema. -/
structure Row.Holds (schema : Schema) (row : Row) (doc : Json) : Prop where
  text : Json.readWith? .stored row.document = some doc
  conforms : Json.Conforms schema (.object schema.root) doc

theorem Row.Holds.unique {schema : Schema} {row : Row} {doc doc' : Json} (h : row.Holds schema doc)
    (h' : row.Holds schema doc') : doc = doc' :=
  Option.some.inj (h.text.symm.trans h'.text)

/-- A table's rows: every identity stands once, and every row holds a document of the schema. -/
structure Documents (schema : Schema) (rows : List Row) : Prop where
  ids : (rows.map (·.id)).Nodup
  holds : ∀ row ∈ rows, ∃ doc, row.Holds schema doc

theorem Documents.single {schema : Schema} {row : Row} {doc : Json} (h : row.Holds schema doc) :
    Documents schema [row] :=
  ⟨List.nodup_singleton _, fun _ hr => ⟨doc, List.mem_singleton.mp hr ▸ h⟩⟩

/-! ## Choices -/

/-- An element for every object array, by the dotted path of the array. -/
abbrev Choice := String → Json

namespace Choice

/-- The value that nodes lead to from a value reached by `names`. -/
def value (ch : Choice) : List String → Option Json → List Node → Option Json
  | _, j, [] => j
  | names, j, n :: rest =>
    if n.kind == .objectArray then ch.value (names ++ [n.name]) (some (ch (dotted (names ++ [n.name])))) rest
    else ch.value (names ++ [n.name]) (j.bind (Json.field? n.name)) rest

/-- The object arrays among the nodes are there and have the chosen elements. -/
def FitsFrom (ch : Choice) : List String → Option Json → List Node → Prop
  | _, _, [] => True
  | names, j, n :: rest =>
    if n.kind = .objectArray then
      (∃ items, j.bind (Json.field? n.name) = some (.array items) ∧ ch (dotted (names ++ [n.name])) ∈ items) ∧
        ch.FitsFrom (names ++ [n.name]) (some (ch (dotted (names ++ [n.name])))) rest
    else ch.FitsFrom (names ++ [n.name]) (j.bind (Json.field? n.name)) rest

/-- An element of every object array that the path crosses is chosen. -/
def Fits (ch : Choice) (doc : Json) (r : ResolvedPath) : Prop := ch.FitsFrom [] (some doc) r.before

/-- What the path leads to. -/
def read (ch : Choice) (doc : Json) (r : ResolvedPath) : Option Json := ch.value [] (some doc) r.nodes

def cell (ch : Choice) (doc : Json) (r : ResolvedPath) : Cell := (ch.read doc r).elim .null Json.cell

def members (ch : Choice) (doc : Json) (r : ResolvedPath) : List Json := (ch.read doc r).elim [] Json.elements

end Choice

/-! ## Truth -/

namespace Statement

/-- What a leaf says of a row at the time `now`. The members of hidden paths are not seen. -/
def Bound.truth (now : Nat) (hidden : ResolvedPath → Bool) (row : Row) (doc : Json) (ch : Choice) : Bound → Truth
  | identityNull negated => some negated
  | identityCompare c v => Cell.compares c (.text row.id.text) (Cell.ofValue v).asText
  | isNull negated r => some ((ch.cell doc r).isNull != negated)
  | compare c r type v => Cell.compares c (typed now type (ch.cell doc r)) (opposite type (Cell.ofValue v))
  | member negated r type v =>
    let members := if hidden r then [] else ch.members doc r
    negateIf negated (Cell.isIn (opposite type (Cell.ofValue v)) (members.map fun e => typed now type e.cell))

def connected : Connective → Truth → Truth → Truth
  | .and => Truth.and
  | .or => Truth.or

def BoundTree.truth (now : Nat) (hidden : ResolvedPath → Bool) (row : Row) (doc : Json) (ch : Choice) : BoundTree → Truth
  | leaf b => b.truth now hidden row doc ch
  | binary c left right => connected c (left.truth now hidden row doc ch) (right.truth now hidden row doc ch)

/-- A choice for which a request selects a row: it has an element of every array that the query or
the sort keys cross, and the query is true. -/
structure Selects (now : Nat) (hidden : ResolvedPath → Bool) (t : Option BoundTree) (keys : List BoundKey)
    (row : Row) (doc : Json) (ch : Choice) : Prop where
  fits : ∀ r ∈ requestPaths t keys, ch.Fits doc r
  holds : ∀ tree, t = some tree → tree.truth now hidden row doc ch = some true

/-- The texts of the elements that sort keys see. -/
def sortTexts (keys : List BoundKey) (ch : Choice) : List String :=
  (sortArrays keys).map fun c => (ch (dotted c.names)).compact

/-- Of a table's rows these are the answer to a request: a row is among them when the request selects
it with some choice, as often as choices differ in what the sort keys see. What they see are texts as they
are stored; these are the texts of the elements where the document is stored as it is written compactly. -/
structure Answers (now : Nat) (hidden : ResolvedPath → Bool) (schema : Schema) (t : Option BoundTree)
    (keys : List BoundKey) (table rows : List Row) : Prop where
  stored : ∀ row ∈ rows, row ∈ table
  selected : ∀ row ∈ table, ∀ doc, row.Holds schema doc → (row ∈ rows ↔ ∃ ch, Selects now hidden t keys row doc ch)
  repeated : ∀ row ∈ table, ∀ doc, row.Holds schema doc → sortArrays keys = [] ∨ row.document = doc.compact →
    (rows.count row : ℕ∞) = (sortTexts keys '' {ch | Selects now hidden t keys row doc ch}).encard

/-! ## Hidden members -/

/-- Every path's members are seen. -/
def visible (_ : ResolvedPath) : Bool := false

/-- The path's values are read from an array that the engine's function for members hides. -/
def shadowed (r : ResolvedPath) : Bool := r.place.source.isHidden

/-- A path whose members are asked for. -/
def Bound.memberPath? : Bound → Option ResolvedPath
  | member _ r _ _ => some r
  | _ => none

/-- No members are asked for that are hidden. -/
def Unshadowed (t : Option BoundTree) : Prop :=
  ∀ tree, t = some tree → ∀ b ∈ tree.bounds, ∀ r, b.memberPath? = some r → shadowed r = false

end Statement

end DocQuery
