/-
  DocQuery.Statement.Basic — statements over a table of documents.

  A table has two columns, a row's identity and its document. A statement joins arrays of the
  document, keeps the rows that a condition holds for, and either selects identity and
  document or counts the identities. Parameters are referred to by number, from 1; conditions
  hold no constants.
-/

import DocQuery.Name
import DocQuery.Path.Resolve
import DocQuery.Query.Basic
import DocQuery.Query.Page
import DocQuery.Query.Sorting

namespace DocQuery

/-- A table by name, possibly in a named schema of the database. -/
structure Table where
  name : String
  schema : Option String
  deriving DecidableEq, Repr

namespace Table

def named (name : String) : Except Error Table := do
  checkTableName name
  return ⟨name, none⟩

def inSchema (t : Table) (schema : String) : Except Error Table := do
  checkTableName schema
  return { t with schema := some schema }

end Table

namespace Statement

/-- What paths are read from: the row's document, or the current element of a join. -/
inductive Source where
  | document
  | element (label : String)
  deriving DecidableEq, Repr

/-- A place in JSON: names to follow from a source. -/
structure Location where
  source : Source
  path : List String
  deriving DecidableEq, Repr

structure ArrayJoin where
  label : String
  array : Location
  /-- Its elements tell rows of one document apart. -/
  grouped : Bool
  deriving DecidableEq, Repr

inductive Condition where
  | identityNull (negated : Bool)
  | identityCompare (c : Comparison) (parameter : Nat)
  | isNull (negated : Bool) (place : Location)
  | compare (c : Comparison) (place : Location) (type : Scalar) (parameter : Nat)
  | member (negated : Bool) (place : Location) (type : Scalar) (parameter : Nat)
  | binary (c : Connective) (left right : Condition)
  deriving DecidableEq, Repr

inductive Order where
  | identity (direction : Direction)
  | field (place : Location) (type : Scalar) (direction : Direction)
  deriving DecidableEq, Repr

/-- Rows of identity and document, or the number of distinct identities. -/
inductive Shape where
  | documents
  | count
  deriving DecidableEq, Repr

end Statement

structure Statement where
  shape : Statement.Shape
  table : Table
  joins : List Statement.ArrayJoin
  condition : Option Statement.Condition
  order : List Statement.Order
  page : Page
  deriving DecidableEq, Repr

end DocQuery
