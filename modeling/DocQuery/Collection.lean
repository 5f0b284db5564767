/-
  DocQuery.Collection — documents of one schema in one table.

  A collection writes documents in canonical form and reads whatever text its table holds; a
  text that is no document is refused when it is read. Found documents are ordered by identity
  where no sort key says otherwise, if the store is configured so.
-/

import DocQuery.Predicate.Text
import DocQuery.Store.Basic

namespace DocQuery

structure Collection where
  table : Table
  schema : Schema
  sortByIdentity : Bool

namespace Collection

/-- The collection in a table, which is created if it is not there. -/
def inTable (store : Store) (schema : Schema) (table : Table) : Except Error (Collection × Store) := do
  let store ← store.ensureTable table
  return (⟨table, schema, store.config.sortByIdentity⟩, store)

/-- The table of this name in the schema that the store puts collections in. -/
def tableNamed (store : Store) (name : String) : Except Error Table := do
  let table ← Table.named name
  match store.config.schema with
  | some s => table.inSchema s
  | none => return table

/-- The collection of this name. -/
def named (store : Store) (schema : Schema) (name : String) : Except Error (Collection × Store) := do
  inTable store schema (← tableNamed store name)

/-! ## Single documents -/

def encode (document : Json) : String := document.canonical.compact

def decode (text : String) : Except Error Json :=
  match Json.read? text with
  | some j => .ok j.canonical
  | none => .error .serialization

/-- Inserts a document under an identity that is not taken. -/
def insert (c : Collection) (store : Store) (id : Guid) (document : Json) : Except Error Store :=
  store.insert c.table ⟨id, encode document⟩

def get? (c : Collection) (store : Store) (id : Guid) : Except Error (Option Json) := do
  match ← store.get? c.table id with
  | some row => return some (← decode row.document)
  | none => return none

def update (c : Collection) (store : Store) (id : Guid) (document : Json) :
    Except Error (Bool × Store) :=
  store.update c.table ⟨id, encode document⟩

def delete (c : Collection) (store : Store) (id : Guid) : Except Error (Bool × Store) :=
  store.delete c.table id

/-! ## Queries -/

def effectiveSorting (c : Collection) (sorting : Sorting) : Sorting :=
  if sorting.isEmpty && c.sortByIdentity then .byIdentity else sorting

def compile (c : Collection) (query : Option Query) (sorting : Sorting) (page : Page) :
    Except Error Compiled :=
  Statement.select c.schema .sqlite c.table query (c.effectiveSorting sorting) page

def decodeRow (row : Row) : Except Error (Guid × Json) := do
  return (row.id, ← decode row.document)

def find (c : Collection) (store : Store) (query : Option Query) (sorting : Sorting) (page : Page) :
    Except Error (List (Guid × Json)) := do
  let compiled ← c.compile query sorting page
  (← store.query compiled).mapM decodeRow

def findAll (c : Collection) (store : Store) : Except Error (List (Guid × Json)) :=
  c.find store none .none .all

def findFirst (c : Collection) (store : Store) (query : Option Query) (sorting : Sorting) :
    Except Error (Option (Guid × Json)) := do
  return (← c.find store query sorting .first).head?

def count (c : Collection) (store : Store) (query : Option Query) : Except Error Nat := do
  store.count (← Statement.count c.schema .sqlite c.table query)

/-- Documents that a predicate text without placeholders selects. -/
def findWhere (c : Collection) (store : Store) (predicate : String) (sorting : Sorting) (page : Page) :
    Except Error (List (Guid × Json)) := do
  c.find store (some (← Query.ofText .empty predicate)) sorting page

def countWhere (c : Collection) (store : Store) (predicate : String) : Except Error Nat := do
  c.count store (some (← Query.ofText .empty predicate))

end Collection

end DocQuery
