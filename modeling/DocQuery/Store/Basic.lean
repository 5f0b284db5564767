/-
  DocQuery.Store.Basic — tables of documents.

  A store has tables in two spaces, one that lasts and one that goes when the store closes.
  A table's name counts without its letter case. A name without a schema is looked for in the
  temporary space first, and created in the other. Operations on a table that is not there,
  and rows whose identity is taken, are refused. A table with the name of the function that
  lists an array's members hides the function, and statements that need it are refused.
-/

import DocQuery.Store.Config
import DocQuery.Store.Limits
import DocQuery.Store.Selection

namespace DocQuery

namespace Store

inductive Space where
  | main
  | temporary
  deriving DecidableEq, Repr

def Space.ofName? (schema : String) : Option Space :=
  match Text.lower schema with
  | "main" => some .main
  | "temp" => some .temporary
  | _ => none

/-- A table's place: a space and a name in lower case. -/
structure Key where
  space : Space
  name : String
  deriving DecidableEq, Repr

/-- A table's rows, in the order they were inserted. -/
structure Relation where
  key : Key
  rows : List Row
  deriving DecidableEq, Repr

end Store

structure Store where
  config : Store.Config
  relations : List Store.Relation
  /-- Milliseconds since time is counted; a clock that shows 0 is not running. -/
  clock : Nat

namespace Store

def empty (config : Config) : Store := ⟨config, [], 0⟩

/-- Closed and opened again: a file keeps the tables of the lasting space. -/
def reopen (s : Store) : Store :=
  match s.config.file with
  | some _ => { s with relations := s.relations.filter (·.key.space == .main) }
  | none => { s with relations := [] }

/-! ## Tables -/

def find? (s : Store) (key : Key) : Option Relation := s.relations.find? (·.key == key)

/-- The spaces a table is looked for in, first to last. -/
def spaces (t : Table) : List Space :=
  match t.schema with
  | none => [.temporary, .main]
  | some schema => (Space.ofName? schema).toList

/-- The table's relation. -/
def relation (s : Store) (t : Table) : Except Error Relation :=
  match (spaces t).findSome? fun space => s.find? ⟨space, Text.lower t.name⟩ with
  | some r => .ok r
  | none => .error .storage

/-- Where a table of this name is created; the engine keeps some names to itself. -/
def creationKey (t : Table) : Except Error Key :=
  let name := Text.lower t.name
  let space := match t.schema with
    | none => some .main
    | some schema => Space.ofName? schema
  match space with
  | some space => if "sqlite_".toList.isPrefixOf name.toList then .error .storage else .ok ⟨space, name⟩
  | none => .error .storage

/-- Creates the table if there is none of its name. -/
def ensureTable (s : Store) (t : Table) : Except Error Store := do
  let key ← creationKey t
  return if (s.find? key).isSome then s else { s with relations := s.relations ++ [⟨key, []⟩] }

def setRows (s : Store) (key : Key) (rows : List Row) : Store :=
  { s with relations := s.relations.map fun r => if r.key == key then ⟨key, rows⟩ else r }

/-! ## Rows -/

def insert (s : Store) (t : Table) (row : Row) : Except Error Store := do
  let r ← s.relation t
  if r.rows.any (·.id == row.id) then throw .storage
  return s.setRows r.key (r.rows ++ [row])

def get? (s : Store) (t : Table) (id : Guid) : Except Error (Option Row) := do
  let r ← s.relation t
  return r.rows.find? (·.id == id)

/-- Puts the row in the place of the one with its identity, and says whether there is one. -/
def update (s : Store) (t : Table) (row : Row) : Except Error (Bool × Store) := do
  let r ← s.relation t
  return (r.rows.any (·.id == row.id),
    s.setRows r.key (r.rows.map fun old => if old.id == row.id then row else old))

/-- Takes the row away, and says whether there was one. -/
def delete (s : Store) (t : Table) (id : Guid) : Except Error (Bool × Store) := do
  let r ← s.relation t
  return (r.rows.any (·.id == id), s.setRows r.key (r.rows.filter (·.id != id)))

/-! ## Statements -/

def cells (c : Compiled) : List Cell := c.parameters.map Cell.ofValue

/-- No table hides the function that lists an array's members. -/
def SeesMembers (s : Store) : Prop := ∀ r ∈ s.relations, r.key.name ≠ Statement.membersFunction

instance (s : Store) : Decidable s.SeesMembers :=
  inferInstanceAs (Decidable (∀ r ∈ s.relations, r.key.name ≠ Statement.membersFunction))

/-- The engine takes the statement, and what lists members is not hidden from it. -/
structure Admits (s : Store) (c : Compiled) : Prop where
  fits : c.statement.Fits c.parameters.length
  seen : c.statement.listsMembers = true → s.SeesMembers

instance (s : Store) (c : Compiled) : Decidable (s.Admits c) :=
  decidable_of_iff (c.statement.Fits c.parameters.length ∧ (c.statement.listsMembers = true → s.SeesMembers))
    ⟨fun h => ⟨h.1, h.2⟩, fun h => ⟨h.fits, h.seen⟩⟩

/-- The table that an admitted statement reads. -/
def target (s : Store) (c : Compiled) : Except Error Relation :=
  if s.Admits c then s.relation c.statement.table else .error .storage

def query (s : Store) (c : Compiled) : Except Error (List Row) := do
  let r ← s.target c
  c.statement.rows s.clock (cells c) r.rows

def count (s : Store) (c : Compiled) : Except Error Nat := do
  let r ← s.target c
  c.statement.total s.clock (cells c) r.rows

end Store

end DocQuery
