/-
  DocQuery.Query.Sorting — sort keys, most significant first. The identity of a row sorts
  under the reserved name `_id`.
-/

import DocQuery.Error
import DocQuery.Text.Blank

namespace DocQuery

/-- The reserved field name of a row's identity. -/
def identityField : String := "_id"

inductive Direction where
  | ascending
  | descending
  deriving DecidableEq, Repr

namespace Direction

def keyword : Direction → String
  | ascending => "ASC"
  | descending => "DESC"

end Direction

structure SortKey where
  field : String
  direction : Direction
  deriving DecidableEq, Repr

namespace SortKey

def checked (field : String) (direction : Direction) : Except Error SortKey :=
  if Text.allBlank field then .error (.argument .blankSortField) else .ok ⟨field, direction⟩

def identity (direction : Direction) : SortKey := ⟨identityField, direction⟩

def isIdentity (k : SortKey) : Bool := k.field == identityField

def display (k : SortKey) : String := k.field ++ " " ++ k.direction.keyword

end SortKey

structure Sorting where
  keys : List SortKey
  deriving DecidableEq, Repr

namespace Sorting

def none : Sorting := ⟨[]⟩

def isEmpty (s : Sorting) : Bool := s.keys.isEmpty

def push (s : Sorting) (k : SortKey) : Sorting := ⟨s.keys ++ [k]⟩

def thenBy (s : Sorting) (field : String) (direction : Direction) : Except Error Sorting :=
  (SortKey.checked field direction).map s.push

def thenByIdentity (s : Sorting) (direction : Direction) : Sorting := s.push (.identity direction)

def byIdentity : Sorting := none.thenByIdentity .ascending

end Sorting

end DocQuery
