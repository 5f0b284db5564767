/-
  DocQuery.Statement.Text — statements as text, one clause a line.

  SELECT, FROM, the joins, WHERE, and for rows GROUP BY, ORDER BY and paging. With joins, rows
  are grouped by identity, document and the elements of the grouped joins, so that a document
  appears once for each combination of elements that its sort keys see.
-/

import DocQuery.Dialect
import DocQuery.Statement.Basic

namespace DocQuery

/-- The alias of the document table. -/
def tableAlias : String := "_doc"

def identityColumn : String := "_doc._id"

def documentColumn : String := "_doc._document"

def Table.text (t : Table) (d : Dialect) : String := d.tableName t.name t.schema

namespace Statement

def Source.text (d : Dialect) : Source → String
  | .document => documentColumn
  | .element label => d.element label

def Location.text (d : Dialect) (l : Location) : String := d.extract (l.source.text d) l.path

def Location.typedText (d : Dialect) (l : Location) (s : Scalar) : String := d.castScalar (l.text d) s

def nullTest (negated : Bool) : String := if negated then "IS NOT NULL" else "IS NULL"

def memberTest (negated : Bool) : String := if negated then "NOT IN" else "IN"

def Condition.text (d : Dialect) : Condition → String
  | .identityNull negated => identityColumn ++ " " ++ nullTest negated
  | .identityCompare c i => identityColumn ++ " " ++ c.symbol ++ " " ++ d.placeholder i
  | .isNull negated place => place.text d ++ " " ++ nullTest negated
  | .compare c place type i => place.typedText d type ++ " " ++ c.symbol ++ " " ++ d.placeholder i
  | .member negated place type i => d.placeholder i ++ " " ++ memberTest negated ++ " (" ++
      d.valueSet (place.source.text d) place.path type ++ ")"
  | .binary c left right => "(" ++ left.text d ++ ") " ++ c.keyword ++ " (" ++ right.text d ++ ")"

def Order.text (d : Dialect) : Order → String
  | .identity direction => identityColumn ++ " " ++ direction.keyword
  | .field place type direction => place.typedText d type ++ " " ++ direction.keyword

def ArrayJoin.text (d : Dialect) (j : ArrayJoin) : String :=
  d.crossApply (j.array.source.text d) j.array.path j.label

def selectLine : Shape → String
  | .documents => "SELECT " ++ identityColumn ++ ", " ++ documentColumn
  | .count => "SELECT COUNT(DISTINCT " ++ identityColumn ++ ")"

def fromLine (d : Dialect) (t : Table) : String := "FROM " ++ t.text d ++ " " ++ tableAlias

def whereLines (d : Dialect) : Option Condition → List String
  | some c => ["WHERE (" ++ c.text d ++ ")"]
  | none => []

/-- The elements that tell rows of one document apart. -/
def groupElements (d : Dialect) (joins : List ArrayJoin) : List String :=
  (joins.filter (·.grouped)).map fun j => d.element j.label

def groupLines (d : Dialect) (joins : List ArrayJoin) : List String :=
  if joins.isEmpty then []
  else ["GROUP BY " ++
    String.intercalate ", " (identityColumn :: documentColumn :: groupElements d joins)]

def orderLines (d : Dialect) (order : List Order) : List String :=
  if order.isEmpty then [] else ["ORDER BY " ++ String.intercalate ", " (order.map (Order.text d))]

/-- What only a statement for rows has. -/
def rowLines (d : Dialect) (s : Statement) : List String :=
  match s.shape with
  | .documents =>
    groupLines d s.joins ++ orderLines d s.order ++ d.paging s.page (!s.order.isEmpty)
  | .count => []

def lines (d : Dialect) (s : Statement) : List String :=
  selectLine s.shape :: fromLine d s.table :: s.joins.map (ArrayJoin.text d) ++
    whereLines d s.condition ++ rowLines d s

def text (d : Dialect) (s : Statement) : String := String.intercalate "\n" (s.lines d)

end Statement

end DocQuery
