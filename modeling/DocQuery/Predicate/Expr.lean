/-
  DocQuery.Predicate.Expr — expressions, as far as a predicate can use them.

  Names, member access, literals, parentheses, a minus sign, connectives, comparisons and null
  tests keep their structure. Every other shape a text may have is kept as it is written, since
  nothing but its text is ever wanted.
-/

import DocQuery.Predicate.Token
import DocQuery.Query.Basic

namespace DocQuery.Predicate

inductive Expr where
  | name (text : String) (quote : Option Char)
  | member (base part : Expr)
  | index (base subscript : Expr)
  /-- A subscript with bounds, which are kept as text. -/
  | slice (base : Expr) (bounds : String)
  | literal (l : Literal)
  | nested (inner : Expr)
  | negative (operand : Expr)
  | connective (c : Connective) (left right : Expr)
  | comparison (c : Comparison) (left right : Expr)
  | isNull (operand : Expr)
  | isNotNull (operand : Expr)
  /-- A call with its arguments, whose name can be extended to the left. -/
  | call (text : String)
  /-- A query, with its parentheses. -/
  | subquery (text : String)
  | foreign (text : String)
  deriving DecidableEq, Repr

namespace Expr

def nameText (text : String) : Option Char → String
  | some quote => Literal.quoted quote text
  | none => text

/-- The expression as it is written: one space around operators, keywords in capitals. -/
def text : Expr → String
  | name s quote => nameText s quote
  | member base part => base.text ++ "." ++ part.text
  | index base subscript => base.text ++ "[" ++ subscript.text ++ "]"
  | slice base bounds => base.text ++ "[" ++ bounds ++ "]"
  | literal l => l.written
  | nested inner => "(" ++ inner.text ++ ")"
  | negative operand => "-" ++ operand.text
  | connective c left right => left.text ++ " " ++ c.keyword ++ " " ++ right.text
  | comparison c left right => left.text ++ " " ++ c.symbol ++ " " ++ right.text
  | isNull operand => operand.text ++ " IS NULL"
  | isNotNull operand => operand.text ++ " IS NOT NULL"
  | call s => s
  | subquery s => s
  | foreign s => s

/-- A chain of names and nothing else. -/
def isPath : Expr → Bool
  | name _ _ => true
  | member base (name _ _) => base.isPath
  | _ => false

/-- Names and access to members or elements, whatever they are taken from. -/
def isField : Expr → Bool
  | name _ _ => true
  | member _ _ => true
  | index _ _ => true
  | slice _ _ => true
  | _ => false

/-- What stands after a point, taken as access to the base from left to right. -/
def graft (base : Expr) : Expr → Expr
  | member b part => member (graft base b) part
  | index b subscript => index (graft base b) subscript
  | slice b bounds => slice (graft base b) bounds
  | e => member base e

/-- A call at the end of a chain of names is a call of the whole chain. -/
def settle : Expr → Expr
  | member base (call s) => if base.isPath then call (base.text ++ "." ++ s) else member base (call s)
  | e => e

def commaSeparated (es : List Expr) : String := String.intercalate ", " (es.map text)

end Expr

end DocQuery.Predicate
