/-
  DocQuery.Predicate.Reading — what readers of expressions are given and what they give.

  Parts that stand inside others, operands on the right of an operator and queries in
  parentheses are one level deeper than what they stand in. A reader is given the readers of the
  next level, and all of reading is structural on the levels that are left.
-/

import DocQuery.Predicate.Expr
import DocQuery.Predicate.Operation

namespace DocQuery.Predicate

open DocQuery.Predicate.Tokens

/-- An expression and the tokens after it. -/
abbrev Reading := Option (Expr × Tokens)

/-- What is written, and the tokens after it. -/
abbrev TextReading := Option (String × Tokens)

/-- The readers of the next level. -/
structure Inner where
  /-- There is a next level. -/
  isOpen : Bool
  /-- Reads an expression as far as its operators are stronger than this. -/
  expr : Strength → Tokens → Reading
  /-- Reads a query, of which only the text is kept. -/
  query : Tokens → TextReading

namespace Inner

def closed : Inner := ⟨false, fun _ _ => none, fun _ => none⟩

def weakest (inner : Inner) (ts : Tokens) : Reading := inner.expr .weakest ts

def text (inner : Inner) (strength : Strength) (ts : Tokens) : TextReading :=
  (inner.expr strength ts).map fun (e, ts) => (e.text, ts)

/-- An expression of any kind, as it is written. -/
def any (inner : Inner) (ts : Tokens) : TextReading := inner.text .weakest ts

/-- Expressions with commas between them, as they are written. -/
def list (inner : Inner) (ts : Tokens) : TextReading := commaText inner.any ts

end Inner

/-- A shape of which only the text is kept. -/
def foreign (s : TextReading) : Reading := s.map fun (s, ts) => (.foreign s, ts)

/-- Queries open with one of these words. -/
def opensQuery (ts : Tokens) : Bool := opensWith ["SELECT"] ts || opensWith ["WITH"] ts

end DocQuery.Predicate
