/-
  DocQuery.Predicate.Normalize — one spelling for operators and texts.

  Outside literals `&&`, `||` and `==` become `AND`, `OR` and `=`, and a numeric indexer such as
  `[0]` is left out. A literal in double quotes becomes one in single quotes: a backslash takes
  the next character as it is, and a single quote is doubled. A literal in single quotes is
  copied. A literal that never closes runs to the end.
-/

import DocQuery.Text.Blank

namespace DocQuery.Predicate

open DocQuery.Text

/-- What stands between an opening bracket and the next closing one is a decimal number with
blanks around it. -/
def opensIndexer (afterBracket : List Char) : Bool :=
  let inner := trimChars (afterBracket.takeWhile (· != ']'))
  afterBracket.contains ']' && !inner.isEmpty && inner.all Char.isDigit

/-- Where in a predicate text a character stands. -/
inductive Place where
  | outside
  | single
  | double
  | indexer
  deriving DecidableEq, Repr

def normalizeFrom : Place → List Char → List Char
  | _, [] => []
  | .outside, '\'' :: r => '\'' :: normalizeFrom .single r
  | .outside, '"' :: r => '\'' :: normalizeFrom .double r
  | .outside, '&' :: '&' :: r => ' ' :: 'A' :: 'N' :: 'D' :: ' ' :: normalizeFrom .outside r
  | .outside, '|' :: '|' :: r => ' ' :: 'O' :: 'R' :: ' ' :: normalizeFrom .outside r
  | .outside, '=' :: '=' :: r => '=' :: normalizeFrom .outside r
  | .outside, '[' :: r =>
    if opensIndexer r then normalizeFrom .indexer r else '[' :: normalizeFrom .outside r
  | .outside, c :: r => c :: normalizeFrom .outside r
  | .single, '\'' :: r => '\'' :: normalizeFrom .outside r
  | .single, c :: r => c :: normalizeFrom .single r
  | .double, '"' :: r => '\'' :: normalizeFrom .outside r
  | .double, '\\' :: c :: r => c :: normalizeFrom .double r
  | .double, '\'' :: r => '\'' :: '\'' :: normalizeFrom .double r
  | .double, c :: r => c :: normalizeFrom .double r
  | .indexer, ']' :: r => normalizeFrom .outside r
  | .indexer, _ :: r => normalizeFrom .indexer r

def normalize (s : List Char) : List Char := normalizeFrom .outside s

end DocQuery.Predicate
