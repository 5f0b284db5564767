/-
  DocQuery.Path.Segment — one step of a dotted path.

  A segment is a name with blanks around it, and after the name optionally an indexer: an
  opening bracket, decimal digits of any script, a closing bracket, blanks wherever a part
  ends. The indexer is accepted and says nothing: an array always stands for all its elements.
-/

import DocQuery.Name
import DocQuery.Text.Blank
import DocQuery.Text.Digit

namespace DocQuery.Path

open DocQuery.Text

def skipBlanks (s : List Char) : List Char := s.dropWhile isBlank

/-- What stands after an indexer's opening bracket is digits, the closing bracket and blanks. -/
def closesIndexer (s : List Char) : Bool :=
  let digits := skipBlanks s
  !(digits.takeWhile isDecimalDigit).isEmpty &&
    match skipBlanks (digits.dropWhile isDecimalDigit) with
    | ']' :: r => (skipBlanks r).isEmpty
    | _ => false

/-- Nothing but blanks, or blanks and an indexer. -/
def endsSegment (s : List Char) : Bool :=
  match skipBlanks s with
  | [] => true
  | '[' :: r => closesIndexer r
  | _ => false

/-- The name in a segment. -/
def segmentName? (segment : List Char) : Option String :=
  match skipBlanks segment with
  | c :: r =>
    if Name.isStart c && endsSegment (r.dropWhile Name.isPart) then
      some (String.ofList (c :: r.takeWhile Name.isPart))
    else none
  | [] => none

end DocQuery.Path
