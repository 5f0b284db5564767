/-
  DocQuery.Predicate.Lambda — the head of a lambda.

  A predicate text may open with the name of the document, as in `post => post.Title = 'x'` or
  `(post) => …`. A parenthesis on either side of the name is optional by itself, so one that
  stands alone is accepted too.
-/

import DocQuery.Name
import DocQuery.Text.Blank

namespace DocQuery.Predicate.Lambda

open DocQuery.Text

def skipBlanks (s : List Char) : List Char := s.dropWhile isBlank

/-- Blanks, the given character if it stands next, and blanks. -/
def skipOptional (c : Char) (s : List Char) : List Char :=
  match skipBlanks s with
  | [] => []
  | d :: r => if d == c then skipBlanks r else d :: r

/-- The name in the head, and the text after the arrow and its blanks. -/
def head? (s : List Char) : Option (String × List Char) :=
  match skipOptional '(' s with
  | c :: r =>
    if !Name.isStart c then none
    else match skipOptional ')' (r.dropWhile Name.isPart) with
      | '=' :: '>' :: body => some (String.ofList (c :: r.takeWhile Name.isPart), skipBlanks body)
      | _ => none
  | [] => none

/-- The name, if there is a head, and the body. -/
def split (s : List Char) : Option String × List Char :=
  match head? s with
  | some (name, body) => (some name, body)
  | none => (none, s)

end DocQuery.Predicate.Lambda
