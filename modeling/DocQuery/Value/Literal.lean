/-
  DocQuery.Value.Literal — values as they are written on a command line.

  The blanks around a literal do not count. What reads as `null`, an integer, a finite double,
  a boolean, an instant or a guid is that value, in this order; everything else is text, and
  keeps its blanks.
-/

import DocQuery.Text.Blank
import DocQuery.Text.Fold
import DocQuery.Value.Basic

namespace DocQuery.Value

def null? (s : String) : Option Value :=
  if Text.sameIgnoringCase s "null" then some .null else none

def integer? (s : String) : Option Value := (Decimal.int64? s).map .integer

def finiteFloat? (s : String) : Option Value :=
  ((Decimal.float? s).filter Float.isFinite).map .float

def boolean? (s : String) : Option Value :=
  if s == "true" then some (.boolean true) else if s == "false" then some (.boolean false) else none

def instant? (s : String) : Option Value := (Instant.read? s).map .instant

def guid? (s : String) : Option Value := (Guid.read? s).map .guid

def ofLiteral (text : String) : Value :=
  let s := Text.trim text
  (null? s <|> integer? s <|> finiteFloat? s <|> boolean? s <|> instant? s <|> guid? s).getD
    (.text text)

end DocQuery.Value
