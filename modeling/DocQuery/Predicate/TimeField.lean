/-
  DocQuery.Predicate.TimeField — the parts of instants and intervals that a text can name.

  The known parts are written in capitals. Where any part may stand, other names stay as they
  are.
-/

import DocQuery.Predicate.Cursor

namespace DocQuery.Predicate.TimeField

open DocQuery.Predicate.Tokens

/-- The parts that can follow the value of an interval. -/
def units : List String := [
  "YEAR", "YEARS", "MONTH", "MONTHS", "WEEK", "WEEKS", "DAY", "DAYS", "HOUR", "HOURS", "MINUTE",
  "MINUTES", "SECOND", "SECONDS", "CENTURY", "DECADE", "DOW", "DOY", "EPOCH", "ISODOW", "ISOYEAR",
  "JULIAN", "MICROSECOND", "MICROSECONDS", "MILLENIUM", "MILLENNIUM", "MILLISECOND", "MILLISECONDS",
  "NANOSECOND", "NANOSECONDS", "QUARTER", "TIMEZONE", "TIMEZONE_HOUR", "TIMEZONE_MINUTE"]

def known : List String :=
  units ++ ["DAYOFWEEK", "DAYOFYEAR", "DATE", "DATETIME", "ISOWEEK", "TIME", "TIMEZONE_ABBR",
    "TIMEZONE_REGION"]

def read? (ts : Tokens) : Option (String × Tokens) :=
  match oneOf? known ts with
  | some found => some found
  | none => identifier? ts

/-! ## Ranges of parts -/

/-- The parts of a type of intervals; of two that fit, the first is meant. A part that may open
a range and is followed by TO has to go on as one. -/
def ranges : List (List String) := [
  ["YEAR", "TO", "MONTH"], ["DAY", "TO", "HOUR"], ["DAY", "TO", "MINUTE"], ["DAY", "TO", "SECOND"],
  ["HOUR", "TO", "MINUTE"], ["HOUR", "TO", "SECOND"], ["MINUTE", "TO", "SECOND"]]

def openers : List String := ["YEAR", "DAY", "HOUR", "MINUTE"]

def single : List String := ["MONTH", "SECOND"]

/-- The parts after the word INTERVAL of a type, behind a space. -/
def range? (ts : Tokens) : Option (String × Tokens) :=
  match phrase ranges ts with
  | ("", _) => match oneOf? openers ts with
    | some (w, r) => if opensWith ["TO"] r then none else some (" " ++ w, r)
    | none => some (phrase (single.map ([·])) ts)
  | found => some found

/-- A number in parentheses behind a space, if a parenthesis follows. -/
def precision? (ts : Tokens) : Option (String × Tokens) :=
  (size? ts).map fun (s, ts) => (if s.isEmpty then "" else " " ++ s, ts)

/-- One number or two in parentheses behind a space, if a parenthesis follows. -/
def precisions? (ts : Tokens) : Option (String × Tokens) :=
  match afterSymbol? "(" ts with
  | none => some ("", ts)
  | some ts => do
    let (n, ts) ← natural? ts
    match afterSymbol? "," ts with
    | none =>
      let ts ← afterSymbol? ")" ts
      return (" (" ++ toString n ++ ")", ts)
    | some ts =>
      let (m, ts) ← natural? ts
      let ts ← afterSymbol? ")" ts
      return (" (" ++ toString n ++ ", " ++ toString m ++ ")", ts)

/-- The last part of a range, after its TO; seconds may have a precision of their own. -/
def last? (ts : Tokens) : Option (String × Tokens) := do
  let (w, ts) ← read? ts
  if w == "SECOND" then
    let (size, ts) ← precision? ts
    return (w ++ size, ts)
  else return (w, ts)

/-- What follows the value of an interval: a part with its precision, or a range of parts. -/
def qualifier? (ts : Tokens) : Option (String × Tokens) := do
  let (lead, ts) := match oneOf? units ts with
    | some (w, r) => (" " ++ w, r)
    | none => ("", ts)
  if lead == " SECOND" then
    let (sizes, ts) ← precisions? ts
    return (lead ++ sizes, ts)
  else
    let (size, ts) ← precision? ts
    let (last, ts) ← clause ["TO"] " TO " last? ts
    return (lead ++ size ++ last, ts)

end DocQuery.Predicate.TimeField
