/-
  DocQuery.Predicate.Call — calls of functions: their arguments, and what may follow them.

  An argument is an expression or a star, and may be named. Arguments may be followed by clauses
  on their order and number and on nulls, and the call by the rows it ranges over.
-/

import DocQuery.Predicate.DataType
import DocQuery.Predicate.Reading

namespace DocQuery.Predicate.Call

open DocQuery.Predicate.Tokens

/-! ## Stars -/

/-- What names and points lead to. -/
inductive Star where
  /-- There are no points after the first token. -/
  | absent
  /-- The last point is followed by a name. -/
  | path
  /-- The last point is followed by a star. -/
  | star (text : String) (rest : Tokens)
  /-- A point is followed by something else. -/
  | broken
  deriving DecidableEq, Repr

/-- The names after a point, written behind what stands before it. -/
def starFrom (before : String) : Tokens → Star
  | ⟨.symbol s, _⟩ :: r => if s == "*" then .star (before ++ ".*") r else .broken
  | t :: r =>
    match identifier? [t] with
    | none => .broken
    | some (name, _) => match r with
      | ⟨.symbol ".", _⟩ :: r => starFrom (before ++ "." ++ name) r
      | _ => .path
  | [] => .broken

/-- Looks for a star at the head, alone or after names. -/
def star (ts : Tokens) : Star :=
  match afterSymbol? "*" ts with
  | some r => .star "*" r
  | none => match identifier? ts with
    | none => .absent
    | some (name, r) => match afterSymbol? "." r with
      | none => .absent
      | some r => starFrom name r

/-- A star, or an expression that was read as the second argument says. -/
def starOr (ts : Tokens) (read : TextReading) : TextReading :=
  match star ts with
  | .star s r => some (s, r)
  | .broken => none
  | _ => read

/-! ## Arguments -/

/-- The sign between the name of an argument and the argument. -/
def nameSign? (ts : Tokens) : TextReading :=
  match ts with
  | ⟨.symbol "=>", _⟩ :: r => some ("=>", r)
  | ⟨.symbol ":", _⟩ :: r => some (":", r)
  | ts => oneOf? ["VALUE"] ts

/-- The named form of an argument, if it is one. -/
def namedArgument? (inner : Inner) (read : TextReading) : TextReading := do
  let (name, ts) ← read
  let (sign, ts) ← nameSign? ts
  let (value, ts) ← starOr ts (inner.any ts)
  return (name ++ " " ++ sign ++ " " ++ value, ts)

/-- An argument of a call, which may be named. -/
def argument (inner : Inner) (ts : Tokens) : TextReading :=
  if inner.isOpen then
    let read := inner.any ts
    namedArgument? inner read <|> starOr ts read
  else none

/-- A word before the arguments that says how repeated ones count. -/
def repetition? (ts : Tokens) : TextReading :=
  match keyword? ts with
  | some ("DISTINCT", r) => some ("DISTINCT ", r)
  | some ("ALL", r) => if opensWith ["DISTINCT"] r then none else some ("ALL ", r)
  | _ => some ("", ts)

/-! ## Orders and windows -/

def nullOrder : List (List String) := [["NULLS", "FIRST"], ["NULLS", "LAST"]]

/-- An expression to order by. -/
def ordering (inner : Inner) (ts : Tokens) : TextReading := do
  let (e, ts) ← inner.any ts
  let (direction, ts) := phrase [["ASC"], ["DESC"]] ts
  let (nulls, ts) := phrase nullOrder ts
  return (e ++ direction ++ nulls, ts)

def orderings (inner : Inner) (ts : Tokens) : TextReading := commaText (ordering inner) ts

/-- One end of a frame; `interval` reads a number of rows that opens with a text. -/
def frameBound (inner : Inner) (interval : Tokens → TextReading) (ts : Tokens) : TextReading :=
  match afterKeywords? ["CURRENT", "ROW"] ts with
  | some r => some ("CURRENT ROW", r)
  | none => do
    let (rows, ts) ← match afterKeywords? ["UNBOUNDED"] ts, ts with
      | some r, _ => some ("UNBOUNDED", r)
      | none, ⟨.literal (.text _), _⟩ :: _ => interval ts
      | none, ts => inner.any ts
    let (side, ts) ← oneOf? ["PRECEDING", "FOLLOWING"] ts
    return (rows ++ " " ++ side, ts)

/-- The rows around a row that count. -/
def frame (inner : Inner) (interval : Tokens → TextReading) (ts : Tokens) : TextReading := do
  let (units, ts) ← oneOf? ["ROWS", "RANGE", "GROUPS"] ts
  match afterKeywords? ["BETWEEN"] ts with
  | none =>
    let (start, ts) ← frameBound inner interval ts
    return (units ++ " " ++ start, ts)
  | some ts =>
    let (start, ts) ← frameBound inner interval ts
    let ts ← afterKeywords? ["AND"] ts
    let (stop, ts) ← frameBound inner interval ts
    return (units ++ " BETWEEN " ++ start ++ " AND " ++ stop, ts)

/-- Words that open a part of a window and do not name one. -/
def windowWords : List String := ["PARTITION", "ORDER", "ROWS", "RANGE", "GROUPS"]

def windowName (ts : Tokens) : String × Tokens :=
  match ts with
  | ⟨.word w, _⟩ :: r => if windowWords.contains (Text.upper w) then ("", ts) else (w, r)
  | ⟨.quoted n, _⟩ :: r => (Literal.quoted '"' n, r)
  | _ => ("", ts)

/-- The parts that are there, with spaces between them. -/
def spaced (parts : List String) : String := String.intercalate " " (parts.filter (!·.isEmpty))

/-- A window, from after its opening parenthesis to its closing one. -/
def window (inner : Inner) (interval : Tokens → TextReading) (ts : Tokens) : TextReading := do
  let (name, ts) := windowName ts
  let (parts, ts) ← clause ["PARTITION", "BY"] "PARTITION BY " inner.list ts
  let (order, ts) ← clause ["ORDER", "BY"] "ORDER BY " (orderings inner) ts
  match afterSymbol? ")" ts with
  | some ts => return ("(" ++ spaced [name, parts, order] ++ ")", ts)
  | none =>
    let (frame, ts) ← frame inner interval ts
    let ts ← afterSymbol? ")" ts
    return ("(" ++ spaced [name, parts, order, frame] ++ ")", ts)

/-- A window in parentheses, or the name of one. -/
def windowOrName (inner : Inner) (interval : Tokens → TextReading) (ts : Tokens) : TextReading :=
  match afterSymbol? "(" ts with
  | some r => window inner interval r
  | none => identifier? ts

/-! ## Clauses between the parentheses -/

def nullClauses : List (List String) := [["ABSENT", "ON", "NULL"], ["NULL", "ON", "NULL"]]

/-- Clauses on nulls and on the type of the result. -/
def resultClauses (ts : Tokens) : TextReading := do
  let (nulls, ts) := phrase nullClauses ts
  let (type, ts) ← clause ["RETURNING"] " RETURNING " DataType.text? ts
  return (nulls ++ type, ts)

/-- A text that stands for what was cut off. -/
def filler (inner : Inner) (ts : Tokens) : TextReading :=
  match ts with
  | ⟨.literal (.text _), _⟩ :: _ => inner.any ts
  | ⟨.literal (.marked mark _), _⟩ :: _ => if mark == .bits then none else inner.any ts
  | ts => if opensWith ["WITH"] ts || opensWith ["WITHOUT"] ts then some ("", ts) else none

/-- What happens to a list that grows too long. -/
def overflow (inner : Inner) (ts : Tokens) : TextReading :=
  match afterKeywords? ["ERROR"] ts with
  | some r => some ("ERROR", r)
  | none => do
    let ts ← afterKeywords? ["TRUNCATE"] ts
    let (filler, ts) ← filler inner ts
    let (word, ts) ← oneOf? ["WITH", "WITHOUT"] ts
    let ts ← afterKeywords? ["COUNT"] ts
    return (spaced ["TRUNCATE", filler, word, "COUNT"], ts)

/-- The clauses after the arguments. -/
def argumentClauses (inner : Inner) (ts : Tokens) : TextReading := do
  let (order, ts) ← clause ["ORDER", "BY"] " ORDER BY " (orderings inner) ts
  let (limit, ts) ← clause ["LIMIT"] " LIMIT " inner.any ts
  let (overflow, ts) ← clause ["ON", "OVERFLOW"] " ON OVERFLOW " (overflow inner) ts
  let (result, ts) ← resultClauses ts
  return (order ++ limit ++ overflow ++ result, ts)

/-- The arguments of a call, from after the opening parenthesis to the closing one. -/
def arguments (inner : Inner) (ts : Tokens) : TextReading := do
  let (early, ts) ← resultClauses ts
  match afterSymbol? ")" ts with
  | some ts => return ("(" ++ (early.drop 1).toString ++ ")", ts)
  | none =>
    let (word, ts) ← repetition? ts
    let (items, ts) ← commaText (argument inner) ts
    let (late, ts) ← argumentClauses inner ts
    let ts ← afterSymbol? ")" ts
    return ("(" ++ word ++ items ++ early ++ late ++ ")", ts)

/-! ## What follows a call -/

/-- The order within a group. -/
def groupOrder (inner : Inner) (ts : Tokens) : TextReading :=
  match afterKeywords? ["WITHIN", "GROUP"] ts with
  | none => some ("", ts)
  | some ts => do
    let ts ← afterSymbol? "(" ts
    let ts ← afterKeywords? ["ORDER", "BY"] ts
    let (order, ts) ← orderings inner ts
    let ts ← afterSymbol? ")" ts
    return (" WITHIN GROUP (ORDER BY " ++ order ++ ")", ts)

/-- The rows that count. The word FILTER that is not followed by a whole filter says nothing, and
neither does a parenthesis after it. -/
def rowFilter (inner : Inner) (ts : Tokens) : TextReading :=
  match afterKeywords? ["FILTER"] ts with
  | none => some ("", ts)
  | some ts => match afterSymbol? "(" ts with
    | none => some ("", ts)
    | some ts => match afterKeywords? ["WHERE"] ts with
      | none => some ("", ts)
      | some ts => do
        let (condition, ts) ← inner.any ts
        let ts ← afterSymbol? ")" ts
        return (" FILTER (WHERE " ++ condition ++ ")", ts)

/-- Whether nulls count. -/
def nullTreatment (ts : Tokens) : TextReading :=
  match oneOf? ["RESPECT", "IGNORE"] ts with
  | none => some ("", ts)
  | some (word, ts) => (afterKeywords? ["NULLS"] ts).map (" " ++ word ++ " NULLS", ·)

/-- Everything that may follow the arguments of a call. -/
def suffixes (inner : Inner) (interval : Tokens → TextReading) (ts : Tokens) : TextReading := do
  let (order, ts) ← groupOrder inner ts
  let (filter, ts) ← rowFilter inner ts
  let (nulls, ts) ← nullTreatment ts
  let (window, ts) ← clause ["OVER"] " OVER " (windowOrName inner interval) ts
  return (order ++ filter ++ nulls ++ window, ts)

/-- A call of what is named, from after its opening parenthesis. -/
def ofName (inner : Inner) (interval : Tokens → TextReading) (name : String) (ts : Tokens) :
    TextReading := do
  let (items, ts) ← arguments inner ts
  let (suffixes, ts) ← suffixes inner interval ts
  return (name ++ items ++ suffixes, ts)

end DocQuery.Predicate.Call
