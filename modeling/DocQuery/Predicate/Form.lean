/-
  DocQuery.Predicate.Form — operands that are told by the word they open with.

  Functions with words between their arguments, case distinctions, casts and intervals. Each
  reader starts after the opening word. No predicate can use any of them, so only their text is
  kept.
-/

import DocQuery.Predicate.Call

namespace DocQuery.Predicate.Form

open DocQuery.Predicate.Tokens

/-! ## Case distinctions -/

/-- A condition and its result, and those after it; each takes a token at least. -/
def branches (inner : Inner) : Nat → Tokens → TextReading
  | 0, _ => none
  | fuel + 1, ts => do
    let ts ← afterKeywords? ["WHEN"] ts
    let (condition, ts) ← inner.any ts
    let ts ← afterKeywords? ["THEN"] ts
    let (result, ts) ← inner.any ts
    let first := " WHEN " ++ condition ++ " THEN " ++ result
    if opensWith ["WHEN"] ts then
      let (others, ts) ← branches inner fuel ts
      return (first ++ others, ts)
    else return (first, ts)

/-- What the branches are compared with, if they are not conditions. -/
def scrutinee (inner : Inner) (ts : Tokens) : TextReading :=
  if opensWith ["WHEN"] ts then some ("", ts)
  else (inner.any ts).map fun (s, ts) => (" " ++ s, ts)

def distinction (inner : Inner) (ts : Tokens) : TextReading := do
  let (scrutinee, ts) ← scrutinee inner ts
  let (branches, ts) ← branches inner ts.length ts
  let (other, ts) ← clause ["ELSE"] " ELSE " inner.any ts
  let ts ← afterKeywords? ["END"] ts
  return ("CASE" ++ scrutinee ++ branches ++ other ++ " END", ts)

/-! ## Functions with words between their arguments -/

/-- A function whose arguments a reader reads between the parentheses. -/
def function (name : String) (body : Tokens → TextReading) (ts : Tokens) : TextReading :=
  (enclosed body ts).map fun (s, ts) => (name ++ "(" ++ s ++ ")", ts)

def extractBody (inner : Inner) (ts : Tokens) : TextReading := do
  let (field, ts) ← TimeField.read? ts
  let ts ← afterKeywords? ["FROM"] ts
  let (e, ts) ← inner.any ts
  return (field ++ " FROM " ++ e, ts)

/-- An expression, rounded to a part of an instant or to a number of places. -/
def roundBody (inner : Inner) (ts : Tokens) : TextReading := do
  let (e, ts) ← inner.any ts
  match afterKeywords? ["TO"] ts, afterSymbol? "," ts with
  | some ts, _ => (TimeField.read? ts).map fun (field, ts) => (e ++ " TO " ++ field, ts)
  | none, none => return (e, ts)
  | none, some ts => match ← value? ts with
    | (.number digits long, ts) => return (e ++ ", " ++ Literal.numberText digits long, ts)
    | _ => none

def positionBody (inner : Inner) (ts : Tokens) : TextReading := do
  let (e, ts) ← inner.text .membership ts
  let ts ← afterKeywords? ["IN"] ts
  let (whole, ts) ← inner.any ts
  return (e ++ " IN " ++ whole, ts)

/-- Where the part ends, after a comma or the word FOR. -/
def substringEnd (inner : Inner) (lead : String) (ts : Tokens) : TextReading :=
  match afterKeywords? ["FOR"] ts, afterSymbol? "," ts with
  | none, none => some ("", ts)
  | some r, _ => (inner.any r).map fun (s, ts) => (lead ++ s, ts)
  | none, some r => (inner.any r).map fun (s, ts) => (lead ++ s, ts)

/-- Part of a text. A comma before its beginning decides how both bounds are written. -/
def substringBody (inner : Inner) (ts : Tokens) : TextReading := do
  let (e, ts) ← inner.any ts
  match afterSymbol? "," ts with
  | some ts =>
    let (start, ts) ← inner.any ts
    let (stop, ts) ← substringEnd inner ", " ts
    return (e ++ ", " ++ start ++ stop, ts)
  | none =>
    let (start, ts) ← clause ["FROM"] " FROM " inner.any ts
    let (stop, ts) ← substringEnd inner " FOR " ts
    return (e ++ start ++ stop, ts)

def overlayBody (inner : Inner) (ts : Tokens) : TextReading := do
  let (e, ts) ← inner.any ts
  let ts ← afterKeywords? ["PLACING"] ts
  let (part, ts) ← inner.any ts
  let ts ← afterKeywords? ["FROM"] ts
  let (start, ts) ← inner.any ts
  let (length, ts) ← clause ["FOR"] " FOR " inner.any ts
  return (e ++ " PLACING " ++ part ++ " FROM " ++ start ++ length, ts)

def trimSides : List (List String) := [["BOTH"], ["LEADING"], ["TRAILING"]]

/-- What is trimmed, and what is cut off it. A comma at the end says nothing. -/
def trimBody (inner : Inner) (ts : Tokens) : TextReading := do
  let (side, ts) := phrase trimSides ts
  let lead := if side.isEmpty then "" else (side.drop 1).toString ++ " "
  let (e, ts) ← inner.any ts
  match afterKeywords? ["FROM"] ts with
  | some ts => (inner.any ts).map fun (whole, ts) => (lead ++ e ++ " FROM " ++ whole, ts)
  | none => return (lead ++ e, (afterSymbol? "," ts).getD ts)

/-- A value in another character set, or of another type. -/
def convertBody (inner : Inner) (ts : Tokens) : TextReading := do
  let (e, ts) ← inner.any ts
  match afterKeywords? ["USING"] ts with
  | some ts => (qualifiedName? ts).map fun (set, ts) => (e ++ " USING " ++ set, ts)
  | none =>
    let ts ← afterSymbol? "," ts
    let (type, ts) ← DataType.text? ts
    let (set, ts) ← clause ["CHARACTER", "SET"] " CHARACTER SET " qualifiedName? ts
    return (e ++ ", " ++ type ++ set, ts)

def valueText (ts : Tokens) : TextReading := (value? ts).map fun (l, ts) => (l.written, ts)

def castFormat (ts : Tokens) : TextReading := do
  let (format, ts) ← valueText ts
  let (zone, ts) ← clause ["AT", "TIME", "ZONE"] " AT TIME ZONE " valueText ts
  return (format ++ zone, ts)

def castBody (inner : Inner) (ts : Tokens) : TextReading := do
  let (e, ts) ← inner.any ts
  let ts ← afterKeywords? ["AS"] ts
  let (type, ts) ← DataType.text? ts
  let (format, ts) ← clause ["FORMAT"] " FORMAT " castFormat ts
  return (e ++ " AS " ++ type ++ format, ts)

/-! ## Other operands -/

/-- The value of an interval, which `operand` reads, and what follows it. -/
def interval (operand : Tokens → Reading) (ts : Tokens) : TextReading := do
  let (value, ts) ← operand ts
  let (qualifier, ts) ← TimeField.qualifier? ts
  return ("INTERVAL " ++ value.text ++ qualifier, ts)

def existence (inner : Inner) (ts : Tokens) : TextReading :=
  (enclosed inner.query ts).map fun (s, ts) => ("EXISTS (" ++ s ++ ")", ts)

/-- What follows NOT: the test for existence, or any expression stronger than NOT. -/
def negation (inner : Inner) (ts : Tokens) : TextReading :=
  match afterKeywords? ["EXISTS"] ts with
  | some r => (existence inner r).map fun (s, ts) => ("NOT " ++ s, ts)
  | none => (inner.text .not ts).map fun (s, ts) => ("NOT " ++ s, ts)

/-- Items between brackets, from after the opening one. -/
def array (inner : Inner) (word : String) (ts : Tokens) : TextReading :=
  match afterSymbol? "]" ts with
  | some r => some (word ++ "[]", r)
  | none => do
    let (items, ts) ← inner.list ts
    let ts ← afterSymbol? "]" ts
    return (word ++ "[" ++ items ++ "]", ts)

/-- The words that mark a literal in braces. -/
def braceMarks : List String := ["t", "d", "ts"]

def bracedCall (inner : Inner) (interval : Tokens → TextReading) (ts : Tokens) : TextReading := do
  let ts ← afterKeywords? ["FN"] ts
  let (name, ts) ← qualifiedName? ts
  let ts ← afterSymbol? "(" ts
  let (s, ts) ← Call.ofName inner interval name ts
  return ("fn " ++ s, ts)

def bracedLiteral (ts : Tokens) : TextReading :=
  match ts with
  | ⟨.word w, _⟩ :: r =>
    if braceMarks.contains w then (valueText r).map fun (s, ts) => (w ++ " " ++ s, ts) else none
  | _ => none

/-- A call or a literal in braces, from after the opening one. -/
def braced (inner : Inner) (interval : Tokens → TextReading) (ts : Tokens) : TextReading := do
  let (body, ts) ← bracedCall inner interval ts <|> bracedLiteral ts
  let ts ← afterSymbol? "\x7d" ts
  return ("\x7b" ++ body ++ "\x7d", ts)

end DocQuery.Predicate.Form
