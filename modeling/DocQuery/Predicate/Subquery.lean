/-
  DocQuery.Predicate.Subquery — queries inside a predicate.

  A predicate can hold a query where a value is expected, but none can be used, so only its text
  is kept: one space between its parts, keywords in capitals.
-/

import DocQuery.Predicate.Form

namespace DocQuery.Predicate.Subquery

open DocQuery.Predicate.Tokens

/-! ## Other names -/

/-- Words that end a query or go on with it, and name nothing without AS. -/
def endingWords : List String := [
  "WITH", "EXPLAIN", "ANALYZE", "SELECT", "WHERE", "GROUP", "SORT", "HAVING", "ORDER", "TOP",
  "LATERAL", "VIEW", "LIMIT", "OFFSET", "FETCH", "UNION", "EXCEPT", "INTERSECT", "MINUS", "CLUSTER",
  "DISTRIBUTE", "RETURNING", "END", "FROM"]

/-- Words that cannot be another name of a column. -/
def notColumn : List String := endingWords ++ ["EXCLUDE", "INTO"]

/-- Words that cannot be another name of a table. -/
def notTable : List String := endingWords ++ [
  "PIVOT", "UNPIVOT", "ON", "JOIN", "INNER", "CROSS", "FULL", "LEFT", "RIGHT", "NATURAL", "USING",
  "GLOBAL", "ANTI", "SEMI", "ASOF", "MATCH_CONDITION", "OUTER", "SET", "QUALIFY", "WINDOW", "FOR",
  "PARTITION", "PREWHERE", "SETTINGS", "FORMAT", "START", "CONNECT", "MATCH_RECOGNIZE", "SAMPLE",
  "TABLESAMPLE", "OPEN"]

/-- A name without AS in front. -/
def bareName? (reserved : List String) (ts : Tokens) : TextReading :=
  match keyword? ts with
  | some (w, _) => if reserved.contains w then none else identifier? ts
  | none => identifier? ts

/-- Another name, if one follows. -/
def otherName (reserved : List String) (ts : Tokens) : TextReading :=
  match afterKeywords? ["AS"] ts with
  | some r => (identifier? r).map fun (n, ts) => (" AS " ++ n, ts)
  | none => match bareName? reserved ts with
    | some (n, ts) => some (" AS " ++ n, ts)
    | none => some ("", ts)

/-- The name of a column, which may have a type. -/
def column? (ts : Tokens) : TextReading := do
  let (name, ts) ← identifier? ts
  match DataType.text? ts with
  | some (type, ts) => return (name ++ " " ++ type, ts)
  | none => return (name, ts)

/-- Names of columns in parentheses, if a parenthesis follows. -/
def columns? (ts : Tokens) : TextReading :=
  if (afterSymbol? "(" ts).isSome then
    (enclosed (commaText column?) ts).map fun (s, ts) => (" (" ++ s ++ ")", ts)
  else some ("", ts)

/-- Another name of a table, with names of its columns. -/
def tableName (ts : Tokens) : TextReading := do
  let (name, ts) ← otherName notTable ts
  if name.isEmpty then return ("", ts)
  else
    let (columns, ts) ← columns? ts
    return (name ++ columns, ts)

/-! ## Tables -/

/-- A table in a list of tables, and whether it is a join in parentheses. -/
structure Source where
  text : String
  nested : Bool
  rest : Tokens

def named (text : String) (nested : Bool) (ts : Tokens) : Option Source :=
  (tableName ts).map fun (name, ts) => ⟨text ++ name, nested, ts⟩

/-- A query in parentheses, from after the opening one. -/
def derived (inner : Inner) (lead : String) (ts : Tokens) : Option Source := do
  let (s, ts) ← inner.query ts
  let ts ← afterSymbol? ")" ts
  named (lead ++ "(" ++ s ++ ")") false ts

/-- Arguments of a function that gives a table, from after the opening parenthesis. -/
def tableArguments (inner : Inner) (ts : Tokens) : TextReading :=
  match afterSymbol? ")" ts with
  | some r => some ("()", r)
  | none => do
    let (items, ts) ← commaText (Call.argument inner) ts
    let ts ← afterSymbol? ")" ts
    return ("(" ++ items ++ ")", ts)

def lateral (inner : Inner) (ts : Tokens) : Option Source :=
  match afterSymbol? "(" ts with
  | some r => derived inner "LATERAL " r
  | none => do
    let (name, ts) ← qualifiedName? ts
    let ts ← afterSymbol? "(" ts
    let (items, ts) ← tableArguments inner ts
    named ("LATERAL " ++ name ++ items) false ts

def unnested (inner : Inner) (ts : Tokens) : Option Source := do
  let (s, ts) ← enclosed inner.list ts
  let (ordinality, ts) := phrase [["WITH", "ORDINALITY"]] ts
  named ("UNNEST(" ++ s ++ ")" ++ ordinality) false ts

def plainTable (inner : Inner) (ts : Tokens) : Option Source := do
  let (name, ts) ← qualifiedName? ts
  let (items, ts) ← match afterSymbol? "(" ts with
    | some r => tableArguments inner r
    | none => some ("", ts)
  let (ordinality, ts) := phrase [["WITH", "ORDINALITY"]] ts
  named (name ++ items ++ ordinality) false ts

/-- The words of a join with a condition, and how they are written. -/
def joinWords : List (List String × String) := [
  (["INNER", "JOIN"], "INNER JOIN"), (["JOIN"], "JOIN"), (["LEFT", "OUTER", "JOIN"], "LEFT OUTER JOIN"),
  (["LEFT", "SEMI", "JOIN"], "LEFT SEMI JOIN"), (["LEFT", "ANTI", "JOIN"], "LEFT ANTI JOIN"),
  (["LEFT", "JOIN"], "LEFT JOIN"), (["RIGHT", "OUTER", "JOIN"], "RIGHT OUTER JOIN"),
  (["RIGHT", "SEMI", "JOIN"], "RIGHT SEMI JOIN"), (["RIGHT", "ANTI", "JOIN"], "RIGHT ANTI JOIN"),
  (["RIGHT", "JOIN"], "RIGHT JOIN"), (["ANTI", "JOIN"], "ANTI JOIN"), (["SEMI", "JOIN"], "SEMI JOIN"),
  (["FULL", "OUTER", "JOIN"], "FULL JOIN"), (["FULL", "JOIN"], "FULL JOIN"),
  (["STRAIGHT_JOIN"], "STRAIGHT_JOIN")]

/-- The words of a join without a condition. -/
def freeJoinWords : List (List String × String) := [
  (["CROSS", "JOIN"], "CROSS JOIN"), (["CROSS", "APPLY"], "CROSS APPLY"),
  (["OUTER", "APPLY"], "OUTER APPLY")]

/-- Words that open a join and nothing else. -/
def joinOpeners : List String := [
  "INNER", "JOIN", "LEFT", "RIGHT", "ANTI", "SEMI", "FULL", "OUTER", "CROSS", "STRAIGHT_JOIN"]

def words? (table : List (List String × String)) (ts : Tokens) : TextReading :=
  table.findSome? fun (words, spelling) => (afterKeywords? words ts).map (spelling, ·)

/-- What the rows of a join have in common. -/
def joinCondition (inner : Inner) (ts : Tokens) : TextReading :=
  match afterKeywords? ["ON"] ts with
  | some r => (inner.any r).map fun (s, ts) => (" ON " ++ s, ts)
  | none => clause ["USING"] " USING" (Form.function "" (commaText qualifiedName?)) ts

def conditionalJoin (inner : Inner) (source : Tokens → Option Source) (natural : Bool) (ts : Tokens) :
    TextReading := do
  let (words, ts) ← words? joinWords ts
  let right ← source ts
  if natural then return ("NATURAL " ++ words ++ " " ++ right.text, right.rest)
  else
    let (condition, ts) ← joinCondition inner right.rest
    return (words ++ " " ++ right.text ++ condition, ts)

/-- The next join, if one follows. -/
def join? (inner : Inner) (source : Tokens → Option Source) (ts : Tokens) : Option TextReading :=
  match words? freeJoinWords ts with
  | some (words, r) => some ((source r).map fun right => (words ++ " " ++ right.text, right.rest))
  | none =>
    let (natural, r) := skip ["NATURAL"] ts
    if natural || (oneOf? joinOpeners r).isSome then some (conditionalJoin inner source natural r)
    else none

/-- Joins as long as there are any; each takes a token at least. -/
def joins (inner : Inner) (source : Tokens → Option Source) : Nat → Tokens → TextReading
  | 0, ts => some ("", ts)
  | fuel + 1, ts =>
    match join? inner source ts with
    | none => some ("", ts)
    | some first => do
      let (first, ts) ← first
      let (others, ts) ← joins inner source fuel ts
      return (" " ++ first ++ others, ts)

/-- A table and what is joined to it. -/
def joined (inner : Inner) (source : Tokens → Option Source) (ts : Tokens) : Option Source := do
  let first ← source ts
  let (others, ts) ← joins inner source first.rest.length first.rest
  return ⟨first.text ++ others, first.nested || !others.isEmpty, ts⟩

/-- A join in parentheses, from after the opening one. -/
def nestedJoin (inner : Inner) (source : Tokens → Option Source) (ts : Tokens) : Option Source := do
  let content ← joined inner source ts
  if content.nested then
    let ts ← afterSymbol? ")" content.rest
    named ("(" ++ content.text ++ ")") true ts
  else none

/-- A table; joins in parentheses may stand in one another as often as there is fuel. -/
def source (inner : Inner) : Nat → Tokens → Option Source
  | 0, _ => none
  | fuel + 1, ts =>
    match oneOf? ["LATERAL", "TABLE", "UNNEST"] ts, afterSymbol? "(" ts with
    | some ("LATERAL", r), _ => lateral inner r
    | some ("TABLE", r), _ => do
      let (s, r) ← Form.function "TABLE" inner.any r
      named s false r
    | some (_, r), _ => unnested inner r
    | none, some r => derived inner "" r <|> nestedJoin inner (source inner fuel) r
    | none, none => plainTable inner ts

def tables (inner : Inner) (ts : Tokens) : TextReading :=
  commaText (fun ts => (joined inner (source inner ts.length) ts).map fun s => (s.text, s.rest)) ts

/-! ## Selections -/

/-- A star, or an expression that may be given another name. -/
def item (inner : Inner) (ts : Tokens) : TextReading :=
  match Call.star ts with
  | .star s r => some (s, r)
  | .broken => none
  | _ => do
    let (e, ts) ← inner.any ts
    let (name, ts) ← otherName notColumn ts
    return (e ++ name, ts)

/-- The columns, behind a space; there may be none before FROM. -/
def columns (inner : Inner) (ts : Tokens) : TextReading :=
  if opensWith ["FROM"] ts then some ("", ts)
  else (commaText (item inner) ts).map fun (s, ts) => (" " ++ s, ts)

/-- Whether repeated rows count, and what makes them so. -/
def distinct (inner : Inner) (ts : Tokens) : TextReading :=
  let (all, ts) := skip ["ALL"] ts
  match afterKeywords? ["DISTINCT"] ts with
  | none => some ("", ts)
  | some ts =>
    if all then none
    else match afterKeywords? ["ON"] ts with
      | none => some (" DISTINCT", ts)
      | some ts => match afterSymbol? "(" ts, afterSymbol? ")" (ts.drop 1) with
        | some _, some r => some (" DISTINCT ON ()", r)
        | _, _ => (enclosed inner.list ts).map fun (s, ts) => (" DISTINCT ON (" ++ s ++ ")", ts)

/-- The number of rows that count, right after SELECT. -/
def top (inner : Inner) (ts : Tokens) : TextReading := do
  let (count, ts) ← if (afterSymbol? "(" ts).isSome then Form.function "" inner.any ts
    else (natural? ts).map fun (n, ts) => (toString n, ts)
  let (percent, ts) := phrase [["PERCENT"]] ts
  let (ties, ts) := phrase [["WITH", "TIES"]] ts
  return (count ++ percent ++ ties, ts)

/-- The table that takes the rows. -/
def target (ts : Tokens) : TextReading := do
  let (temporary, ts) := phrase [["TEMP"], ["TEMPORARY"]] ts
  let (unlogged, ts) := phrase [["UNLOGGED"]] ts
  let (table, ts) := phrase [["TABLE"]] ts
  let (name, ts) ← qualifiedName? ts
  return ((if temporary.isEmpty then "" else " TEMPORARY") ++ unlogged ++ table ++ " " ++ name, ts)

/-- Expressions in parentheses, or none. -/
def tuple (inner : Inner) (ts : Tokens) : TextReading :=
  match (afterSymbol? "(" ts).bind (afterSymbol? ")") with
  | some r => some ("()", r)
  | none => Form.function "" inner.list ts

/-- An expression, or several in parentheses, which are left out around a single one. -/
def lifted (inner : Inner) (ts : Tokens) : TextReading :=
  match (afterSymbol? "(" ts).bind (afterSymbol? ")"), afterSymbol? "(" ts with
  | some r, _ => some ("()", r)
  | none, none => inner.any ts
  | none, some r => do
    let (items, r) ← commaList inner.any r
    let r ← afterSymbol? ")" r
    match items with
    | [e] => return (e, r)
    | _ => return ("(" ++ String.intercalate ", " items ++ ")", r)

/-- What rows are grouped by: an expression, or sets of expressions. -/
def group (inner : Inner) (ts : Tokens) : TextReading :=
  match afterKeywords? ["GROUPING", "SETS"] ts, oneOf? ["CUBE", "ROLLUP"] ts with
  | some r, _ => Form.function "GROUPING SETS " (commaText (tuple inner)) r
  | none, some (w, r) => Form.function (w ++ " ") (commaText (lifted inner)) r
  | none, none => match (afterSymbol? "(" ts).bind (afterSymbol? ")") with
    | some r => some ("()", r)
    | none => inner.any ts

def groups (inner : Inner) (ts : Tokens) : TextReading :=
  match afterKeywords? ["ALL"] ts with
  | some r => some ("ALL", r)
  | none => commaText (group inner) ts

def namedWindow (inner : Inner) (interval : Tokens → TextReading) (ts : Tokens) : TextReading := do
  let (name, ts) ← identifier? ts
  let ts ← afterKeywords? ["AS"] ts
  let (window, ts) ← Call.windowOrName inner interval ts
  return (name ++ " AS " ++ window, ts)

/-- A selection, from after its opening word. -/
def selection (inner : Inner) (interval : Tokens → TextReading) (ts : Tokens) : TextReading := do
  let (distinct, ts) ← distinct inner ts
  let (top, ts) ← clause ["TOP"] " TOP " (top inner) ts
  let (columns, ts) ← columns inner ts
  let (into, ts) ← clause ["INTO"] " INTO" target ts
  let (source, ts) ← clause ["FROM"] " FROM " (tables inner) ts
  let (condition, ts) ← clause ["WHERE"] " WHERE " inner.any ts
  let (groups, ts) ← clause ["GROUP", "BY"] " GROUP BY " (groups inner) ts
  let (clusters, ts) ← clause ["CLUSTER", "BY"] " CLUSTER BY " inner.list ts
  let (shares, ts) ← clause ["DISTRIBUTE", "BY"] " DISTRIBUTE BY " inner.list ts
  let (sorts, ts) ← clause ["SORT", "BY"] " SORT BY " (Call.orderings inner) ts
  let (having, ts) ← clause ["HAVING"] " HAVING " inner.any ts
  let (windows, ts) ← clause ["WINDOW"] " WINDOW " (commaText (namedWindow inner interval)) ts
  let (qualify, ts) ← clause ["QUALIFY"] " QUALIFY " inner.any ts
  return ("SELECT" ++ distinct ++ top ++ columns ++ into ++ source ++ condition ++ groups ++
    clusters ++ shares ++ sorts ++ having ++ windows ++ qualify, ts)

/-! ## Queries -/

/-- A row of values, and whether the word ROW opens it. -/
def row (inner : Inner) (ts : Tokens) : Option ((Bool × String) × Tokens) := do
  let (marked, ts) := skip ["ROW"] ts
  let (s, ts) ← enclosed inner.list ts
  return ((marked, "(" ++ s ++ ")"), ts)

/-- Rows of values; if one of them opens with ROW, all are written so. -/
def rows (inner : Inner) (ts : Tokens) : TextReading := do
  let (found, ts) ← commaList (row inner) ts
  let lead := if found.any (·.1) then "ROW" else ""
  return ("VALUES " ++ String.intercalate ", " (found.map fun r => lead ++ r.2), ts)

/-- A whole table by its name. Without a schema the two tokens after the name are passed over. -/
def wholeTable (ts : Tokens) : TextReading :=
  match ts with
  | ⟨.word schema, _⟩ :: ⟨.symbol ".", _⟩ :: ⟨.word name, _⟩ :: r => some ("TABLE " ++ schema ++ "." ++ name, r)
  | _ :: ⟨.symbol ".", _⟩ :: _ => none
  | ⟨.word name, _⟩ :: r => some ("TABLE " ++ name, r.drop 2)
  | _ => none

/-- A query without set operations. -/
def simple (inner : Inner) (interval : Tokens → TextReading) (ts : Tokens) : TextReading :=
  match oneOf? ["SELECT", "VALUES", "TABLE"] ts with
  | some ("SELECT", r) => selection inner interval r
  | some ("VALUES", r) => rows inner r
  | some (_, r) => wholeTable r
  | none => (enclosed inner.query ts).map fun (s, ts) => ("(" ++ s ++ ")", ts)

/-- An operator between queries, and how strongly it binds. -/
def setOperator? (ts : Tokens) : Option (String × Nat × Tokens) :=
  match oneOf? ["UNION", "EXCEPT", "MINUS", "INTERSECT"] ts with
  | some (w, r) => some (w, if w == "INTERSECT" then 20 else 10, r)
  | none => none

/-- What an operator between queries says about repeated rows and the order of columns. -/
def quantifiers : List (List String) := [
  ["DISTINCT", "BY", "NAME"], ["BY", "NAME"], ["ALL", "BY", "NAME"], ["ALL"], ["DISTINCT"]]

/-- Set operations stronger than the given strength, as long as there are any. -/
def combined (simple : Tokens → TextReading) : Nat → Nat → String → Tokens → TextReading
  | 0, _, s, ts => some (s, ts)
  | fuel + 1, strength, s, ts =>
    match setOperator? ts with
    | none => some (s, ts)
    | some (operator, own, r) =>
      if strength ≥ own then some (s, ts)
      else do
        let (quantifier, r) := phrase quantifiers r
        let (right, r) ← simple r
        let (right, r) ← combined simple fuel own right r
        combined simple fuel strength (s ++ " " ++ operator ++ quantifier ++ " " ++ right) r

def body (inner : Inner) (interval : Tokens → TextReading) (ts : Tokens) : TextReading := do
  let (first, ts) ← simple inner interval ts
  combined (simple inner interval) ts.length 0 first ts

/-- A query that is given a name. -/
def common (inner : Inner) (ts : Tokens) : TextReading := do
  let (name, ts) ← identifier? ts
  let (columns, ts) ← if opensWith ["AS"] ts then some ("", ts) else columns? ts
  let ts ← afterKeywords? ["AS"] ts
  let (kept, ts) := phrase [["MATERIALIZED"], ["NOT", "MATERIALIZED"]] ts
  let (s, ts) ← enclosed inner.query ts
  let (origin, ts) ← clause ["FROM"] " FROM " identifier? ts
  return (name ++ columns ++ " AS" ++ kept ++ " (" ++ s ++ ")" ++ origin, ts)

def commons (inner : Inner) (ts : Tokens) : TextReading := do
  let (recursive, ts) := phrase [["RECURSIVE"]] ts
  let (s, ts) ← commaText (common inner) ts
  return ("WITH" ++ recursive ++ " " ++ s ++ " ", ts)

/-- A number of rows to leave out. -/
def offset (inner : Inner) (ts : Tokens) : TextReading := do
  let (e, ts) ← inner.any ts
  let (unit, ts) := phrase [["ROW"], ["ROWS"]] ts
  return (" OFFSET " ++ e ++ unit, ts)

def optionalOffset (inner : Inner) (ts : Tokens) : TextReading := clause ["OFFSET"] "" (offset inner) ts

/-- A number of rows; ALL is no bound. -/
def limit (inner : Inner) (ts : Tokens) : TextReading :=
  match afterKeywords? ["ALL"] ts with
  | some r => some ("", r)
  | none => (inner.any ts).map fun (s, ts) => (" LIMIT " ++ s, ts)

/-- The bounds on the rows, in either order; the number of rows is written first. -/
def bounds (inner : Inner) (ts : Tokens) : TextReading := do
  let (early, ts) ← optionalOffset inner ts
  match afterKeywords? ["LIMIT"] ts with
  | none => return (early, ts)
  | some ts =>
    let (limit, ts) ← limit inner ts
    if early.isEmpty then
      let (late, ts) ← optionalOffset inner ts
      return (limit ++ late, ts)
    else return (limit ++ early, ts)

/-- The number of rows to fetch, if it is not one. -/
def fetched (ts : Tokens) : TextReading :=
  match oneOf? ["ROW", "ROWS"] ts with
  | some (_, r) => some ("", r)
  | none => do
    let (s, ts) ← Form.valueText ts
    let (percent, ts) := phrase [["PERCENT"]] ts
    let (_, ts) := phrase [["ROW"], ["ROWS"]] ts
    return (" " ++ s ++ percent, ts)

def fetch (ts : Tokens) : TextReading := do
  let (_, ts) := phrase [["FIRST"], ["NEXT"]] ts
  let (count, ts) ← fetched ts
  let (only, ts) := skip ["ONLY"] ts
  let (ties, ts) := if only then (false, ts) else skip ["WITH", "TIES"] ts
  return ("FIRST" ++ count ++ " ROWS " ++ (if ties then "WITH TIES" else "ONLY"), ts)

/-- Rows to lock, from after the word FOR. -/
def lock (ts : Tokens) : TextReading := do
  let (kind, ts) ← oneOf? ["UPDATE", "SHARE"] ts
  let (table, ts) ← clause ["OF"] " OF " qualifiedName? ts
  let (wait, ts) := phrase [["NOWAIT"], ["SKIP", "LOCKED"]] ts
  return (kind ++ table ++ wait, ts)

/-- Locks as long as there are any; each takes a token at least. -/
def locks : Nat → Tokens → TextReading
  | 0, ts => some ("", ts)
  | fuel + 1, ts =>
    match afterKeywords? ["FOR"] ts with
    | none => some ("", ts)
    | some ts => do
      let (first, ts) ← lock ts
      let (others, ts) ← locks fuel ts
      return (" FOR " ++ first ++ others, ts)

/-- A whole query. -/
def query (inner : Inner) (interval : Tokens → TextReading) (ts : Tokens) : TextReading := do
  let (commons, ts) ← clause ["WITH"] "" (commons inner) ts
  let (body, ts) ← body inner interval ts
  let (order, ts) ← clause ["ORDER", "BY"] " ORDER BY " (Call.orderings inner) ts
  let (bounds, ts) ← bounds inner ts
  let (fetch, ts) ← clause ["FETCH"] " FETCH " fetch ts
  let (locks, ts) ← locks ts.length ts
  return (commons ++ body ++ order ++ bounds ++ fetch ++ locks, ts)

end DocQuery.Predicate.Subquery
