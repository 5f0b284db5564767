/-
  DocQuery.Predicate.Grammar — from tokens to an expression.

  An expression is an operand, access to its members and elements, and operators with what they
  take. Parts that stand inside others, and operands on the right of an operator, are
  expressions one level deeper, and there are `maxLevels` levels. Everything is given the readers
  of the next level, so that reading is structural on the levels. Readers along one level count
  down the tokens that are left.
-/

import DocQuery.Predicate.Subquery

namespace DocQuery.Predicate.Grammar

open DocQuery.Predicate.Tokens

/-! ## Operands -/

/-- The collation of an operand, if one follows. -/
def collated (operand : Reading) : Reading := do
  let (e, ts) ← operand
  match afterKeywords? ["COLLATE"] ts with
  | none => return (e, ts)
  | some ts =>
    let (name, ts) ← qualifiedName? ts
    return (.foreign (e.text ++ " COLLATE " ++ name), ts)

def asCall (s : TextReading) : Reading := s.map fun (s, ts) => (.call s, ts)

/-- A text or a number in hexadecimal, which a name that opens with an underscore may introduce. -/
def introduced? : Tokens → Option (Literal × Tokens)
  | ⟨.literal (.text s), _⟩ :: r => some (.text s, r)
  | ⟨.literal (.marked .hexadecimal s), _⟩ :: r => some (.marked .hexadecimal s, r)
  | _ => none

/-- A name, or a call if a parenthesis follows. A name that opens with an underscore may
introduce a text. -/
def named (inner : Inner) (interval : Tokens → TextReading) (name : String) (quote : Option Char)
    (ts : Tokens) : Reading :=
  let written := Expr.nameText name quote
  match afterSymbol? "(" ts with
  | some r => asCall (Call.ofName inner interval written r)
  | none => match introduced? ts with
    | some (l, r) =>
      if name.startsWith "_" then some (.foreign (written ++ " " ++ l.written), r)
      else some (.name name quote, ts)
    | none => some (.name name quote, ts)

/-- Words that name who asks; they are calls without arguments. -/
def sessionWords : List String := ["USER", "CURRENT_USER", "SESSION_USER", "CURRENT_CATALOG"]

/-- Words that name the time; they are calls, with arguments or without. -/
def clockWords : List String :=
  ["CURRENT_DATE", "CURRENT_TIME", "CURRENT_TIMESTAMP", "LOCALTIME", "LOCALTIMESTAMP"]

/-- Words that name shapes, whose literals may stand after them. -/
def shapeWords : List String := ["CIRCLE", "BOX", "PATH", "LINE", "LSEG", "POINT", "POLYGON"]

/-- Words that are never names. -/
def reservedWords : List String := ["EXISTS", "INTERVAL", "TRIM"]

def clock (inner : Inner) (w : String) (ts : Tokens) : Reading :=
  match afterSymbol? "(" ts with
  | some r => (Call.arguments inner r).map fun (s, ts) => (.call (w ++ s), ts)
  | none => some (.call w, ts)

def shape (w : String) (ts : Tokens) : Reading :=
  (value? ts).map fun (l, ts) => (.foreign (Text.lower w ++ " " ++ l.written), ts)

/-- A call of POSITION, with the word IN or with commas. -/
def position (inner : Inner) (interval : Tokens → TextReading) (w : String) (ts : Tokens) : Reading :=
  foreign (Form.function "POSITION" (Form.positionBody inner) ts) <|>
    asCall ((afterSymbol? "(" ts).bind (Call.ofName inner interval w))

/-- The array of a query's rows. -/
def queriedArray (inner : Inner) (w : String) (ts : Tokens) : Reading :=
  asCall (Form.function w inner.query ts)

/-- What stands after one of these words, in capitals here; `none` if the word is none of them. -/
def form? (inner : Inner) (interval : Tokens → TextReading) (w keyword : String) (ts : Tokens) :
    Option Reading :=
  match keyword with
  | "CASE" => some (foreign (Form.distinction inner ts))
  | "CONVERT" => some (foreign (Form.function keyword (Form.convertBody inner) ts))
  | "CAST" => some (foreign (Form.function keyword (Form.castBody inner) ts))
  | "TRY_CAST" => some (foreign (Form.function keyword (Form.castBody inner) ts))
  | "SAFE_CAST" => some (foreign (Form.function keyword (Form.castBody inner) ts))
  | "EXISTS" => some (foreign (Form.existence inner ts))
  | "EXTRACT" => some (foreign (Form.function keyword (Form.extractBody inner) ts))
  | "CEIL" => some (foreign (Form.function keyword (Form.roundBody inner) ts))
  | "FLOOR" => some (foreign (Form.function keyword (Form.roundBody inner) ts))
  | "SUBSTR" => some (foreign (Form.function keyword (Form.substringBody inner) ts))
  | "SUBSTRING" => some (foreign (Form.function keyword (Form.substringBody inner) ts))
  | "OVERLAY" => some (foreign (Form.function keyword (Form.overlayBody inner) ts))
  | "TRIM" => some (foreign (Form.function keyword (Form.trimBody inner) ts))
  | "INTERVAL" => some (foreign (interval ts))
  | "NOT" => some (foreign (Form.negation inner ts))
  | "POSITION" => if (afterSymbol? "(" ts).isSome then some (position inner interval w ts) else none
  | "ARRAY" => match ts with
    | ⟨.symbol "[", _⟩ :: r => some (foreign (Form.array inner "ARRAY" r))
    | ⟨.symbol "(", _⟩ :: _ => some (queriedArray inner w ts)
    | _ => none
  | keyword =>
    if sessionWords.contains keyword then some (some (.call w, ts))
    else if clockWords.contains keyword then some (clock inner w ts)
    else if shapeWords.contains keyword then some (shape w ts)
    else none

/-- A word that may mean more than a name. Where it does not fit, it is a name, unless it is
reserved, and that name has no collation. -/
def word (inner : Inner) (interval : Tokens → TextReading) (w : String) (ts : Tokens) : Reading :=
  let keyword := Text.upper w
  match form? inner interval w keyword ts with
  | none => collated (named inner interval w none ts)
  | some (some found) => collated (some found)
  | some none =>
    if reservedWords.contains keyword then none else named inner interval w none ts

/-- An expression in parentheses, a tuple of several, or a query. -/
def parenthesized (inner : Inner) (ts : Tokens) : Reading :=
  if opensQuery ts then do
    let (s, ts) ← inner.query ts
    let ts ← afterSymbol? ")" ts
    return (.subquery ("(" ++ s ++ ")"), ts)
  else do
    let (items, ts) ← commaList inner.weakest ts
    let ts ← afterSymbol? ")" ts
    match items with
    | [e] => return (.nested e, ts)
    | _ => return (.foreign ("(" ++ Expr.commaSeparated items ++ ")"), ts)

/-- Operators before an operand that are written next to it. -/
def closeBefore : List String := ["!!", "|/", "||/", "@", "~"]

/-- Operators before an operand that are written with a space after them. -/
def apartBefore : List String := ["#", "@-@", "@@", "?-", "?|"]

/-- An operator before an operand, as it is written, and the operand. -/
def prefixed (inner : Inner) (operator : String) (strength : Strength) (ts : Tokens) : Reading :=
  (inner.text strength ts).map fun (s, ts) => (.foreign (operator ++ s), ts)

def symbolOperand (inner : Inner) (interval : Tokens → TextReading) (s : String) (ts : Tokens) :
    Reading :=
  match s with
  | "(" => parenthesized inner ts
  | "[" => foreign (Form.array inner "" ts)
  | "\x7b" => foreign (Form.braced inner interval ts)
  | "-" => (inner.expr .power ts).map fun (e, ts) => (.negative e, ts)
  | "+" => prefixed inner "+" .power ts
  | s =>
    if closeBefore.contains s then prefixed inner s .sum ts
    else if apartBefore.contains s then prefixed inner (s ++ " ") .sum ts
    else none

/-- A literal after the name of its type, or an interval. -/
def typedLiteral? (interval : Tokens → TextReading) (ts : Tokens) : Reading := do
  let type ← DataType.read? ts
  match type.kind with
  | .named => none
  | .interval => foreign (interval type.rest)
  | .known =>
    let (l, ts) ← value? type.rest
    return (.foreign (type.text ++ " " ++ l.written), ts)

def plainOperand (inner : Inner) (interval : Tokens → TextReading) (ts : Tokens) : Reading :=
  match literal? ts with
  | some (l, r) => collated (some (.literal l, r))
  | none => match ts with
    | ⟨.word w, _⟩ :: r => word inner interval w r
    | ⟨.quoted n, _⟩ :: r => collated (named inner interval n (some '"') r)
    | ⟨.symbol s, _⟩ :: r => collated (symbolOperand inner interval s r)
    | _ => none

/-- An operand; intervals may stand in one another as often as there is fuel. -/
def operandFrom (inner : Inner) : Nat → Tokens → Reading
  | 0, _ => none
  | fuel + 1, ts =>
    let interval := Form.interval (operandFrom inner fuel)
    typedLiteral? interval ts <|> plainOperand inner interval ts

def operand (inner : Inner) (ts : Tokens) : Reading := operandFrom inner (ts.length + 1) ts

/-! ## Access -/

def boundText : Option Expr → String
  | some e => e.text
  | none => ""

/-- What stands in a subscript where an expression may be left out. -/
def bound (inner : Inner) (close : String) (ts : Tokens) : Option (Option Expr × Tokens) :=
  if (afterSymbol? close ts).isSome then some (none, ts)
  else (inner.expr .custom ts).map fun (e, ts) => (some e, ts)

/-- The rest of a subscript after its first colon. -/
def sliceOf (inner : Inner) (base : Expr) (lower : Option Expr) (ts : Tokens) : Reading := do
  let (upper, ts) ← bound inner "]" ts
  let bounds := boundText lower ++ ":" ++ boundText upper
  match afterSymbol? "]" ts with
  | some ts => return (.slice base bounds, ts)
  | none =>
    let ts ← if upper.isSome then afterSymbol? ":" ts else none
    match afterSymbol? "]" ts with
    | some ts => return (.slice base bounds, ts)
    | none =>
      let (stride, ts) ← inner.weakest ts
      let ts ← afterSymbol? "]" ts
      return (.slice base (bounds ++ ":" ++ stride.text), ts)

/-- A subscript, from after its opening bracket. -/
def subscript (inner : Inner) (base : Expr) (ts : Tokens) : Reading := do
  let (lower, ts) ← bound inner ":" ts
  match lower, afterSymbol? "]" ts with
  | some i, some ts => return (.index base i, ts)
  | _, _ =>
    let ts ← afterSymbol? ":" ts
    sliceOf inner base lower ts

/-- What follows a point: a text that is a name, or an expression that is grafted onto the base. -/
def memberOf (inner : Inner) (base : Expr) : Tokens → Reading
  | ⟨.literal (.text s), _⟩ :: r => some (.member base (.name s (some '\'')), r)
  | ts => (inner.expr .access ts).map fun (e, ts) => (base.graft e, ts)

/-- Points and subscripts as long as there are any. A star ends them. -/
def accesses (inner : Inner) : Nat → Expr → Tokens → Reading
  | 0, e, ts => some (e.settle, ts)
  | fuel + 1, e, ts =>
    match afterSymbol? "." ts with
    | some r => match afterSymbol? "*" r with
      | some r => if e.isPath then some (.foreign (e.text ++ ".*"), r) else none
      | none => do
        let (e, ts) ← memberOf inner e r
        accesses inner fuel e ts
    | none => match afterSymbol? "[" ts with
      | some r => do
        let (e, ts) ← subscript inner e r
        accesses inner fuel e ts
      | none => some (e.settle, ts)

/-! ## Operators -/

def quantifiers : List String := ["ANY", "ALL", "SOME"]

def quantifiedText : Expr → String
  | .subquery s => s
  | e => "(" ++ e.text ++ ")"

/-- What stands in the parentheses of a quantifier; a query needs no second ones. -/
def quantified (inner : Inner) (strength : Strength) (ts : Tokens) : TextReading := do
  let r ← afterSymbol? "(" ts
  if opensQuery r then
    let (e, ts) ← inner.expr strength ts
    return (quantifiedText e, ts)
  else
    let (e, ts) ← inner.expr strength r
    let ts ← afterSymbol? ")" ts
    return (quantifiedText e, ts)

/-- The right side of an operator: an operand, or a quantified one. -/
def rightSide (inner : Inner) (strength : Strength) (symbol : String) (quantifiable : Bool)
    (node : Expr → Expr) (left : Expr) (ts : Tokens) : Reading :=
  match oneOf? quantifiers ts with
  | none => (inner.expr strength ts).map fun (e, ts) => (node e, ts)
  | some (word, ts) => do
    let (s, ts) ← quantified inner strength ts
    if quantifiable then return (.foreign (left.text ++ " " ++ symbol ++ " " ++ word ++ s), ts)
    else none

def anyToken? : Tokens → TextReading
  | t :: r => some (t.token.display, r)
  | [] => none

/-- The name of an operator in parentheses: tokens of any kind with points between them. -/
def operatorName? (ts : Tokens) : TextReading := do
  let ts ← afterSymbol? "(" ts
  let (parts, ts) ← separated "." anyToken? ts.length ts
  let ts ← afterSymbol? ")" ts
  return ("OPERATOR(" ++ String.intercalate "." parts ++ ")", ts)

/-- An operator of which only the text is kept. -/
def writtenSide (inner : Inner) (strength : Strength) (symbol : String) (quantifiable : Bool)
    (left : Expr) (ts : Tokens) : Reading :=
  rightSide inner strength symbol quantifiable
    (fun e => .foreign (left.text ++ " " ++ symbol ++ " " ++ e.text)) left ts

def negation (negated : Bool) : String := if negated then "NOT " else ""

/-- What a test asks with a fixed word. -/
def truthWords : List String := ["TRUE", "FALSE", "UNKNOWN"]

/-- The forms of text that a test can ask for. -/
def normalForms : List (List String) := [["NFC"], ["NFD"], ["NFKC"], ["NFKD"]]

/-- The test whether a text is in a normal form. -/
def normalized (ts : Tokens) : TextReading := do
  let (form, ts) := phrase normalForms ts
  let ts ← afterKeywords? ["NORMALIZED"] ts
  return ((form.drop 1).toString ++ (if form.isEmpty then "" else " ") ++ "NORMALIZED", ts)

/-- What follows IS. -/
def tested (inner : Inner) (left : Expr) (ts : Tokens) : Reading :=
  let (negated, ts) := skip ["NOT"] ts
  let opening := left.text ++ " IS " ++ negation negated
  match afterKeywords? ["NULL"] ts, oneOf? truthWords ts, afterKeywords? ["DISTINCT", "FROM"] ts with
  | some r, _, _ => some (if negated then .isNotNull left else .isNull left, r)
  | _, some (w, r), _ => some (.foreign (opening ++ w), r)
  | _, _, some r => foreign ((inner.any r).map fun (s, ts) => (opening ++ "DISTINCT FROM " ++ s, ts))
  | _, _, _ => foreign ((normalized ts).map fun (s, ts) => (opening ++ s, ts))

/-- What stands in the parentheses of a list: a query if it is one, expressions otherwise. -/
def listBody (inner : Inner) (ts : Tokens) : TextReading := inner.query ts <|> inner.list ts

def listed (inner : Inner) (left : Expr) (negated : Bool) (ts : Tokens) : Reading :=
  let opening := left.text ++ " " ++ negation negated ++ "IN "
  match afterKeywords? ["UNNEST"] ts with
  | some r => foreign (Form.function (opening ++ "UNNEST") inner.any r)
  | none => foreign (Form.function opening (listBody inner) ts)

def ranged (inner : Inner) (left : Expr) (negated : Bool) (ts : Tokens) : Reading := do
  let (low, ts) ← inner.text .membership ts
  let ts ← afterKeywords? ["AND"] ts
  let (high, ts) ← inner.text .membership ts
  return (.foreign (left.text ++ " " ++ negation negated ++ "BETWEEN " ++ low ++ " AND " ++ high), ts)

/-- The rest of a keyword that asks for a match: SIMILAR goes on with TO, LIKE may with ANY. After
the keyword of a regular expression, a second one and the word NULL say nothing. -/
def matchKeyword (keyword : String) (ts : Tokens) : TextReading :=
  match keyword with
  | "SIMILAR" => (afterKeywords? ["TO"] ts).map ("SIMILAR TO", ·)
  | "RLIKE" => some (keyword, (skip ["NULL"] ts).2)
  | "REGEXP" => some (keyword, (skip ["NULL"] (skip ["RLIKE"] ts).2).2)
  | keyword => match afterKeywords? ["ANY"] ts with
    | some r => some (keyword ++ " ANY", r)
    | none => some (keyword, ts)

/-- The character that escapes others in a pattern; regular expressions have none. -/
def escapeClause (keyword : String) (ts : Tokens) : TextReading :=
  if keyword == "RLIKE" || keyword == "REGEXP" then some ("", ts)
  else clause ["ESCAPE"] " ESCAPE " Form.valueText ts

def matched (inner : Inner) (left : Expr) (negated : Bool) (keyword : String) (ts : Tokens) :
    Reading := do
  let (words, ts) ← matchKeyword keyword ts
  let (e, ts) ← inner.text .membership ts
  let (escape, ts) ← escapeClause keyword ts
  return (.foreign (left.text ++ " " ++ negation negated ++ words ++ " " ++ e ++ escape), ts)

/-- An operator applied to what stands on its left. -/
def applied (inner : Inner) (op : Operation) (strength : Strength) (left : Expr) (ts : Tokens) :
    Reading :=
  match op with
  | .connective c => rightSide inner strength c.keyword false (.connective c left ·) left ts
  | .comparison c => rightSide inner strength c.symbol true (.comparison c left ·) left ts
  | .written symbol quantifiable => writtenSide inner strength symbol quantifiable left ts
  | .spelled => do
    let (name, ts) ← operatorName? ts
    writtenSide inner strength name false left ts
  | .is => tested inner left ts
  | .notNull => some (.isNotNull left, ts)
  | .list negated => listed inner left negated ts
  | .range negated => ranged inner left negated ts
  | .pattern negated keyword => matched inner left negated keyword ts
  | .element => do
    let ts ← afterKeywords? ["OF"] ts
    foreign (Form.function (left.text ++ " MEMBER OF") inner.any ts)
  | .zone => do
    let (zone, ts) ← inner.text strength ts
    return (.foreign (left.text ++ " AT TIME ZONE " ++ zone), ts)
  | .cast => (DataType.text? ts).map fun (type, ts) => (.foreign (left.text ++ "::" ++ type), ts)
  | .factorial => some (.foreign (left.text ++ "!"), ts)
  | .misplaced => none

/-- Operators stronger than the given strength, as long as there are any. -/
def operations (inner : Inner) (strength : Strength) : Nat → Expr → Tokens → Reading
  | 0, e, ts => some (e, ts)
  | fuel + 1, e, ts =>
    match Operation.next? ts with
    | none => some (e, ts)
    | some (op, s, r) =>
      if strength ≥ s then some (e, ts)
      else do
        let (e, ts) ← applied inner op s e r
        operations inner strength fuel e ts

/-! ## Expressions -/

def maxLevels : Nat := 50

/-- An expression of one level, with the readers of the next. -/
def level (inner : Inner) (strength : Strength) (ts : Tokens) : Reading := do
  let (e, ts) ← operand inner ts
  let (e, ts) ← accesses inner ts.length e ts
  operations inner strength ts.length e ts

/-- The value of an interval in a query that stands on this level. -/
def interval (inner : Inner) : Tokens → TextReading := Form.interval (operand inner)

/-- Readers of what may nest this many levels deep. -/
def readers : Nat → Inner
  | 0 => .closed
  | levels + 1 =>
    ⟨true, level (readers levels), Subquery.query (readers levels) (interval (readers levels))⟩

/-- An expression that may nest this many levels deep. -/
def expression (levels : Nat) (strength : Strength) (ts : Tokens) : Reading :=
  (readers levels).expr strength ts

end DocQuery.Predicate.Grammar
