/-
  DocQuery.Predicate.DataType — names of types, as they stand in casts and before literals.

  The known types have one spelling each, with their length or precision if they take any. Every
  other name is a type of its own and stays as it is, with what stands in parentheses after it.
-/

import DocQuery.Predicate.TimeField

namespace DocQuery.Predicate

namespace DataType

open DocQuery.Predicate.Tokens

/-! ## What follows the name -/

/-- What may stand in parentheses after the name of a type. -/
inductive Parameters where
  | none
  | length
  /-- A length in characters or octets, or the greatest there is. -/
  | characters
  | bytes
  /-- A precision, and a scale. -/
  | precision
  deriving DecidableEq, Repr

/-- A known type: its words, its spelling, its parameters, and whether it can be unsigned. -/
structure Form where
  words : List String
  spelling : String
  parameters : Parameters
  unsignable : Bool

def plain (words : List String) (parameters : Parameters) : Form :=
  ⟨words, String.intercalate " " words, parameters, false⟩

def numeric (words : List String) (parameters : Parameters) : Form :=
  ⟨words, String.intercalate " " words, parameters, true⟩

def respelled (word spelling : String) : Form := ⟨[word], spelling, .none, false⟩

/-- Types of more than one word. -/
def phrases : List Form := [
  numeric ["DOUBLE", "PRECISION"] .none, plain ["CHARACTER", "VARYING"] .characters,
  plain ["CHARACTER", "LARGE", "OBJECT"] .length, plain ["CHAR", "VARYING"] .characters,
  plain ["CHAR", "LARGE", "OBJECT"] .length, plain ["BIT", "VARYING"] .length,
  plain ["SIGNED", "INTEGER"] .none, plain ["UNSIGNED", "INTEGER"] .none, plain ["ANY", "TYPE"] .none]

def numbers : List Form :=
  ["TINYINT", "SMALLINT", "MEDIUMINT", "INT", "INTEGER", "BIGINT", "INT2", "INT4", "INT8"].map
    (numeric [·] .length) ++
  ["FLOAT", "DOUBLE", "DECIMAL", "DEC"].map (numeric [·] .precision) ++
  ["NUMERIC", "BIGNUMERIC", "BIGDECIMAL"].map (plain [·] .precision) ++
  [numeric ["REAL"] .none] ++
  ["FLOAT4", "FLOAT8", "FLOAT64", "INT64", "HUGEINT", "UBIGINT", "UHUGEINT", "USMALLINT", "UTINYINT",
    "SIGNED", "UNSIGNED"].map (plain [·] .none) ++
  [respelled "FLOAT32" "Float32", respelled "INT16" "Int16", respelled "INT32" "Int32",
    respelled "INT128" "Int128", respelled "INT256" "Int256", respelled "UINT8" "UInt8",
    respelled "UINT16" "UInt16", respelled "UINT32" "UInt32", respelled "UINT64" "UInt64",
    respelled "UINT128" "UInt128", respelled "UINT256" "UInt256"]

def texts : List Form :=
  ["CHAR", "CHARACTER", "VARCHAR", "NVARCHAR"].map (plain [·] .characters) ++
  [plain ["VARBINARY"] .bytes] ++
  ["STRING", "CLOB", "BLOB", "BINARY", "BYTES", "BIT", "VARBIT"].map (plain [·] .length) ++
  ["TEXT", "TINYTEXT", "MEDIUMTEXT", "LONGTEXT", "TINYBLOB", "MEDIUMBLOB", "LONGBLOB", "BYTEA",
    "TSVECTOR", "TSQUERY"].map (plain [·] .none)

def others : List Form :=
  ["BOOL", "BOOLEAN", "UUID", "JSON", "JSONB", "DATE", "TIMESTAMP_NTZ", "REGCLASS", "TRIGGER"].map
    (plain [·] .none) ++
  ["DATETIME", "TIMESTAMPTZ", "TIMETZ"].map (plain [·] .length) ++ [respelled "DATE32" "Date32"]

/-- Of two forms that fit, the first is meant. -/
def forms : List Form := phrases ++ numbers ++ texts ++ others

def form? (ts : Tokens) : Option (Form × Tokens) :=
  forms.findSome? fun form => (afterKeywords? form.words ts).map (form, ·)

/-- A length in characters, or in what the word after it says. -/
def characters? (ts : Tokens) : Option (String × Tokens) :=
  match afterKeywords? ["MAX"] ts with
  | some r => some ("MAX", r)
  | none => do
    let (n, ts) ← natural? ts
    let (unit, ts) := phrase [["CHARACTERS"], ["OCTETS"]] ts
    return (toString n ++ unit, ts)

def bytes? (ts : Tokens) : Option (String × Tokens) :=
  match afterKeywords? ["MAX"] ts with
  | some r => some ("MAX", r)
  | none => (natural? ts).map fun (n, ts) => (toString n, ts)

/-- A sign and a number that fits 64 bits with a sign. -/
def scale? (ts : Tokens) : Option (Int × Tokens) := do
  let (negative, ts) := match ts with
    | ⟨.symbol "-", _⟩ :: r => (true, r)
    | ⟨.symbol "+", _⟩ :: r => (false, r)
    | ts => (false, ts)
  let (n, ts) ← natural? ts
  if n ≤ 9223372036854775807 then return (Decimal.applySign negative n, ts) else none

def precision? (ts : Tokens) : Option (String × Tokens) := do
  let (n, ts) ← natural? ts
  match afterSymbol? "," ts with
  | none => return (toString n, ts)
  | some ts =>
    let (scale, ts) ← scale? ts
    return (toString n ++ "," ++ toString scale, ts)

/-- An item in parentheses, with them, if a parenthesis follows. -/
def parenthesized? (item : Tokens → Option (String × Tokens)) (ts : Tokens) :
    Option (String × Tokens) :=
  if (afterSymbol? "(" ts).isSome then
    (enclosed item ts).map fun (s, ts) => ("(" ++ s ++ ")", ts)
  else some ("", ts)

def parameters? (p : Parameters) (ts : Tokens) : Option (String × Tokens) :=
  match p with
  | .none => some ("", ts)
  | .length => size? ts
  | .characters => parenthesized? characters? ts
  | .bytes => parenthesized? bytes? ts
  | .precision => parenthesized? precision? ts

def unsigned (form : Form) (ts : Tokens) : String × Tokens :=
  if form.unsignable then phrase [["UNSIGNED"]] ts else ("", ts)

/-! ## Types of their own form -/

/-- What times of day and instants may say about their zone. -/
def zone? (ts : Tokens) : Option (String × Tokens) :=
  match oneOf? ["WITH", "WITHOUT"] ts with
  | none => some ("", ts)
  | some (w, ts) => (afterKeywords? ["TIME", "ZONE"] ts).map (" " ++ w ++ " TIME ZONE", ·)

/-- A time of day or an instant. -/
def clock? (word : String) (ts : Tokens) : Option (String × Tokens) := do
  let (size, ts) ← size? ts
  let (zone, ts) ← zone? ts
  return (word ++ size ++ zone, ts)

def quotedText (s : String) : String := Literal.quoted '\'' s

/-- A text where names are given as texts. -/
def textual? : Tokens → Option (String × Tokens)
  | ⟨.word w, _⟩ :: r => some (w, r)
  | ⟨.literal (.text s), _⟩ :: r => some (s, r)
  | ⟨.literal (.marked .escaped s), _⟩ :: r => some (s, r)
  | ⟨.literal (.marked .unicode s), _⟩ :: r => some (s, r)
  | _ => none

def number? (ts : Tokens) : Option (String × Tokens) := do
  let (sign, ts) := match ts with
    | ⟨.symbol "-", _⟩ :: r => ("-", r)
    | ⟨.symbol "+", _⟩ :: r => ("+", r)
    | ts => ("", ts)
  match ← value? ts with
  | (.number digits long, ts) => some (sign ++ Literal.numberText digits long, ts)
  | (.placeholder name, ts) => some (sign ++ name, ts)
  | _ => none

/-- A value of an enumeration, which may be given a number. -/
def member? (ts : Tokens) : Option (String × Tokens) := do
  let (s, ts) ← textual? ts
  match afterSymbol? "=" ts with
  | none => return (quotedText s, ts)
  | some ts =>
    let (n, ts) ← number? ts
    return (quotedText s ++ " = " ++ n, ts)

def plainText? : Tokens → Option (String × Tokens)
  | ⟨.literal (.text s), _⟩ :: r => some (quotedText s, r)
  | _ => none

/-- The parameters of an instant with a zone by name. -/
def zoned? (ts : Tokens) : Option (String × Tokens) := do
  let (n, ts) ← natural? ts
  match afterSymbol? "," ts with
  | none => return (toString n, ts)
  | some ts =>
    let (s, ts) ← textual? ts
    return (toString n ++ ", '" ++ s ++ "'", ts)

def lengthText? (ts : Tokens) : Option (String × Tokens) :=
  (natural? ts).map fun (n, ts) => (toString n, ts)

def always (word : String) (item : Tokens → Option (String × Tokens)) (ts : Tokens) :
    Option (String × Tokens) :=
  (enclosed item ts).map fun (s, ts) => (word ++ "(" ++ s ++ ")", ts)

/-- A type that opens with this word and has a form of its own; `none` in front if it has not. -/
def special (word : String) (ts : Tokens) : Option (Option (String × Tokens)) :=
  match word with
  | "TIME" => some (clock? word ts)
  | "TIMESTAMP" => some (clock? word ts)
  | "ENUM" => some (always word (commaText member?) ts)
  | "ENUM8" => some (always word (commaText member?) ts)
  | "ENUM16" => some (always word (commaText member?) ts)
  | "SET" => some (always word (commaText plainText?) ts)
  | "FIXEDSTRING" => some (always "FixedString" lengthText? ts)
  | "DATETIME64" => some (always "DateTime64" zoned? ts)
  | "TABLE" => some (if (afterSymbol? "(" ts).isSome then none else some (word, ts))
  | _ => none

/-- Words, numbers and texts up to the closing parenthesis; commas say nothing. -/
def modifiers? : Tokens → Option (List String × Tokens)
  | ⟨.symbol s, _⟩ :: r =>
    if s == ")" then some ([], r) else if s == "," then modifiers? r else none
  | ⟨.word w, _⟩ :: r => (modifiers? r).map fun (ms, ts) => (w :: ms, ts)
  | ⟨.quoted n, _⟩ :: r => (modifiers? r).map fun (ms, ts) => (Literal.quoted '"' n :: ms, ts)
  | ⟨.literal (.number digits _), _⟩ :: r => (modifiers? r).map fun (ms, ts) => (digits :: ms, ts)
  | ⟨.literal (.text s), _⟩ :: r => (modifiers? r).map fun (ms, ts) => (s :: ms, ts)
  | _ => none

/-- A name of a type that is not known. -/
def named? (ts : Tokens) : Option (String × Tokens) := do
  let (name, ts) ← qualifiedName? ts
  match afterSymbol? "(" ts with
  | none => return (name, ts)
  | some ts =>
    let (ms, ts) ← modifiers? ts
    return (if ms.isEmpty then name else name ++ "(" ++ String.intercalate ", " ms ++ ")", ts)

/-! ## Types -/

/-- How a type can be used before a literal. -/
inductive Kind where
  | known
  | interval
  /-- A name of its own, which cannot stand before a literal. -/
  | named
  deriving DecidableEq, Repr

/-- A type that was read. `surplus` tells that a closing angle bracket was taken that belongs to
the type outside. -/
structure Found where
  text : String
  kind : Kind
  surplus : Bool
  rest : Tokens

/-- Brackets that make an array of the type, with or without its length. -/
def brackets? : Nat → Tokens → Option (String × Tokens)
  | 0, ts => some ("", ts)
  | fuel + 1, ts =>
    match afterSymbol? "[" ts with
    | none => some ("", ts)
    | some ts => do
      let (length, ts) := match natural? ts with
        | some (n, r) => (toString n, r)
        | none => ("", ts)
      let ts ← afterSymbol? "]" ts
      let (others, ts) ← brackets? fuel ts
      return ("[" ++ length ++ "]" ++ others, ts)

def interval? (ts : Tokens) : Option Found := do
  let (parts, ts) ← TimeField.range? ts
  let (size, ts) ← size? ts
  return ⟨"INTERVAL" ++ parts ++ size, .interval, false, ts⟩

/-- A closing angle bracket, where two in a row are one token. -/
def closeAngle? (surplus : Bool) (ts : Tokens) : Option (Bool × Tokens) :=
  if surplus then some (false, ts)
  else match afterSymbol? ">" ts with
    | some r => some (false, r)
    | none => (afterSymbol? ">>" ts).map (true, ·)

/-- A known type, or another name. -/
def simple? (ts : Tokens) : Option Found :=
  match form? ts with
  | some (form, ts) => do
    let (parameters, ts) ← parameters? form.parameters ts
    let (suffix, ts) := unsigned form ts
    return ⟨form.spelling ++ parameters ++ suffix, .known, false, ts⟩
  | none => (named? ts).map fun (s, ts) => ⟨s, .named, false, ts⟩

/-- A type without brackets behind it; `element` reads what stands in an array's angle brackets. -/
def base? (element : Tokens → Option Found) (ts : Tokens) : Option Found :=
  match ts with
  | ⟨.word w, _⟩ :: r =>
    let word := Text.upper w
    if word == "INTERVAL" then interval? r
    else if word == "ARRAY" then do
      let r ← afterSymbol? "<" r
      let inside ← element r
      let (surplus, r) ← closeAngle? inside.surplus inside.rest
      return ⟨"ARRAY<" ++ inside.text ++ ">", .known, surplus, r⟩
    else match special word r with
      | some found => found.map fun (s, ts) => ⟨s, .known, false, ts⟩
      | none => simple? ts
  | ⟨.quoted _, _⟩ :: _ => simple? ts
  | _ => none

/-- Any type; arrays in angle brackets may stand in one another as often as there is fuel. -/
def readFrom? : Nat → Tokens → Option Found
  | 0, _ => none
  | fuel + 1, ts => do
    let found ← base? (readFrom? fuel) ts
    let (array, rest) ← brackets? found.rest.length found.rest
    let kind := if array.isEmpty then found.kind else .known
    return ⟨found.text ++ array, kind, found.surplus, rest⟩

/-- Any type, all of whose angle brackets are its own. -/
def read? (ts : Tokens) : Option Found := (readFrom? (ts.length + 1) ts).filter (!·.surplus)

def text? (ts : Tokens) : Option (String × Tokens) := (read? ts).map fun found => (found.text, found.rest)

end DataType

end DocQuery.Predicate
