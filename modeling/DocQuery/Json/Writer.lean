/-
  DocQuery.Json.Writer — from JSON values to text.

  Only `"`, `\` and the control characters below U+0020 are escaped. The compact form has no
  blanks; the indented form puts each item and member on a line of its own, two blanks deeper
  than what holds it, and writes empty arrays and objects closed up.
-/

import DocQuery.Json.Basic
import DocQuery.Decimal.Layout

namespace DocQuery.Json

def hexDigit (n : Nat) : Char := if n < 10 then Char.ofNat (48 + n) else Char.ofNat (87 + n)

def escapeChar (c : Char) : List Char :=
  match c with
  | '"' => ['\\', '"']
  | '\\' => ['\\', '\\']
  | '\n' => ['\\', 'n']
  | '\r' => ['\\', 'r']
  | '\t' => ['\\', 't']
  | c =>
    if c.toNat == 8 then ['\\', 'b']
    else if c.toNat == 12 then ['\\', 'f']
    else if c.toNat < 0x20 then ['\\', 'u', '0', '0', hexDigit (c.toNat / 16), hexDigit (c.toNat % 16)]
    else [c]

def quoted (s : String) : String := String.ofList ('"' :: s.toList.flatMap escapeChar ++ ['"'])

def boolText (b : Bool) : String := if b then "true" else "false"

def intText (n : Int) : String := toString n

def floatText (x : Float) : String := Decimal.Layout.json.text x

mutual

def compact : Json → String
  | .null => "null"
  | .bool b => boolText b
  | .int n => intText n
  | .float x => floatText x
  | .string s => quoted s
  | .array items => "[" ++ String.intercalate "," (compactItems items) ++ "]"
  | .object members => "\x7b" ++ String.intercalate "," (compactMembers members) ++ "\x7d"

def compactItems : List Json → List String
  | [] => []
  | j :: rest => j.compact :: compactItems rest

def compactMembers : List (String × Json) → List String
  | [] => []
  | (k, j) :: rest => (quoted k ++ ":" ++ j.compact) :: compactMembers rest

end

def indent (level : Nat) : String := String.ofList (List.replicate (2 * level) ' ')

/-- Lines between a pair of brackets, one level deeper than the brackets. -/
def block (left right : String) (level : Nat) (lines : List String) : String :=
  if lines.isEmpty then left ++ right
  else
    let inner := lines.map fun line => "\n" ++ indent (level + 1) ++ line
    left ++ String.intercalate "," inner ++ "\n" ++ indent level ++ right

mutual

def indentedAt (level : Nat) : Json → String
  | .array items => block "[" "]" level (indentedItems (level + 1) items)
  | .object members => block "\x7b" "\x7d" level (indentedMembers (level + 1) members)
  | j => j.compact

def indentedItems (level : Nat) : List Json → List String
  | [] => []
  | j :: rest => j.indentedAt level :: indentedItems level rest

def indentedMembers (level : Nat) : List (String × Json) → List String
  | [] => []
  | (k, j) :: rest => (quoted k ++ ": " ++ j.indentedAt level) :: indentedMembers level rest

end

def indented (j : Json) : String := j.indentedAt 0

end DocQuery.Json
