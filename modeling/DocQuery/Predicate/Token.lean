/-
  DocQuery.Predicate.Token — the words of a predicate text.

  A literal keeps what it denotes, and the way it was marked. `display` is how a token is named
  when it stands where none is expected.
-/

namespace DocQuery.Predicate

/-- The marks before a quoted literal that make it something other than plain text. -/
inductive Mark where
  | national
  | bits
  | hexadecimal
  | escaped
  | unicode
  deriving DecidableEq, Repr

namespace Mark

def text : Mark → String
  | national => "N"
  | bits => "B"
  | hexadecimal => "X"
  | escaped => "E"
  | unicode => "U&"

end Mark

inductive Literal where
  | number (digits : String) (long : Bool)
  | text (s : String)
  | boolean (b : Bool)
  | null
  /-- A name, with the sign it was written with, that stands for a bound value. -/
  | placeholder (name : String)
  | marked (mark : Mark) (s : String)
  | dollar (tag s : String)
  deriving DecidableEq, Repr

namespace Literal

/-- Quotes are doubled, but those after a backslash, and those that stand in pairs already, are
left as they are. -/
def doubleQuotes (quote : Char) : Bool → List Char → List Char
  | _, [] => []
  | true, c :: r => c :: doubleQuotes quote (c == quote || c == '\\') r
  | false, [c] => if c == quote then [quote, quote] else [c]
  | false, c :: d :: r =>
    if c == quote then
      if d == quote then quote :: quote :: doubleQuotes quote false r
      else quote :: quote :: doubleQuotes quote false (d :: r)
    else c :: doubleQuotes quote (c == '\\') (d :: r)

def quoted (quote : Char) (s : String) : String :=
  String.ofList (quote :: doubleQuotes quote false s.toList ++ [quote])

def hexDigits (width n : Nat) : List Char :=
  let digits := (Nat.toDigits 16 n).map Char.toUpper
  List.replicate (width - digits.length) '0' ++ digits

/-- A character inside a literal with the mark `E`. -/
def escapedChar (c : Char) : List Char :=
  if c == '\'' then ['\\', '\'']
  else if c == '\\' then ['\\', '\\']
  else if c == '\n' then ['\\', 'n']
  else if c == '\t' then ['\\', 't']
  else if c == '\r' then ['\\', 'r']
  else [c]

/-- A character inside a literal with the mark `U&`. -/
def unicodeChar (c : Char) : List Char :=
  if c == '\'' then ['\'', '\'']
  else if c == '\\' then ['\\', '\\']
  else if c.toNat < 128 then [c]
  else if c.toNat ≤ 0xFFFF then '\\' :: hexDigits 4 c.toNat
  else '\\' :: '+' :: hexDigits 6 c.toNat

def encode (mark : Mark) (s : String) : String :=
  match mark with
  | .escaped => String.ofList (s.toList.flatMap escapedChar)
  | .unicode => String.ofList (s.toList.flatMap unicodeChar)
  | _ => s

def dollarText (tag s : String) : String := "$" ++ tag ++ "$" ++ s ++ "$" ++ tag ++ "$"

def numberText (digits : String) (long : Bool) : String := if long then digits ++ "L" else digits

/-- The literal as it stands in a written expression. -/
def written : Literal → String
  | number digits long => numberText digits long
  | text s => quoted '\'' s
  | boolean b => if b then "true" else "false"
  | null => "NULL"
  | placeholder name => name
  | marked mark s => mark.text ++ "'" ++ encode mark s ++ "'"
  | dollar tag s => dollarText tag s

end Literal

inductive Token where
  | word (text : String)
  /-- A name in double quotes. -/
  | quoted (name : String)
  | literal (l : Literal)
  /-- An operator, or a mark of punctuation. -/
  | symbol (text : String)
  deriving DecidableEq, Repr

namespace Token

def isWord : Token → Bool
  | word _ => true
  | quoted _ => true
  | _ => false

def display : Token → String
  | word text => text
  | quoted name => "\"" ++ name ++ "\""
  | literal (.text s) => "'" ++ s ++ "'"
  | literal (.marked mark s) => mark.text ++ "'" ++ s ++ "'"
  | literal l => l.written
  | symbol text => text

end Token

/-- A token, and whether blanks or a comment separate it from what stands before it. -/
structure Lexeme where
  token : Token
  spaced : Bool
  deriving DecidableEq, Repr

end DocQuery.Predicate
