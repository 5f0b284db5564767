/-
  DocQuery.Predicate.Lexer — from characters to tokens.

  ASCII white space and comments separate tokens: a line comment runs from `--` to the end of
  the line, a block comment from `/*` to its own `*/`. Every character outside ASCII belongs to
  words. If any part of the text is no token, none of it is read.
-/

import DocQuery.Predicate.Quoted
import DocQuery.Predicate.Symbol

namespace DocQuery.Predicate.Lexer

/-! ## Gaps -/

def isGapChar (c : Char) : Bool := c == ' ' || ('\t' ≤ c && c ≤ '\r')

/-- The text after a block comment, inside of which `depth` more comments are open. -/
def afterComment : Nat → List Char → Option (List Char)
  | _, [] => none
  | depth, '/' :: '*' :: r => afterComment (depth + 1) r
  | 0, '*' :: '/' :: r => some r
  | depth + 1, '*' :: '/' :: r => afterComment depth r
  | depth, _ :: r => afterComment depth r

/-! ## Words and numbers -/

def isWordStart (c : Char) : Bool := c.isAlpha || c == '_' || 128 ≤ c.toNat

def isWordPart (c : Char) : Bool := isWordStart c || c.isDigit || c == '$'

/-- Digits, with single underscores in front of hexadecimal digits, and the text after them. -/
def digits (isDigit : Char → Bool) : List Char → List Char × List Char
  | [] => ([], [])
  | [c] => if isDigit c then ([c], []) else ([], [c])
  | c :: d :: r =>
    if isDigit c || (c == '_' && Quoted.isDigitIn 16 d) then
      let (ds, rest) := digits isDigit (d :: r)
      (c :: ds, rest)
    else ([], c :: d :: r)

/-- An exponent: only if digits stand in it. -/
def exponent : List Char → List Char × List Char
  | [] => ([], [])
  | e :: r =>
    let (sign, ds) := match r with
      | '+' :: ds => (['+'], ds)
      | '-' :: ds => (['-'], ds)
      | ds => ([], ds)
    if (e == 'e' || e == 'E') && (ds.head?.any Char.isDigit) then
      (e :: sign ++ ds.takeWhile Char.isDigit, ds.dropWhile Char.isDigit)
    else ([], e :: r)

/-- The point and the digits after it. -/
def fraction : List Char → List Char × List Char
  | '.' :: r =>
    let (ds, rest) := digits Char.isDigit r
    ('.' :: ds, rest)
  | r => ([], r)

def suffixed (text : List Char) : List Char → Token × List Char
  | 'L' :: r => (.literal (.number (String.ofList text) true), r)
  | r => (.literal (.number (String.ofList text) false), r)

/-- A number in decimal, a number in hexadecimal after `0x`, or a lone point. -/
def number (s : List Char) : Token × List Char :=
  match digits Char.isDigit s with
  | (['0'], 'x' :: r) =>
    let (ds, rest) := digits (Quoted.isDigitIn 16) r
    (.literal (.marked .hexadecimal (String.ofList ds)), rest)
  | (whole, r) =>
    let (part, r) := fraction r
    if whole ++ part == ['.'] then (.symbol ".", r)
    else
      let (power, r) := exponent r
      suffixed (whole ++ part ++ power) r

/-- Right after a point, an underscore opens a name, and only after another name. -/
def point? (afterWord : Bool) (s : List Char) : Option (Token × List Char) :=
  match s with
  | '.' :: '_' :: r => if afterWord then some (.symbol ".", '_' :: r) else none
  | s => some (number s)

/-! ## Dollar signs -/

def isTagChar (c : Char) : Bool := isWordStart c || c.isDigit

/-- A placeholder, or a literal between two equal tags. -/
def dollar? (s : List Char) : Option (Token × List Char) :=
  let tag := s.takeWhile isTagChar
  match s.dropWhile isTagChar with
  | '$' :: r => (Quoted.upTo ('$' :: tag ++ ['$']) r).map fun (text, rest) =>
    (.literal (.dollar (String.ofList tag) (String.ofList text)), rest)
  | r => some (.literal (.placeholder (String.ofList ('$' :: tag))), r)

/-! ## Tokens -/

def text? (s : List Char) : Option (Token × List Char) :=
  (Quoted.plain '\'' s).map fun (text, rest) => (.literal (.text (String.ofList text)), rest)

def quotedName? (s : List Char) : Option (Token × List Char) :=
  (Quoted.plain '"' s).map fun (name, rest) => (.quoted (String.ofList name), rest)

def word (s : List Char) : Token × List Char :=
  (.word (String.ofList (s.takeWhile isWordPart)), s.dropWhile isWordPart)

/-- The token that opens a text, which is known to open with no gap. -/
def token? (afterWord : Bool) (c : Char) (r : List Char) : Option (Token × List Char) :=
  match Quoted.mark? (c :: r) with
  | some (mark, rest) => Quoted.marked mark rest
  | none =>
    if isWordStart c then some (word (c :: r))
    else if c.isDigit || c == '.' then point? afterWord (c :: r)
    else if c == '\'' then text? r
    else if c == '"' then quotedName? r
    else if c == '$' then dollar? r
    else (Symbol.read? c r).map fun (text, rest) => (.symbol text, rest)

/-- A gap, shown as `none`, or a token. -/
def piece? (afterWord : Bool) : List Char → Option (Option Token × List Char)
  | '-' :: '-' :: r => some (none, r.dropWhile fun c => c != '\n' && c != '\r')
  | '/' :: '*' :: r => (afterComment 0 r).map (none, ·)
  | c :: r =>
    if isGapChar c then some (none, r.dropWhile isGapChar)
    else (token? afterWord c r).map fun (t, rest) => (some t, rest)
  | [] => none

/-- Reads on until the text ends; each piece takes at least one character, so that as many
pieces as characters are enough. -/
def lexemesFrom : Nat → Bool → Bool → List Char → Option (List Lexeme)
  | _, _, _, [] => some []
  | 0, _, _, _ => none
  | fuel + 1, afterWord, spaced, s =>
    match piece? afterWord s with
    | none => none
    | some (none, rest) => lexemesFrom fuel false true rest
    | some (some t, rest) => (lexemesFrom fuel t.isWord false rest).map (⟨t, spaced⟩ :: ·)

def lexemes? (s : List Char) : Option (List Lexeme) := lexemesFrom s.length false true s

end DocQuery.Predicate.Lexer
