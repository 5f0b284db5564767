/-
  DocQuery.Predicate.Quoted — reading literals that run to a closing quote.

  Each reader starts after the opening quote and gives the literal and the text after it; a
  literal that does not close is not read. A doubled quote stands for one. What a backslash
  means depends on the mark before the literal: nothing in plain ones.
-/

import DocQuery.Predicate.Token

namespace DocQuery.Predicate.Quoted

abbrev Reading := Option (List Char × List Char)

def consTo (c : Char) : Reading → Reading := Option.map fun (s, rest) => (c :: s, rest)

/-- A plain literal, or a name in double quotes. -/
def plain (quote : Char) : List Char → Reading
  | [] => none
  | [c] => if c == quote then some ([], []) else none
  | c :: d :: r =>
    if c == quote then
      if d == quote then consTo quote (plain quote r) else some ([], d :: r)
    else consTo c (plain quote (d :: r))

/-- The character that a backslash and a letter stand for in a hexadecimal literal. -/
def control (c : Char) : Char :=
  match c with
  | '0' => '\x00'
  | 'a' => '\x07'
  | 'b' => '\x08'
  | 'f' => '\x0C'
  | 'n' => '\n'
  | 'r' => '\r'
  | 't' => '\t'
  | 'Z' => '\x1A'
  | c => c

/-- A literal in which a backslash goes with the next character. -/
def backslashed : List Char → Reading
  | [] => none
  | '\'' :: '\'' :: r => consTo '\'' (backslashed r)
  | '\'' :: r => some ([], r)
  | '\\' :: c :: r => consTo (control c) (backslashed r)
  | '\\' :: [] => none
  | c :: r => consTo c (backslashed r)

/-! ## Characters given by number -/

def digitValue? (base : Nat) (c : Char) : Option Nat :=
  let value :=
    if c.isDigit then c.toNat - 48
    else if 'a' ≤ c && c ≤ 'f' then c.toNat - 87
    else if 'A' ≤ c && c ≤ 'F' then c.toNat - 55
    else base
  if value < base then some value else none

def ofDigits? (base : Nat) (ds : List Char) : Option Nat :=
  ds.foldlM (fun n c => (digitValue? base c).map (base * n + ·)) 0

def isDigitIn (base : Nat) (c : Char) : Bool := (digitValue? base c).isSome

/-- The character with this number, if there is one. -/
def charNumbered? (n : Nat) : Option Char := if n.isValidChar then some (Char.ofNat n) else none

/-- An ASCII character given by its number, of which the lowest eight bits count. -/
def asciiNumbered? (n : Nat) : Option Char :=
  if n % 256 < 128 then some (Char.ofNat (n % 256)) else none

/-- The character given by exactly `count` hexadecimal digits. -/
def numbered? (count : Nat) (s : List Char) : Option Char :=
  let digits := s.take count
  if digits.length == count then (ofDigits? 16 digits).bind charNumbered? else none

/-- At most `count` digits. -/
def digitsUpTo (base count : Nat) (s : List Char) : List Char := (s.take count).takeWhile (isDigitIn base)

/-- What stands for a character after a backslash in an escape literal: the character, and how
many characters stand for it. -/
def escape? (c : Char) (r : List Char) : Option (Char × Nat) :=
  match c with
  | 'b' => some ('\x08', 1)
  | 'f' => some ('\x0C', 1)
  | 'n' => some ('\n', 1)
  | 'r' => some ('\r', 1)
  | 't' => some ('\t', 1)
  | 'u' => (numbered? 4 r).map (·, 5)
  | 'U' => (numbered? 8 r).map (·, 9)
  | 'x' =>
    let digits := digitsUpTo 16 2 r
    if digits.isEmpty then some ('x', 1)
    else ((ofDigits? 16 digits).bind asciiNumbered?).map (·, digits.length + 1)
  | c =>
    let digits := digitsUpTo 8 3 (c :: r)
    if digits.isEmpty then some (c, 1)
    else ((ofDigits? 8 digits).bind asciiNumbered?).map (·, digits.length)

/-- A literal with the mark `E`: escapes for control characters and characters by number, none
of them NUL. The first argument counts characters of an escape that is being passed over. -/
def escaped : Nat → List Char → Reading
  | _, [] => none
  | skip + 1, _ :: r => escaped skip r
  | 0, '\'' :: '\'' :: r => consTo '\'' (escaped 0 r)
  | 0, '\'' :: r => some ([], r)
  | 0, '\\' :: c :: r =>
    match escape? c r with
    | some (d, length) => if d == '\x00' then none else consTo d (escaped length (c :: r))
    | none => none
  | 0, c :: r => if c == '\\' then none else consTo c (escaped 0 r)

/-- A literal with the mark `U&`: after a backslash four hexadecimal digits, or a plus sign and
six, or another backslash. -/
def unicode : Nat → List Char → Reading
  | _, [] => none
  | skip + 1, _ :: r => unicode skip r
  | 0, '\'' :: '\'' :: r => consTo '\'' (unicode 0 r)
  | 0, '\'' :: r => some ([], r)
  | 0, '\\' :: '\\' :: r => consTo '\\' (unicode 0 r)
  | 0, '\\' :: '+' :: r => match numbered? 6 r with
    | some c => consTo c (unicode 7 ('+' :: r))
    | none => none
  | 0, '\\' :: r => match numbered? 4 r with
    | some c => consTo c (unicode 4 r)
    | none => none
  | 0, c :: r => consTo c (unicode 0 r)

/-- The text before the first occurrence of the closing mark, and the text after it. -/
def upTo (close : List Char) : List Char → Reading
  | [] => none
  | c :: r =>
    if close.isPrefixOf (c :: r) then some ([], (c :: r).drop close.length)
    else consTo c (upTo close r)

/-! ## Literals by their marks -/

def marked (mark : Mark) (s : List Char) : Option (Token × List Char) :=
  let reading := match mark with
    | .national => plain '\'' s
    | .bits => plain '\'' s
    | .hexadecimal => backslashed s
    | .escaped => escaped 0 s
    | .unicode => unicode 0 s
  reading.map fun (text, rest) => (.literal (.marked mark (String.ofList text)), rest)

/-- The mark that opens a text, and what stands after its quote. -/
def mark? : List Char → Option (Mark × List Char)
  | c :: '\'' :: r =>
    match c.toUpper with
    | 'N' => some (.national, r)
    | 'B' => some (.bits, r)
    | 'X' => some (.hexadecimal, r)
    | 'E' => some (.escaped, r)
    | _ => none
  | c :: '&' :: '\'' :: r => if c.toUpper == 'U' then some (.unicode, r) else none
  | _ => none

end DocQuery.Predicate.Quoted
