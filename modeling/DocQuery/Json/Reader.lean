/-
  DocQuery.Json.Reader — from text to JSON values.

  The grammar is the standard's: one value with blanks around it, nothing after it. A reading
  fixes what the grammar leaves open: how deep arrays and objects may nest and which value a
  number's text denotes. `document` is the reading of documents (127 levels, no number
  that overflows), `stored` the one a table's query engine uses on the text it keeps.
-/

import DocQuery.Json.Number

namespace DocQuery.Json

structure Reading where
  depth : Nat
  number : NumberText → Option Json

def Reading.document : Reading := ⟨127, NumberText.scaled?⟩

def Reading.stored : Reading := ⟨1000, fun t => some t.nearest⟩

abbrev Reader (α : Type) := List Char → Option (α × List Char)

def isGap (c : Char) : Bool := c == ' ' || c == '\t' || c == '\n' || c == '\r'

def skipGap (s : List Char) : List Char := s.dropWhile isGap

/-! ## Numbers -/

def exponentText : Reader (Option Int)
  | c :: r =>
    if c == 'e' || c == 'E' then
      let (negative, digits) := Decimal.signed r
      let ds := digits.takeWhile Char.isDigit
      if ds.isEmpty then none
      else some (some (Decimal.applySign negative (Decimal.ofDigits ds)), digits.dropWhile Char.isDigit)
    else some (none, c :: r)
  | [] => some (none, [])

def fractionText : Reader (Option (List Char))
  | '.' :: r =>
    let ds := r.takeWhile Char.isDigit
    if ds.isEmpty then none else some (some ds, r.dropWhile Char.isDigit)
  | r => some (none, r)

/-- `0`, or digits that do not start with a zero. -/
def wholeText (s : List Char) : Option (List Char × List Char) :=
  let ds := s.takeWhile Char.isDigit
  if ds.isEmpty || (ds.head? == some '0' && ds.length > 1) then none
  else some (ds, s.dropWhile Char.isDigit)

def numberText (s : List Char) : Option (NumberText × List Char) := do
  let (negative, r) := match s with
    | '-' :: r => (true, r)
    | r => (false, r)
  let (whole, r) ← wholeText r
  let (fraction, r) ← fractionText r
  let (exponent, r) ← exponentText r
  return (⟨negative, whole, fraction, exponent⟩, r)

/-! ## Strings -/

def hexValue? (c : Char) : Option Nat :=
  if c.isDigit then some (c.toNat - '0'.toNat)
  else if 'a' ≤ c && c ≤ 'f' then some (c.toNat - 'a'.toNat + 10)
  else if 'A' ≤ c && c ≤ 'F' then some (c.toNat - 'A'.toNat + 10)
  else none

def hexUnit? (a b c d : Char) : Option Nat := do
  return (((← hexValue? a) * 16 + (← hexValue? b)) * 16 + (← hexValue? c)) * 16 + (← hexValue? d)

def isHighSurrogate (n : Nat) : Bool := 0xD800 ≤ n && n < 0xDC00

def isLowSurrogate (n : Nat) : Bool := 0xDC00 ≤ n && n < 0xE000

def pairValue (high low : Nat) : Nat := 0x10000 + (high - 0xD800) * 0x400 + (low - 0xDC00)

def plainEscape? : Char → Option Char
  | '"' => some '"'
  | '\\' => some '\\'
  | '/' => some '/'
  | 'b' => some (Char.ofNat 8)
  | 'f' => some (Char.ofNat 12)
  | 'n' => some '\n'
  | 'r' => some '\r'
  | 't' => some '\t'
  | _ => none

/-- The characters up to the closing quote. A surrogate that is not one half of a pair is refused. -/
def stringText : List Char → Option (List Char × List Char)
  | [] => none
  | '"' :: r => some ([], r)
  | '\\' :: 'u' :: a :: b :: c :: d :: r =>
    match hexUnit? a b c d with
    | none => none
    | some n =>
      if isHighSurrogate n then
        match r with
        | '\\' :: 'u' :: e :: f :: g :: h :: r' =>
          match hexUnit? e f g h with
          | none => none
          | some m =>
            if isLowSurrogate m then
              (stringText r').map fun (s, t) => (Char.ofNat (pairValue n m) :: s, t)
            else none
        | _ => none
      else if isLowSurrogate n then none
      else (stringText r).map fun (s, t) => (Char.ofNat n :: s, t)
  | '\\' :: c :: r =>
    match plainEscape? c with
    | none => none
    | some e => (stringText r).map fun (s, t) => (e :: s, t)
  | c :: r =>
    if c.toNat < 0x20 || c == '\\' then none
    else (stringText r).map fun (s, t) => (c :: s, t)

/-- The characters up to the closing quote of a text that is passed over: every escape of four digits is one, whether
or not it names a character. -/
def looseText : List Char → Option (List Char × List Char)
  | [] => none
  | '"' :: r => some ([], r)
  | '\\' :: 'u' :: a :: b :: c :: d :: r =>
    match hexUnit? a b c d with
    | none => none
    | some n => (looseText r).map fun (s, t) => (Char.ofNat n :: s, t)
  | '\\' :: c :: r =>
    match plainEscape? c with
    | none => none
    | some e => (looseText r).map fun (s, t) => (e :: s, t)
  | c :: r =>
    if c.toNat < 0x20 || c == '\\' then none
    else (looseText r).map fun (s, t) => (c :: s, t)

/-! ## Values -/

section

-- How texts are read.
variable (string : Reader (List Char))

/-- Items after a first one, up to the closing bracket. -/
def moreItems (item : Reader Json) : Nat → Reader (List Json)
  | 0, _ => none
  | fuel + 1, s =>
    match skipGap s with
    | ']' :: r => some ([], r)
    | ',' :: r => do
      let (j, r) ← item r
      let (rest, r) ← moreItems item fuel r
      return (j :: rest, r)
    | _ => none

def items (item : Reader Json) (s : List Char) : Option (List Json × List Char) :=
  match skipGap s with
  | ']' :: r => some ([], r)
  | r => do
    let (j, r) ← item r
    let (rest, r) ← moreItems item (r.length + 1) r
    return (j :: rest, r)

def member (item : String → Reader Json) (s : List Char) : Option ((String × Json) × List Char) :=
  match skipGap s with
  | '"' :: r => do
    let (key, r) ← string r
    match skipGap r with
    | ':' :: r => do
      let (j, r) ← item (String.ofList key) r
      return ((String.ofList key, j), r)
    | _ => none
  | _ => none

/-- Members after a first one, up to the closing brace. -/
def moreMembers (item : String → Reader Json) : Nat → Reader (List (String × Json))
  | 0, _ => none
  | fuel + 1, s =>
    match skipGap s with
    | '}' :: r => some ([], r)
    | ',' :: r => do
      let (m, r) ← member string item r
      let (rest, r) ← moreMembers item fuel r
      return (m :: rest, r)
    | _ => none

def members (item : String → Reader Json) (s : List Char) : Option (List (String × Json) × List Char) :=
  match skipGap s with
  | '}' :: r => some ([], r)
  | r => do
    let (m, r) ← member string item r
    let (rest, r) ← moreMembers string item (r.length + 1) r
    return (m :: rest, r)

/-- A value that is neither array nor object. -/
def plainValue (number : NumberText → Option Json) : Reader Json
  | 'n' :: 'u' :: 'l' :: 'l' :: r => some (.null, r)
  | 't' :: 'r' :: 'u' :: 'e' :: r => some (.bool true, r)
  | 'f' :: 'a' :: 'l' :: 's' :: 'e' :: r => some (.bool false, r)
  | '"' :: r => (string r).map fun (s, t) => (.string (String.ofList s), t)
  | s => do
    let (t, r) ← numberText s
    let j ← number t
    return (j, r)

/-- A value in which arrays and objects nest at most `depth` deep. -/
def value (number : NumberText → Option Json) : Nat → Reader Json
  | 0, s =>
    match skipGap s with
    | '[' :: _ => none
    | '{' :: _ => none
    | r => plainValue string number r
  | depth + 1, s =>
    match skipGap s with
    | '[' :: r => (items (value number depth) r).map fun (l, t) => (.array l, t)
    | '{' :: r => (members string (fun _ => value number depth) r).map fun (l, t) => (.object l, t)
    | r => plainValue string number r

end

/-- One value and nothing after it. -/
def whole? (value : Reader Json) (text : String) : Option Json :=
  match value text.toList with
  | some (j, rest) => if (skipGap rest).isEmpty then some j else none
  | none => none

def readWith? (reading : Reading) (text : String) : Option Json :=
  whole? (value stringText reading.number reading.depth) text

/-- A document as it stands in the text, members in the order written. -/
def read? (text : String) : Option Json := readWith? .document text

end DocQuery.Json
