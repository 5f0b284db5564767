/-
  DocQuery.Predicate.Cursor — small readers at the head of a list of tokens. Keywords are told
  in any letter case; a name in double quotes is never a keyword.
-/

import DocQuery.Decimal.Numeral
import DocQuery.Predicate.Token
import DocQuery.Text.Fold

namespace DocQuery.Predicate

abbrev Tokens := List Lexeme

namespace Tokens

/-! ## Keywords and symbols -/

/-- The word at the head in capitals, and what follows it. -/
def keyword? : Tokens → Option (String × Tokens)
  | ⟨.word w, _⟩ :: r => some (Text.upper w, r)
  | _ => none

/-- One of these keywords. -/
def oneOf? (keywords : List String) (ts : Tokens) : Option (String × Tokens) :=
  (keyword? ts).filter fun (w, _) => keywords.contains w

/-- What follows these keywords, if they stand at the head. -/
def afterKeywords? : List String → Tokens → Option Tokens
  | [], ts => some ts
  | k :: ks, ts => match keyword? ts with
    | some (w, r) => if w == k then afterKeywords? ks r else none
    | none => none

def opensWith (keywords : List String) (ts : Tokens) : Bool := (afterKeywords? keywords ts).isSome

/-- What follows this symbol, if it stands at the head. -/
def afterSymbol? (s : String) : Tokens → Option Tokens
  | ⟨.symbol t, _⟩ :: r => if t == s then some r else none
  | _ => none

/-- Passes over the keywords if they stand at the head, and tells whether they do. -/
def skip (keywords : List String) (ts : Tokens) : Bool × Tokens :=
  match afterKeywords? keywords ts with
  | some r => (true, r)
  | none => (false, ts)

/-- The first of these phrases that stands at the head, behind a space; without one, nothing. -/
def phrase (phrases : List (List String)) (ts : Tokens) : String × Tokens :=
  match phrases.findSome? fun p => (afterKeywords? p ts).map (p, ·) with
  | some (p, r) => (" " ++ String.intercalate " " p, r)
  | none => ("", ts)

/-! ## Literals -/

/-- A placeholder's name, which has to follow its sign without a gap. -/
def placeholder? (sign : String) : Tokens → Option (Literal × Tokens)
  | ⟨.word w, false⟩ :: r => some (.placeholder (sign ++ w), r)
  | ⟨.quoted n, false⟩ :: r => some (.placeholder (sign ++ n), r)
  | ⟨.literal (.number digits false), false⟩ :: r => some (.placeholder (sign ++ digits), r)
  | _ => none

def literal? : Tokens → Option (Literal × Tokens)
  | ⟨.literal l, _⟩ :: r => some (l, r)
  | ⟨.symbol s, _⟩ :: r => if s == ":" then placeholder? ":" r else none
  | ⟨.word w, _⟩ :: r =>
    match Text.upper w with
    | "TRUE" => some (.boolean true, r)
    | "FALSE" => some (.boolean false, r)
    | "NULL" => some (.null, r)
    | _ => none
  | _ => none

/-- A literal where nothing but a literal can stand, so that an at sign opens a placeholder too. -/
def value? (ts : Tokens) : Option (Literal × Tokens) :=
  match afterSymbol? "@" ts with
  | some r => placeholder? "@" r
  | none => literal? ts

/-- A number without fraction or exponent that fits 64 bits. -/
def natural? : Tokens → Option (Nat × Tokens)
  | ⟨.literal (.number digits _), _⟩ :: r => (Decimal.unsigned64? digits).map (·, r)
  | _ => none

/-- A number in parentheses, if a parenthesis follows. -/
def size? (ts : Tokens) : Option (String × Tokens) :=
  match afterSymbol? "(" ts with
  | none => some ("", ts)
  | some ts => do
    let (n, ts) ← natural? ts
    let ts ← afterSymbol? ")" ts
    return ("(" ++ toString n ++ ")", ts)

/-! ## Lists and names -/

/-- One or more items with the separator between them; each takes a token at least. -/
def separated {α : Type} (separator : String) (item : Tokens → Option (α × Tokens)) :
    Nat → Tokens → Option (List α × Tokens)
  | 0, _ => none
  | fuel + 1, ts => do
    let (first, ts) ← item ts
    match afterSymbol? separator ts with
    | none => return ([first], ts)
    | some ts =>
      let (others, ts) ← separated separator item fuel ts
      return (first :: others, ts)

def commaList {α : Type} (item : Tokens → Option (α × Tokens)) (ts : Tokens) :
    Option (List α × Tokens) :=
  separated "," item ts.length ts

/-- Items with commas between them, as they are written. -/
def commaText (item : Tokens → Option (String × Tokens)) (ts : Tokens) : Option (String × Tokens) :=
  (commaList item ts).map fun (items, ts) => (String.intercalate ", " items, ts)

/-- What stands in parentheses, without them. -/
def enclosed (item : Tokens → Option (String × Tokens)) (ts : Tokens) : Option (String × Tokens) := do
  let ts ← afterSymbol? "(" ts
  let (s, ts) ← item ts
  let ts ← afterSymbol? ")" ts
  return (s, ts)

/-- What stands after the keywords, with a lead in front; nothing if the keywords are missing. -/
def clause (keywords : List String) (lead : String) (item : Tokens → Option (String × Tokens))
    (ts : Tokens) : Option (String × Tokens) :=
  match afterKeywords? keywords ts with
  | none => some ("", ts)
  | some ts => (item ts).map fun (s, ts) => (lead ++ s, ts)

/-- A name as it is written; a text in single quotes is one too. -/
def identifier? : Tokens → Option (String × Tokens)
  | ⟨.word w, _⟩ :: r => some (w, r)
  | ⟨.quoted n, _⟩ :: r => some (Literal.quoted '"' n, r)
  | ⟨.literal (.text s), _⟩ :: r => some (Literal.quoted '\'' s, r)
  | _ => none

/-- Names with points between them. -/
def qualifiedName? (ts : Tokens) : Option (String × Tokens) :=
  (separated "." identifier? ts.length ts).map fun (parts, ts) => (String.intercalate "." parts, ts)

end Tokens

end DocQuery.Predicate
