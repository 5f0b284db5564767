/-
  DocQuery.Guid — 128-bit identifiers, as their 32 hexadecimal digits.

  Reading takes the digits plain, in groups of 8-4-4-4-12, and that form again in braces or
  after `urn:uuid:`, in any letter case. Writing gives the lower-case groups, so every
  spelling of an identifier is written alike.
-/

import DocQuery.Text.Fold

namespace DocQuery

structure Guid where
  digits : List (Fin 16)
  length_digits : digits.length = 32
  deriving DecidableEq, Repr

namespace Guid

def hexDigit? (c : Char) : Option (Fin 16) :=
  let n := c.toNat
  if 48 ≤ n && n ≤ 57 then some (Fin.ofNat 16 (n - 48))
  else if 97 ≤ n && n ≤ 102 then some (Fin.ofNat 16 (n - 87))
  else if 65 ≤ n && n ≤ 70 then some (Fin.ofNat 16 (n - 55))
  else none

def hexChar (d : Fin 16) : Char :=
  if d.val < 10 then Char.ofNat (48 + d.val) else Char.ofNat (87 + d.val)

/-- All of the text as hexadecimal digits. -/
def hexDigits? : List Char → Option (List (Fin 16))
  | [] => some []
  | c :: r =>
    match hexDigit? c, hexDigits? r with
    | some d, some ds => some (d :: ds)
    | _, _ => none

def ofDigits? (ds : List (Fin 16)) : Option Guid :=
  if h : ds.length = 32 then some ⟨ds, h⟩ else none

def plain? (s : List Char) : Option Guid := (hexDigits? s).bind ofDigits?

/-- The groups 8-4-4-4-12 without their hyphens. -/
def ungroup? (s : List Char) : Option (List Char) :=
  if s.length == 36 && s[8]? == some '-' && s[13]? == some '-' && s[18]? == some '-' &&
      s[23]? == some '-' then
    some (s.take 8 ++ (s.drop 9).take 4 ++ (s.drop 14).take 4 ++ (s.drop 19).take 4 ++ s.drop 24)
  else none

def grouped? (s : List Char) : Option Guid := (ungroup? s).bind plain?

def braced? (s : List Char) : Option Guid :=
  match s with
  | '{' :: r => if r.getLast? == some '}' then grouped? r.dropLast else none
  | _ => none

def urnScheme : List Char := ['u', 'r', 'n', ':', 'u', 'u', 'i', 'd', ':']

def urn? (s : List Char) : Option Guid :=
  if (s.take 9).map Char.toLower == urnScheme then grouped? (s.drop 9) else none

def read? (text : String) : Option Guid :=
  let s := text.toList
  plain? s <|> grouped? s <|> braced? s <|> urn? s

def text (g : Guid) : String :=
  let cs := g.digits.map hexChar
  String.ofList (cs.take 8 ++ '-' :: (cs.drop 8).take 4 ++ '-' :: (cs.drop 12).take 4 ++
    '-' :: (cs.drop 16).take 4 ++ '-' :: cs.drop 20)

end Guid

end DocQuery
