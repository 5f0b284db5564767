/-
  DocQuery.Instant.Text — instants as RFC 3339 text, and as the text a table compares.

  Reading: `YYYY-MM-DD`, then `T`, `t` or one blank, `HH:MM:SS`, an optional fraction of which
  nine digits count, then `Z`, `z` or a signed `HH:MM`; nothing around it. The second 60 is a
  leap second, whatever the minute. Writing: always UTC, with the fewest of 0, 3, 6 or 9
  fraction digits that are exact.
-/

import DocQuery.Decimal.Numeral
import DocQuery.Instant.Basic

namespace DocQuery.Instant

open DocQuery.Decimal

/-! ## Reading -/

/-- Exactly `n` digits. -/
def digits? (n : Nat) (s : List Char) : Option (Nat × List Char) :=
  let ds := s.take n
  if ds.length == n && ds.all Char.isDigit then some (ofDigits ds, s.drop n) else none

def char? (c : Char) : List Char → Option (List Char)
  | d :: r => if d == c then some r else none
  | [] => none

def dateTimeGap? : List Char → Option (List Char)
  | 'T' :: r => some r
  | 't' :: r => some r
  | ' ' :: r => some r
  | _ => none

def date? (s : List Char) : Option (Date × List Char) := do
  let (year, s) ← digits? 4 s
  let s ← char? '-' s
  let (month, s) ← digits? 2 s
  let s ← char? '-' s
  let (day, s) ← digits? 2 s
  let date : Date := ⟨year, month, day⟩
  if date.valid then some (date, s) else none

/-- The fraction of a second in nanoseconds; digits past the ninth are cut off. -/
def fraction? : List Char → Option (Nat × List Char)
  | '.' :: r =>
    let ds := r.takeWhile Char.isDigit
    if ds.isEmpty then none
    else
      let kept := ds.take 9
      some (ofDigits kept * Nat.pow 10 (9 - kept.length), r.dropWhile Char.isDigit)
  | r => some (0, r)

def isMinus (c : Char) : Bool := c == '-' || c == Char.ofNat 0x2212

/-- Minutes ahead of UTC; what follows must be the end of the text. -/
def offset? : List Char → Option Int
  | ['Z'] => some 0
  | ['z'] => some 0
  | c :: r => do
    let negative ← if c == '+' then some false else if isMinus c then some true else none
    let (hours, r) ← digits? 2 r
    let r ← char? ':' r
    let (minutes, r) ← digits? 2 r
    if hours ≤ 23 && minutes ≤ 59 && r.isEmpty then
      some (applySign negative (60 * hours + minutes))
    else none
  | [] => none

def read? (text : String) : Option Instant := do
  let (date, s) ← date? text.toList
  let s ← dateTimeGap? s
  let (hour, s) ← digits? 2 s
  let s ← char? ':' s
  let (minute, s) ← digits? 2 s
  let s ← char? ':' s
  let (second, s) ← digits? 2 s
  let (nanos, s) ← fraction? s
  let offset ← offset? s
  if hour ≤ 23 && minute ≤ 59 && second ≤ 60 then
    if second == 60 then some (ofLocal date hour minute 59 (nanos + 1000000000) offset)
    else some (ofLocal date hour minute second nanos offset)
  else none

/-! ## Writing -/

/-- Decimal digits, with zeros in front up to a width. -/
def padded (width n : Nat) : List Char :=
  let ds := Nat.toDigits 10 n
  List.replicate (width - ds.length) '0' ++ ds

/-- Four digits; years outside 0 to 9999 carry a sign. -/
def yearText (year : Int) : List Char :=
  if year < 0 then '-' :: padded 4 year.natAbs
  else if year ≤ 9999 then padded 4 year.natAbs
  else '+' :: padded 5 year.natAbs

def dateText (d : Date) : List Char :=
  yearText d.year ++ '-' :: padded 2 d.month ++ '-' :: padded 2 d.day

def shownSecond (t : Instant) : Nat := t.second + t.nanos / 1000000000

def timeText (t : Instant) : List Char :=
  padded 2 t.hour ++ ':' :: padded 2 t.minute ++ ':' :: padded 2 (shownSecond t)

def fractionText (nanos : Nat) : List Char :=
  if nanos == 0 then []
  else if nanos % 1000000 == 0 then '.' :: padded 3 (nanos / 1000000)
  else if nanos % 1000 == 0 then '.' :: padded 6 (nanos / 1000)
  else '.' :: padded 9 nanos

def rfc3339 (zone : List Char) (t : Instant) : String :=
  String.ofList
    (dateText t.date ++ 'T' :: timeText t ++ fractionText (t.nanos % 1000000000) ++ zone)

/-- RFC 3339 with the offset `+00:00`. -/
def text (t : Instant) : String := rfc3339 ['+', '0', '0', ':', '0', '0'] t

/-- RFC 3339 with the offset `Z`, as JSON text holds it. -/
def zuluText (t : Instant) : String := rfc3339 ['Z'] t

/-- The text that a table compares: a blank between date and time, milliseconds cut off, no zone. -/
def columnText (t : Instant) : String :=
  String.ofList (dateText t.date ++ ' ' :: timeText t ++
    '.' :: padded 3 (t.nanos % 1000000000 / 1000000))

end DocQuery.Instant
