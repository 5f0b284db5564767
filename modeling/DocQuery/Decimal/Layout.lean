/-
  DocQuery.Decimal.Layout — how the digits of a double are set out as text.

  A layout says which numbers are written positionally, whether a whole number keeps `.0`,
  how a tie between two shortest forms falls, and what stands for the values that are no
  numbers. `plain` is the notation for people, `json` the one for JSON text. Where a column of
  texts is compared, a double is written in fifteen digits.
-/

import DocQuery.Decimal.Shortest

namespace DocQuery.Decimal

structure Layout where
  /-- Positional when the leading digit stands for `10 ^ e` and `e` is in this range. -/
  positional : Int → Bool
  /-- What closes a whole number in positional notation. -/
  whole : String
  tie : Tie
  notANumber : String
  infinity : String
  negativeInfinity : String

/-- Never an exponent, no `.0`. -/
def Layout.plain : Layout where
  positional := fun _ => true
  whole := ""
  tie := .up
  notANumber := "NaN"
  infinity := "inf"
  negativeInfinity := "-inf"

/-- Positional from `0.00001` to below `10 ^ 16`; values that are no numbers are `null`. -/
def Layout.json : Layout where
  positional := fun e => -5 ≤ e && e < 16
  whole := ".0"
  tie := .toEven
  notANumber := "null"
  infinity := "null"
  negativeInfinity := "null"

def zeros (n : Nat) : List Char := List.replicate n '0'

/-- Digits with the point where the exponent puts it. -/
def positional (l : Layout) (d : Digits) : String :=
  let ds := Nat.toDigits 10 d.digits
  if d.exponent ≥ 0 then String.ofList (ds ++ zeros d.exponent.natAbs) ++ l.whole
  else
    let places := d.exponent.natAbs
    if places < ds.length then
      String.ofList (ds.take (ds.length - places) ++ '.' :: ds.drop (ds.length - places))
    else String.ofList ('0' :: '.' :: zeros (places - ds.length) ++ ds)

/-- One digit before the point, and a signed exponent. -/
def scientific (d : Digits) (e : Int) : String :=
  let ds := Nat.toDigits 10 d.digits
  let fraction := ds.drop 1
  let mantissa := if fraction.isEmpty then ds else ds.take 1 ++ '.' :: fraction
  String.ofList (mantissa ++ 'e' :: (if e < 0 then '-' else '+') :: Nat.toDigits 10 e.natAbs)

def unsignedText (l : Layout) (x : Float) : String :=
  let b := Binary.ofFloat x
  if b.m == 0 then positional l ⟨0, 0⟩
  else
    let d := shortest b l.tie
    let e := (digitCount d.digits : Int) + d.exponent - 1
    if l.positional e then positional l d else scientific d e

def Layout.text (l : Layout) (x : Float) : String :=
  if x.isNaN then l.notANumber
  else if x.isInf then if isNegative x then l.negativeInfinity else l.infinity
  else if isNegative x then "-" ++ unsignedText l x
  else unsignedText l x

/-! ## Fifteen digits -/

/-- The nearest number of so many significant digits, a half going up. -/
def rounded (precision : Nat) (b : Binary) : Digits :=
  let (num, den) := if b.q ≥ 0 then (b.m * Nat.pow 2 b.q.natAbs, 1) else (b.m, Nat.pow 2 b.q.natAbs)
  let k := magnitude num den - precision
  let (num, den) := inUnits num den k
  stripZeros 20 ⟨(2 * num + den) / (2 * den), k⟩

/-- One digit before the point, one at least after it, and an exponent of two digits or more. -/
def exponential (d : Digits) (e : Int) : String :=
  let ds := Nat.toDigits 10 d.digits
  let power := Nat.toDigits 10 e.natAbs
  String.ofList (ds.take 1 ++ '.' :: (if ds.length == 1 then ['0'] else ds.drop 1) ++
    'e' :: (if e < 0 then '-' else '+') :: zeros (2 - power.length) ++ power)

/-- The text that a number becomes in a column of texts; it always shows a point. -/
def columnText (x : Float) : String :=
  if x.isInf then if isNegative x then "-Inf" else "Inf"
  else
    let b := Binary.ofFloat x
    if b.m == 0 then "0.0"
    else
      let d := rounded 15 b
      let e := (digitCount d.digits : Int) + d.exponent - 1
      let text := if -4 ≤ e && e < 15 then positional .json d else exponential d e
      if isNegative x then "-" ++ text else text

end DocQuery.Decimal
