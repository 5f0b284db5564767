/-
  DocQuery.Json.Number — what a JSON number denotes.

  A number without fraction and exponent that fits 64 bits, signed or unsigned, is an
  integer; `-0` and everything else is a double. There are two ways to form the double.
  `nearest?` rounds the written decimal once. `scaled?` keeps the leading digits that fit 64
  bits and multiplies or divides them by a power of ten in double arithmetic; it can be off by
  a unit in the last place and refuses a result that overflows. Documents are read with the
  second, queries inside a table read them with the first.
-/

import DocQuery.Json.Basic
import DocQuery.Decimal.Numeral

namespace DocQuery.Json

open DocQuery.Decimal

/-- A number as written: `whole[.fraction][e exponent]`. -/
structure NumberText where
  negative : Bool
  whole : List Char
  fraction : Option (List Char)
  exponent : Option Int
  deriving DecidableEq, Repr

namespace NumberText

def isInteger (t : NumberText) : Bool := t.fraction.isNone && t.exponent.isNone

def signedFloat (t : NumberText) (x : Float) : Float := if t.negative then -x else x

/-- An integer of the signed or unsigned 64-bit range; zero with a minus sign is none. -/
def integer? (t : NumberText) : Option Int :=
  let n := ofDigits t.whole
  if !t.isInteger then none
  else if t.negative then if n != 0 && n ≤ Nat.pow 2 63 then some (-(n : Int)) else none
  else if n < Nat.pow 2 64 then some n else none

def numeral (t : NumberText) : Numeral :=
  let fraction := t.fraction.getD []
  ⟨t.negative, ofDigits (t.whole ++ fraction), t.exponent.getD 0 - fraction.length⟩

/-- The nearest double, infinite when the number is too large. -/
def nearest (t : NumberText) : Json :=
  match t.integer? with
  | some n => .int n
  | none => .float t.numeral.toFloat

def appendDigit (n : Nat) (c : Char) : Nat := 10 * n + digitValue c

def fits (n : Nat) : Bool := n < Nat.pow 2 64

/-- The digits as far as their number fits 64 bits, and how many are left over. -/
def takeFitting : Nat → List Char → Nat × Nat
  | n, [] => (n, 0)
  | n, c :: r => if fits (appendDigit n c) then takeFitting (appendDigit n c) r else (n, r.length + 1)

/-- Significant digits and exponent: whole digits past 64 bits count as powers of ten, fraction
digits past 64 bits are dropped. -/
def significand (t : NumberText) : Nat × Int :=
  let (n, skipped) := takeFitting 0 t.whole
  let fraction := t.fraction.getD []
  let (m, dropped) := takeFitting n fraction
  (m, (skipped : Int) - ((fraction.length : Int) - dropped) + t.exponent.getD 0)

def powerOfTen (n : Nat) : Float := Float.ofScientific 1 false n

/-- `x · 10 ^ e`, in steps of `10 ^ -308` when `e` is far below zero. -/
def scale? : Nat → Float → Int → Option Float
  | 0, _, _ => some 0.0
  | fuel + 1, x, e =>
    if e.natAbs ≤ 308 then
      if e ≥ 0 then
        let y := x * powerOfTen e.natAbs
        if y.isInf then none else some y
      else some (x / powerOfTen e.natAbs)
    else if x == 0.0 then some x
    else if e ≥ 0 then none
    else scale? fuel (x / powerOfTen 308) (e + 308)

def scaled? (t : NumberText) : Option Json :=
  match t.integer? with
  | some n => some (.int n)
  | none =>
    let (n, e) := t.significand
    (scale? 8 (Float.ofNat n) e).map fun x => .float (t.signedFloat x)

end NumberText

end DocQuery.Json
