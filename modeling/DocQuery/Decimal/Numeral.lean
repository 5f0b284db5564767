/-
  DocQuery.Decimal.Numeral — reading numbers written in decimal.

  An integer is an optional sign and ASCII digits. A numeral is what a floating point
  literal may look like: an optional sign, digits with an optional point on either side of
  which one digit suffices, and an optional exponent. A numeral denotes the rational
  `± coefficient · 10 ^ exponent` and is rounded once, to the nearest double.
-/

namespace DocQuery.Decimal

def digitValue (c : Char) : Nat := c.toNat - 48

/-- The number that a row of digits denotes. -/
def ofDigits (ds : List Char) : Nat := ds.foldl (fun n c => 10 * n + digitValue c) 0

/-- One or more digits and nothing else. -/
def natural? (s : List Char) : Option Nat :=
  if !s.isEmpty && s.all Char.isDigit then some (ofDigits s) else none

/-- The sign that opens the text, and what follows it. -/
def signed : List Char → Bool × List Char
  | '-' :: r => (true, r)
  | '+' :: r => (false, r)
  | r => (false, r)

def applySign (negative : Bool) (n : Nat) : Int := if negative then -(n : Int) else n

def integer? (s : List Char) : Option Int :=
  let (negative, r) := signed s
  (natural? r).map (applySign negative)

def fitsInt64 (n : Int) : Bool := -9223372036854775808 ≤ n && n ≤ 9223372036854775807

/-- A signed 64-bit integer; one that does not fit is not read. -/
def int64? (s : String) : Option Int64 :=
  match integer? s.toList with
  | some n => if fitsInt64 n then some (Int64.ofInt n) else none
  | none => none

def fitsUnsigned64 (n : Nat) : Bool := n ≤ 18446744073709551615

/-- An unsigned 64-bit integer, which may carry a plus sign. -/
def unsigned64? (s : String) : Option Nat :=
  let digits := match s.toList with
    | '+' :: r => r
    | r => r
  (natural? digits).filter fitsUnsigned64

structure Numeral where
  negative : Bool
  coefficient : Nat
  exponent : Int
  deriving DecidableEq, Repr

namespace Numeral

/-- `e` or `E`, an optional sign and digits; nothing at all is the exponent 0. -/
def exponent? : List Char → Option Int
  | [] => some 0
  | c :: r => if c == 'e' || c == 'E' then integer? r else none

/-- Whole digits, fraction digits and what stands after them. -/
def mantissa (s : List Char) : List Char × List Char × List Char :=
  let whole := s.takeWhile Char.isDigit
  match s.dropWhile Char.isDigit with
  | '.' :: r => (whole, r.takeWhile Char.isDigit, r.dropWhile Char.isDigit)
  | r => (whole, [], r)

def read? (s : List Char) : Option Numeral :=
  let (negative, r) := signed s
  let (whole, fraction, rest) := mantissa r
  if whole.isEmpty && fraction.isEmpty then none
  else (exponent? rest).map fun e => ⟨negative, ofDigits (whole ++ fraction), e - fraction.length⟩

/-- The nearest double of the magnitude, ties to even. Magnitudes of `10 ^ 310` and above, or
below `10 ^ -330`, are settled without forming the power of ten. -/
def magnitude (n : Numeral) : Float :=
  if n.coefficient == 0 then 0.0
  else
    let top : Int := (Nat.toDigits 10 n.coefficient).length + n.exponent
    if top > 310 then 1.0 / 0.0
    else if top < -330 then 0.0
    else Float.ofScientific n.coefficient (decide (n.exponent < 0)) n.exponent.natAbs

def toFloat (n : Numeral) : Float := if n.negative then -n.magnitude else n.magnitude

end Numeral

/-- The names of the infinities and of the undefined number, in any letter case. -/
def special? (s : List Char) : Option Float :=
  let (negative, r) := signed s
  let name := String.ofList (r.map Char.toLower)
  if name == "inf" || name == "infinity" then some (if negative then -(1.0 / 0.0) else 1.0 / 0.0)
  else if name == "nan" then some (0.0 / 0.0)
  else none

/-- A floating point literal, rounded to the nearest double. -/
def float? (s : String) : Option Float :=
  match special? s.toList with
  | some x => some x
  | none => (Numeral.read? s.toList).map Numeral.toFloat

end DocQuery.Decimal
