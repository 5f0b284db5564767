/-
  DocQuery.Store.Cell — what a table's query engine computes with.

  A cell is nothing, a number or a text. Numbers compare by value, also an integer with a
  double, and stand before all texts; texts compare by code point. Compared with nothing,
  every cell is incomparable.
-/

import DocQuery.Query.Basic
import DocQuery.Store.Truth

namespace DocQuery

inductive Cell where
  | null
  | integer (n : Int)
  | real (x : Float)
  | text (s : String)

namespace Cell

def isNull : Cell → Bool
  | null => true
  | _ => false

/-- An undefined number is nothing. -/
def ofFloat (x : Float) : Cell := if x.isNaN then null else real x

/-- A constant as it is handed to the engine. -/
def ofValue : Value → Cell
  | .null => null
  | .integer n => integer n.toInt
  | .float x => ofFloat x
  | .text s => text s
  | .boolean b => integer (if b then 1 else 0)
  | .instant t => text t.columnText
  | .guid g => text g.text

/-! ## Order -/

def compareFloats (x y : Float) : Ordering := if x < y then .lt else if x == y then .eq else .gt

/-- An integer with a double, by their exact values. -/
def compareMixed (n : Int) (x : Float) : Ordering :=
  if x.isInf then if Decimal.isNegative x then .gt else .lt
  else
    let b := Decimal.Binary.ofFloat x
    let m := Decimal.applySign (Decimal.isNegative x) b.m
    if b.q ≥ 0 then compare n (m * Int.pow 2 b.q.natAbs) else compare (n * Int.pow 2 b.q.natAbs) m

def compareTexts (s t : String) : Ordering := if s < t then .lt else if s == t then .eq else .gt

/-- The order of all cells: nothing, numbers, texts. -/
def order : Cell → Cell → Ordering
  | null, null => .eq
  | null, _ => .lt
  | _, null => .gt
  | integer m, integer n => compare m n
  | integer m, real y => compareMixed m y
  | real x, integer n => (compareMixed n x).swap
  | real x, real y => compareFloats x y
  | text s, text t => compareTexts s t
  | text _, _ => .gt
  | _, text _ => .lt

end Cell

/-- Whether two sides in this order satisfy the comparison. -/
def Comparison.admits : Comparison → Ordering → Bool
  | equalTo, o => o == .eq
  | notEqualTo, o => o != .eq
  | greaterThan, o => o == .gt
  | greaterOrEqualTo, o => o != .lt
  | lessThan, o => o == .lt
  | lessOrEqualTo, o => o != .gt

namespace Cell

def compares (c : Comparison) (left right : Cell) : Truth :=
  if left.isNull || right.isNull then none else some (c.admits (order left right))

/-- Membership in a set of cells. With nothing among them it is unknown unless it is certain. -/
def isIn (v : Cell) (set : List Cell) : Truth :=
  if set.isEmpty then some false
  else if v.isNull then none
  else if set.any fun w => compares .equalTo v w == some true then some true
  else if set.any isNull then none
  else some false

/-! ## Conversion -/

def isSpace (c : Char) : Bool := c == ' ' || ('\t' ≤ c && c ≤ '\r')

def trimSpaces (s : List Char) : List Char :=
  ((s.dropWhile isSpace).reverse.dropWhile isSpace).reverse

/-- The number a text writes out, if it writes out nothing else. -/
def number? (s : String) : Option Cell :=
  let s := trimSpaces s.toList
  match (Decimal.integer? s).filter Decimal.fitsInt64 with
  | some n => some (integer n)
  | none => (Decimal.Numeral.read? s).map fun n => real n.toFloat

/-- What stands opposite a number is a number if it can be. -/
def asNumber : Cell → Cell
  | text s => (number? s).getD (text s)
  | v => v

/-- What stands opposite an identity is a text if it can be. -/
def asText : Cell → Cell
  | integer n => text (toString n)
  | real x => text (Decimal.columnText x)
  | v => v

def clampInt64 (n : Int) : Int := max (-9223372036854775808) (min 9223372036854775807 n)

/-- The double without its fraction, inside the range of integers. -/
def truncate (x : Float) : Int :=
  if x.isInf then clampInt64 (Decimal.applySign (Decimal.isNegative x) (Nat.pow 2 64))
  else
    let b := Decimal.Binary.ofFloat x
    let m := if b.q ≥ 0 then b.m * Nat.pow 2 b.q.natAbs else b.m / Nat.pow 2 b.q.natAbs
    clampInt64 (Decimal.applySign (Decimal.isNegative x) m)

/-- The integer at the start of a text; zero if there is none. -/
def leadingInteger (s : List Char) : Int :=
  let (negative, r) := Decimal.signed (s.dropWhile isSpace)
  clampInt64 (Decimal.applySign negative (Decimal.ofDigits (r.takeWhile Char.isDigit)))

/-- The number at the start of a text; zero if there is none. -/
def leadingReal (s : List Char) : Float :=
  let s := s.dropWhile isSpace
  let found := (List.range (s.length + 1)).reverse.findSome? fun n => Decimal.Numeral.read? (s.take n)
  (found.map Decimal.Numeral.toFloat).getD 0.0

def castInteger : Cell → Cell
  | null => null
  | integer n => integer n
  | real x => integer (truncate x)
  | text s => integer (leadingInteger s.toList)

def castReal : Cell → Cell
  | null => null
  | integer n => real (Float.ofInt n)
  | real x => real x
  | text s => real (leadingReal s.toList)

end Cell

end DocQuery
