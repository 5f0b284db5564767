/-
  DocQuery.Decimal.Shortest — the fewest decimal digits that read back as the same double.

  A finite positive double is `m · 2 ^ q`. The reals that round to it form an interval around
  it, whose ends belong to it exactly when `m` is even. For 1, 2, … 17 digits the value's two
  neighbours on that decimal grid are tried; the first grid with a neighbour in the interval
  wins, and of two such neighbours the nearer. `Tie` says which one is taken when both are
  equally near.
-/

namespace DocQuery.Decimal

/-- A finite double `± m · 2 ^ q`; `lowest` marks the mantissa whose lower neighbour is nearer. -/
structure Binary where
  m : Nat
  q : Int
  lowest : Bool
  deriving DecidableEq, Repr

/-- The magnitude of a finite double. -/
def Binary.ofFloat (x : Float) : Binary :=
  let bits := x.toBits.toNat
  let e := bits / Nat.pow 2 52 % Nat.pow 2 11
  let f := bits % Nat.pow 2 52
  if e == 0 then ⟨f, -1074, false⟩ else ⟨f + Nat.pow 2 52, Int.ofNat e - 1075, f == 0 && e != 1⟩

def isNegative (x : Float) : Bool := x.toBits.toNat ≥ Nat.pow 2 63

inductive Tie where
  | up
  | toEven
  deriving DecidableEq, Repr

/-- Digits and the power of ten they are counted in. -/
structure Digits where
  digits : Nat
  exponent : Int
  deriving DecidableEq, Repr

def digitCount (n : Nat) : Nat := (Nat.toDigits 10 n).length

/-- The `p` with `10 ^ (p - 1) ≤ num / den < 10 ^ p`. -/
def magnitude (num den : Nat) : Int :=
  if den ≤ num then digitCount (num / den)
  else 1 - digitCount ((den + num - 1) / num - 1)

/-- `num / den` in units of `10 ^ k`, as a fraction. -/
def inUnits (num den : Nat) (k : Int) : Nat × Nat :=
  if k ≥ 0 then (num, den * Nat.pow 10 k.natAbs) else (num * Nat.pow 10 k.natAbs, den)

/-- The neighbour on the grid `10 ^ k` that reads back, if one does. The interval is
`[4m - below, 4m + 2]` in quarters of `2 ^ q`. -/
def onGrid (b : Binary) (tie : Tie) (k : Int) : Option Digits :=
  let quarters := if b.q ≥ 0 then (4 * b.m * Nat.pow 2 b.q.natAbs, 4) else (4 * b.m, 4 * Nat.pow 2 b.q.natAbs)
  let unit := if b.q ≥ 0 then Nat.pow 2 b.q.natAbs else 1
  let (num, den) := inUnits quarters.1 quarters.2 k
  let one := (inUnits unit quarters.2 k).1
  let below := (if b.lowest then 1 else 2) * one
  let above := 2 * one
  let c := num / den
  let low := c * den
  let high := (c + 1) * den
  let closed := b.m % 2 == 0
  let lowOk := if closed then num ≤ low + below else num < low + below
  let highOk := if closed then high ≤ num + above else high < num + above
  match decide lowOk && c != 0, decide highOk with
  | false, false => none
  | true, false => some ⟨c, k⟩
  | false, true => some ⟨c + 1, k⟩
  | true, true =>
    let down := num - low
    let up := high - num
    if down < up then some ⟨c, k⟩
    else if up < down then some ⟨c + 1, k⟩
    else match tie with
      | .up => some ⟨c + 1, k⟩
      | .toEven => some ⟨if c % 2 == 0 then c else c + 1, k⟩

/-- Digits without zeros at the end. -/
def stripZeros : Nat → Digits → Digits
  | 0, d => d
  | fuel + 1, d =>
    if d.digits != 0 && d.digits % 10 == 0 then stripZeros fuel ⟨d.digits / 10, d.exponent + 1⟩ else d

/-- The shortest digits of a positive double. -/
def shortest (b : Binary) (tie : Tie) : Digits :=
  let (num, den) := if b.q ≥ 0 then (b.m * Nat.pow 2 b.q.natAbs, 1) else (b.m, Nat.pow 2 b.q.natAbs)
  let p := magnitude num den
  let found := (List.range 17).findSome? fun n => onGrid b tie (p - Int.ofNat (n + 1))
  stripZeros 20 (found.getD ⟨0, 0⟩)

end DocQuery.Decimal
