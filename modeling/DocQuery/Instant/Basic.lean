/-
  DocQuery.Instant.Basic — points in time, kept as UTC calendar fields.

  `nanos` counts from the start of the second and reaches into the following second during a
  leap second, which is the only time it is 10^9 or more. A leap second may follow any second;
  texts know of those that follow the last second of a minute. Moving a time from a zone to UTC
  subtracts less than a day, so it changes the date by one day at most.
-/

namespace DocQuery

structure Date where
  year : Int
  month : Nat
  day : Nat
  deriving DecidableEq, Repr

namespace Date

def isLeap (year : Int) : Bool := year % 4 == 0 && (year % 100 != 0 || year % 400 == 0)

def daysIn (year : Int) (month : Nat) : Nat :=
  match month with
  | 2 => if isLeap year then 29 else 28
  | 4 | 6 | 9 | 11 => 30
  | _ => 31

def valid (d : Date) : Bool :=
  1 ≤ d.month && d.month ≤ 12 && 1 ≤ d.day && d.day ≤ daysIn d.year d.month

def next (d : Date) : Date :=
  if d.day < daysIn d.year d.month then { d with day := d.day + 1 }
  else if d.month < 12 then ⟨d.year, d.month + 1, 1⟩
  else ⟨d.year + 1, 1, 1⟩

def previous (d : Date) : Date :=
  if 1 < d.day then { d with day := d.day - 1 }
  else if 1 < d.month then ⟨d.year, d.month - 1, daysIn d.year (d.month - 1)⟩
  else ⟨d.year - 1, 12, 31⟩

end Date

structure Instant where
  date : Date
  hour : Nat
  minute : Nat
  second : Nat
  nanos : Nat
  deriving DecidableEq, Repr

namespace Instant

/-- The date and minute of the day, `offset` minutes to the west. -/
def shift (date : Date) (minutes : Nat) (offset : Int) : Date × Nat :=
  let m : Int := minutes - offset
  if m < 0 then (date.previous, (m + 1440).toNat)
  else if m < 1440 then (date, m.toNat)
  else (date.next, (m - 1440).toNat)

/-- The instant at which a clock `offset` minutes ahead of UTC shows these fields. -/
def ofLocal (date : Date) (hour minute second nanos : Nat) (offset : Int) : Instant :=
  let (date, minutes) := shift date (60 * hour + minute) offset
  ⟨date, minutes / 60, minutes % 60, second, nanos⟩

end Instant

end DocQuery
