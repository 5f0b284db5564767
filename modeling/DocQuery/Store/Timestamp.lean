/-
  DocQuery.Store.Timestamp — dates and times of day as the query engine reads them.

  The engine reads `YYYY-MM-DD` with or without a minus before it, then spaces or `T`, `HH:MM`,
  optional seconds with a fraction, and a zone of at most fourteen hours. The date may stand
  alone, and so may the time, which is then of the first of January of 2000. A number counts
  days and their fractions since noon of the twenty-fourth of November of -4713, and `now` is
  the time on the clock. A text ends at its first character 0. All dates are of the Gregorian
  calendar.

  The instant is shown in UTC with milliseconds. A fraction is worked out in doubles and stops
  at 0.999. Where a zone has to be subtracted the milliseconds are rounded before, otherwise
  when they are shown; nothing is ever cut off. Time that passes is counted in milliseconds.
-/

import DocQuery.Instant.Text
import DocQuery.Decimal.Shortest
import DocQuery.Store.Cell

namespace DocQuery.Timestamp

open DocQuery.Instant

/-! ## Reading -/

/-- A number of exactly two digits, at most `limit`. -/
def two? (limit : Nat) (s : List Char) : Option (Nat × List Char) := do
  let (n, s) ← digits? 2 s
  if n ≤ limit then some (n, s) else none

/-- A date as it is written: every month may have 31 days. -/
def date? (s : List Char) : Option (Date × List Char) := do
  let (negative, s) := match s with
    | '-' :: r => (true, r)
    | s => (false, s)
  let (year, s) ← digits? 4 s
  let s ← char? '-' s
  let (month, s) ← two? 12 s
  let s ← char? '-' s
  let (day, s) ← two? 31 s
  if month ≥ 1 && day ≥ 1 then some (⟨Decimal.applySign negative year, month, day⟩, s) else none

def isDateGap (c : Char) : Bool := Cell.isSpace c || c == 'T'

/-- Digits of a fraction and the power of ten they are divided by. -/
def appendDigit (state : Float × Float) (c : Char) : Float × Float :=
  (state.1 * 10.0 + Float.ofNat (Decimal.digitValue c), state.2 * 10.0)

def fractionOf (ds : List Char) : Float :=
  let (n, scale) := ds.foldl appendDigit (0.0, 1.0)
  let x := n / scale
  if x > 0.999 then 0.999 else x

/-- Seconds with their fraction. -/
def seconds? (s : List Char) : Option (Float × List Char) := do
  let (whole, s) ← two? 59 s
  match s with
  | '.' :: r =>
    let ds := r.takeWhile Char.isDigit
    if ds.isEmpty then return (Float.ofNat whole, s)
    else return (Float.ofNat whole + fractionOf ds, r.dropWhile Char.isDigit)
  | s => return (Float.ofNat whole, s)

def atEnd (s : List Char) : Bool := (s.dropWhile Cell.isSpace).isEmpty

/-- Minutes ahead of UTC, up to the end of the text. -/
def zone? (s : List Char) : Option Int :=
  match s.dropWhile Cell.isSpace with
  | [] => some 0
  | c :: r =>
    if c == 'Z' || c == 'z' then if atEnd r then some 0 else none
    else if c == '+' || c == '-' then do
      let (hours, r) ← two? 14 r
      let r ← char? ':' r
      let (minutes, r) ← two? 59 r
      if atEnd r then some (Decimal.applySign (c == '-') (60 * hours + minutes)) else none
    else none

/-- A time of day, and the minutes that its zone is ahead of UTC. -/
structure TimeOfDay where
  hour : Nat
  minute : Nat
  seconds : Float
  offset : Int

def TimeOfDay.midnight : TimeOfDay := ⟨0, 0, 0.0, 0⟩

def time? (s : List Char) : Option TimeOfDay := do
  let (hour, s) ← two? 24 s
  let s ← char? ':' s
  let (minute, s) ← two? 59 s
  let (seconds, s) ← match s with
    | ':' :: r => seconds? r
    | s => some (0.0, s)
  let offset ← zone? s
  return ⟨hour, minute, seconds, offset⟩

/-- What a time value denotes. -/
inductive Moment where
  | written (date : Option Date) (time : TimeOfDay)
  | days (x : Float)
  | now

def dated? (s : List Char) : Option Moment := do
  let (date, s) ← date? s
  let s := s.dropWhile isDateGap
  let time ← if s.isEmpty then some .midnight else time? s
  return .written (some date) time

/-- A number of days, or a word for the time on the clock. -/
def counted? (s : List Char) : Option Moment :=
  let isWord := Text.sameIgnoringCase (String.ofList s)
  if isWord "now" then some .now
  else match Decimal.Numeral.read? (Cell.trimSpaces s) with
    | some n => some (.days n.toFloat)
    | none => if isWord "subsec" || isWord "subsecond" then some .now else none

def read? (text : String) : Option Moment :=
  let s := text.toList.takeWhile (· != Char.ofNat 0)
  dated? s <|> (time? s).map (.written none) <|> counted? s

/-! ## Showing -/

/-- A double in thousandths, a half going up. -/
def thousandths (x : Float) : Nat :=
  let b := Decimal.Binary.ofFloat x
  if b.q ≥ 0 then 1000 * b.m * Nat.pow 2 b.q.natAbs
  else (2000 * b.m + Nat.pow 2 b.q.natAbs) / (2 * Nat.pow 2 b.q.natAbs)

/-- Milliseconds of a minute. -/
def milliseconds (offset : Int) (seconds : Float) : Nat :=
  if offset == 0 then thousandths seconds else (seconds * 1000.0 + 0.5).toUInt64.toNat

def yearText (year : Int) : List Char :=
  if year < 0 then '-' :: padded 3 year.natAbs else padded 4 year.natAbs

def dateText (d : Date) : List Char :=
  yearText d.year ++ '-' :: padded 2 d.month ++ '-' :: padded 2 d.day

def shown (date : Date) (hour minute ms : Nat) : String :=
  String.ofList (dateText date ++ ' ' :: padded 2 hour ++ ':' :: padded 2 minute ++ ':' ::
    padded 2 (ms / 1000) ++ '.' :: padded 3 (ms % 1000))

/-- A month has 31 days here; the last days of a short one are the first of the next. -/
def carryDay (d : Date) : Date :=
  let days := Date.daysIn d.year d.month
  if d.day ≤ days then d else ⟨d.year, d.month + 1, d.day - days⟩

/-- Time is counted from noon of the twenty-fourth of November of -4713 to the end of the year 9999. -/
def isCounted (d : Date) (minutes : Nat) : Bool :=
  d.year ≤ 9999 && (d.year > -4713 || d.year == -4713 && (d.month > 11 ||
    d.month == 11 && (d.day > 24 || d.day == 24 && minutes ≥ 720)))

def defaultDate : Date := ⟨2000, 1, 1⟩

/-- A date and time in UTC. Where no zone is subtracted the time stays as it is written, and so
does a date whose day every month has. -/
def writtenText? (date : Option Date) (t : TimeOfDay) : Option String :=
  let (moved, minutes) := shift (carryDay (date.getD defaultDate)) (60 * t.hour + t.minute) t.offset
  let ms := milliseconds t.offset t.seconds
  if !isCounted moved minutes then none
  else if t.offset == 0 then
    some (shown ((date.filter fun d => d.day ≤ 28).getD moved) t.hour t.minute ms)
  else some (shown moved (minutes / 60) (minutes % 60) ms)

/-- The date that many days after the twenty-fourth of November of -4713. -/
def dateAfter (days : Nat) : Date :=
  -- From the first of March of -4800 on, every 400 years have as many days.
  let days := days + 32044
  let (era, days) := (days / 146097, days % 146097)
  let year := (days - days / 1460 + days / 36524 - days / 146096) / 365
  let day := days - (365 * year + year / 4 - year / 100)
  let month := (5 * day + 2) / 153
  let year : Int := 400 * era + year - 4800
  let day := day - (153 * month + 2) / 5 + 1
  if month < 10 then ⟨year, month + 3, day⟩ else ⟨year + 1, month - 9, day⟩

/-- The instant so many milliseconds after the first noon. -/
def countedText? (ms : Nat) : Option String :=
  if ms > 464269060799999 then none
  else
    let sinceMidnight := ms + 43200000
    let minutes := sinceMidnight % 86400000 / 60000
    some (shown (dateAfter (sinceMidnight / 86400000)) (minutes / 60) (minutes % 60) (sinceMidnight % 60000))

/-- Days in milliseconds. -/
def daysText? (x : Float) : Option String :=
  if 0.0 ≤ x && x < 5373484.5 then countedText? (x * 86400000.0 + 0.5).toUInt64.toNat else none

/-- A clock that shows 0 is not running. -/
def Moment.text? (clock : Nat) : Moment → Option String
  | .written date time => writtenText? date time
  | .days x => daysText? x
  | .now => if clock == 0 then none else countedText? clock

/-- The date and time a text names, in UTC. -/
def columnText? (clock : Nat) (text : String) : Option String := (read? text).bind (·.text? clock)

/-- The datetime in a cell. -/
def ofCell (clock : Nat) (v : Cell) : Cell :=
  let text := match v with
    | .null => none
    | .integer n => daysText? (Float.ofInt n)
    | .real x => daysText? x
    | .text s => columnText? clock s
  (text.map Cell.text).getD .null

end DocQuery.Timestamp
