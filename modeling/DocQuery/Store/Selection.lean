/-
  DocQuery.Store.Selection — what a statement selects from the rows of a table.

  Each row is joined with every choice of elements from the joined arrays; an array that is
  missing gives no choice, so the row drops out. Of the joined rows those stay for which the
  condition is true. With joins, rows that agree in identity, document and the elements of the
  grouped joins are one. Sorting is stable and puts nothing before everything.

  The sub-select over a value array goes by the name of the function that lists its members, so
  a join labelled with that name is out of its sight.
-/

import DocQuery.Json.Reader
import DocQuery.Json.Writer
import DocQuery.Statement.Compile
import DocQuery.Store.Timestamp

namespace DocQuery

/-- A stored document: an identity and a text that ought to be JSON. -/
structure Row where
  id : Guid
  document : String
  deriving DecidableEq, Repr

namespace Json

/-- The value that names lead to; of two members of a name the first is meant. -/
def follow : List String → Json → Option Json
  | [], j => some j
  | name :: rest, .object members => (first? members name).bind (follow rest)
  | _ :: _, _ => none

/-- The values that a join goes through: items of an array, values of an object's members, or
the one value that is neither. -/
def elements : Json → List Json
  | .array items => items
  | .object members => members.map (·.2)
  | j => [j]

/-- A value as the query engine hands it on; arrays and objects are the text written for them. The engine
keeps a stored text's own spelling of numbers and characters, so what is said of such cells is said of texts
that were written. -/
def cell : Json → Cell
  | .null => .null
  | .bool b => .integer (if b then 1 else 0)
  | .int n => if Decimal.fitsInt64 n then .integer n else .real (Float.ofInt n)
  | .float x => Cell.ofFloat x
  | .string s => .text s
  | j => .text j.compact

end Json

namespace Statement

/-- The function that lists an array's members. -/
def membersFunction : String := "json_each"

/-- The source cannot be named inside a sub-select over `membersFunction`. -/
def Source.isHidden : Source → Bool
  | .document => false
  | .element label => Text.sameIgnoringCase label membersFunction

/-- A row with the elements chosen from the joined arrays, by the label of the join. -/
structure Joined where
  row : Row
  elements : List (String × Json)

namespace Joined

def parse (text : String) : Except Error Json :=
  match Json.readWith? .stored text with
  | some j => .ok j
  | none => .error .storage

/-- An element that is a text is JSON once more. -/
def elementSource : Json → Except Error (Option Json)
  | .null => .ok none
  | .string s => (parse s).map some
  | j => .ok (some j)

def source (r : Joined) : Source → Except Error (Option Json)
  | .document => (parse r.row.document).map some
  | .element label => match r.elements.lookup label with
    | some j => elementSource j
    | none => .ok none

def find (r : Joined) (l : Location) : Except Error (Option Json) := do
  let source ← r.source l.source
  return source.bind (Json.follow l.path)

def cell (r : Joined) (l : Location) : Except Error Cell := do
  match ← r.find l with
  | some j => return j.cell
  | none => return .null

def element (r : Joined) (label : String) : Cell :=
  match r.elements.lookup label with
  | some j => j.cell
  | none => .null

/-- The members of a value array. Read from a hidden source it has none. -/
def members (r : Joined) (l : Location) : Except Error (List Json) := do
  if l.source.isHidden then return []
  match ← r.find l with
  | some j => return j.elements
  | none => return []

end Joined

/-! ## Conditions -/

/-- A cell as the type of its field, when the clock shows `now`. -/
def typed (now : Nat) : Scalar → Cell → Cell
  | .int, v => v.castInteger
  | .bool, v => v.castInteger
  | .float, v => v.castReal
  | .datetime, v => Timestamp.ofCell now v
  | .string, v => v
  | .guid, v => v

/-- A parameter opposite a field of this type. -/
def opposite : Scalar → Cell → Cell
  | .int, v => v.asNumber
  | .bool, v => v.asNumber
  | .float, v => v.asNumber
  | .datetime, v => v
  | .string, v => v
  | .guid, v => v

def parameter (parameters : List Cell) (number : Nat) : Cell := (parameters[number - 1]?).getD .null

def negateIf (negated : Bool) (t : Truth) : Truth := if negated then t.not else t

/-- Whether the condition is true. The second operand is looked at only where it decides: an
unknown first operand of a conjunction is as good as a false one. -/
def Condition.holds (now : Nat) (parameters : List Cell) (r : Joined) : Condition → Except Error Bool
  | .identityNull negated => .ok negated
  | .identityCompare c i =>
    .ok (Cell.compares c (.text r.row.id.text) (parameter parameters i).asText).isTrue
  | .isNull negated place => do
    let v ← r.cell place
    return v.isNull != negated
  | .compare c place type i => do
    let v ← r.cell place
    return (Cell.compares c (typed now type v) (opposite type (parameter parameters i))).isTrue
  | .member negated place type i => do
    let set := (← r.members place).map fun e => typed now type e.cell
    return (negateIf negated (Cell.isIn (opposite type (parameter parameters i)) set)).isTrue
  | .binary .and left right => do
    if ← left.holds now parameters r then right.holds now parameters r else return false
  | .binary .or left right => do
    if ← left.holds now parameters r then return true else right.holds now parameters r

def selects (now : Nat) (parameters : List Cell) (condition : Option Condition) (r : Joined) : Except Error Bool :=
  match condition with
  | some c => c.holds now parameters r
  | none => .ok true

/-! ## Joins -/

def choices (r : Joined) (j : ArrayJoin) : Except Error (List Joined) := do
  match ← r.find j.array with
  | some v => return v.elements.map fun e => { r with elements := (j.label, e) :: r.elements }
  | none => return []

def joinAll : List ArrayJoin → Joined → Except Error (List Joined)
  | [], r => .ok [r]
  | j :: rest, r => do
    let rows ← choices r j
    return (← rows.mapM (joinAll rest)).flatten

/-- The joined rows that the condition is true of. -/
def matching (s : Statement) (now : Nat) (parameters : List Cell) (rows : List Row) :
    Except Error (List Joined) := do
  let joined ← rows.mapM fun row => joinAll s.joins ⟨row, []⟩
  joined.flatten.filterM (selects now parameters s.condition)

/-! ## Order -/

/-- The first difference between two lists of cells. -/
def compareCells : List Cell → List Cell → Ordering
  | a :: as, b :: bs => (a.order b).then (compareCells as bs)
  | _, _ => .eq

def directed (d : Direction) (o : Ordering) : Ordering :=
  match d with
  | .ascending => o
  | .descending => o.swap

def Order.direction : Order → Direction
  | .identity d => d
  | .field _ _ d => d

def Order.cell (now : Nat) (r : Joined) : Order → Except Error Cell
  | .identity _ => .ok (.text r.row.id.text)
  | .field place type _ => do return typed now type (← r.cell place)

def compareKeys : List Order → List Cell → List Cell → Ordering
  | o :: os, a :: as, b :: bs => (directed o.direction (a.order b)).then (compareKeys os as bs)
  | _, _, _ => .eq

/-- What tells groups apart within a table: the identity, and the elements of grouped joins. -/
def groupKey (joins : List ArrayJoin) (r : Joined) : List Cell :=
  .text r.row.id.text :: (joins.filter (·.grouped)).map fun j => r.element j.label

/-- Sorted pairs without those whose key repeats the one before. -/
def dropRepeated : List (List Cell × Joined) → List (List Cell × Joined)
  | a :: b :: rest =>
    if compareCells a.1 b.1 == .eq then dropRepeated (a :: rest) else a :: dropRepeated (b :: rest)
  | rest => rest

/-- One joined row for each group, in the order of the group keys. -/
def groups (joins : List ArrayJoin) (rows : List Joined) : List Joined :=
  let keyed := rows.map fun r => (groupKey joins r, r)
  (dropRepeated (keyed.mergeSort fun a b => compareCells a.1 b.1 != .gt)).map (·.2)

def sorted (now : Nat) (order : List Order) (rows : List Joined) : Except Error (List Joined) := do
  let keyed ← rows.mapM fun r => do return (← order.mapM (Order.cell now r), r)
  return (keyed.mergeSort fun a b => compareKeys order a.1 b.1 != .gt).map (·.2)

/-! ## Scanning -/

/-- A comparison that an index on the identity can serve. -/
def indexed : Condition → Bool
  | .identityCompare c _ => c != .notEqualTo
  | .binary .and left right => indexed left || indexed right
  | _ => false

/-- Rows are visited as they were inserted, or by identity where the index serves. -/
def scan (s : Statement) (rows : List Row) : List Row :=
  if s.condition.any indexed then rows.mergeSort fun a b => !(b.id.text < a.id.text) else rows

/-! ## Answers -/

/-- A page's bounds have to fit the engine's integers. -/
def checkPage (p : Page) : Except Error Unit :=
  if !p.isUnbounded && (p.skip ≥ Nat.pow 2 63 || p.take.any (· ≥ Nat.pow 2 63)) then .error .storage else .ok ()

/-- The rows of a statement for rows. Of an empty page nothing is worked out, not even where it begins. -/
def rows (s : Statement) (now : Nat) (parameters : List Cell) (table : List Row) : Except Error (List Row) := do
  if s.page.take == some 0 then return []
  checkPage s.page
  let found ← matching s now parameters (scan s table)
  let found := if s.joins.isEmpty then found else groups s.joins found
  let found ← sorted now s.order found
  return s.page.select (found.map (·.row))

/-- How many identities a statement selects. -/
def total (s : Statement) (now : Nat) (parameters : List Cell) (table : List Row) : Except Error Nat := do
  let found ← matching s now parameters table
  return (found.map (·.row.id)).eraseDups.length

end Statement

end DocQuery
