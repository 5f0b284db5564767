/-
  DocQuery.Json.Basic — JSON values.

  An object keeps its members in the order they were written, repeated keys included.
  `first?` and `last?` are the two ways of looking a key up: a table's query engine takes the
  first member of a name, a reader that keeps one value per key keeps the last.
  `canonical` is the form in which documents are stored and shown: members sorted by key,
  one for each key, the last one written.
-/

import DocQuery.Entries

namespace DocQuery

inductive Json where
  | null
  | bool (b : Bool)
  | int (n : Int)
  | float (x : Float)
  | string (s : String)
  | array (items : List Json)
  | object (members : List (String × Json))

namespace Json

def first? (members : List (String × Json)) (key : String) : Option Json :=
  (members.find? (·.1 == key)).map (·.2)

def last? (members : List (String × Json)) (key : String) : Option Json :=
  first? members.reverse key

mutual

def canonical : Json → Json
  | .array items => .array (canonicalItems items)
  | .object members => .object (sortEntries (canonicalMembers members))
  | j => j

def canonicalItems : List Json → List Json
  | [] => []
  | j :: rest => j.canonical :: canonicalItems rest

def canonicalMembers : List (String × Json) → List (String × Json)
  | [] => []
  | (k, j) :: rest => (k, j.canonical) :: canonicalMembers rest

end

mutual

/-- How many arrays and objects are nested at the deepest point. -/
def depth : Json → Nat
  | .array items => itemsDepth items + 1
  | .object members => membersDepth members + 1
  | _ => 0

def itemsDepth : List Json → Nat
  | [] => 0
  | j :: rest => max j.depth (itemsDepth rest)

def membersDepth : List (String × Json) → Nat
  | [] => 0
  | (_, j) :: rest => max j.depth (membersDepth rest)

end

end Json

end DocQuery
