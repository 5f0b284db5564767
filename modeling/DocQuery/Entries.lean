/-
  DocQuery.Entries — values under keys, in byte order of the keys.

  A repeated key keeps the value that comes last.
-/

namespace DocQuery

/-- A value under a key, in byte order of the keys; a repeated key keeps the new value. -/
def insertSorted {α : Type} (key : String) (v : α) : List (String × α) → List (String × α)
  | [] => [(key, v)]
  | (k, w) :: rest =>
    if key < k then (key, v) :: (k, w) :: rest
    else if k < key then (k, w) :: insertSorted key v rest
    else (key, v) :: rest

/-- Entries in order of the keys, the last one for each key. -/
def sortEntries {α : Type} (entries : List (String × α)) : List (String × α) :=
  entries.foldl (fun acc e => insertSorted e.1 e.2 acc) []

end DocQuery
