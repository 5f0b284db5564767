/-
  DocQuery.Store.Config — where a store keeps its tables, and how it treats them.
-/

import DocQuery.Error
import DocQuery.Text.Blank

namespace DocQuery.Store

structure Config where
  /-- The path of the database; without one it lives in memory. -/
  file : Option String
  /-- How long a writer waits for another, in milliseconds. -/
  busyTimeout : Nat
  /-- The schema that tables of collections are put in. -/
  schema : Option String
  /-- Documents are found in the order of their identities where no other order is asked for. -/
  sortByIdentity : Bool
  deriving DecidableEq, Repr

namespace Config

def inMemory : Config := ⟨none, 5000, none, true⟩

def onFile (path : String) : Config := { inMemory with file := some path }

def memoryUrls : List String := ["sqlite::memory:", "sqlite://:memory:"]

def scheme : List Char := "sqlite://".toList

/-- A configuration from a URL; blanks around it do not count. -/
def ofUrl (url : String) : Except Error Config :=
  let url := Text.trim url
  if memoryUrls.contains url then .ok inMemory
  else if scheme.isPrefixOf url.toList then
    let path := url.toList.drop scheme.length
    if path.isEmpty then .error (.argument (.noDatabasePath url)) else .ok (onFile (String.ofList path))
  else .error (.argument (.urlScheme url))

end Config

end DocQuery.Store
