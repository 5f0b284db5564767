/-
  DocQuery.Name — identifiers, and the names a schema or a table may bear.

  An identifier is an ASCII letter or underscore followed by ASCII letters, digits and
  underscores. Names of fields and tables are identifiers of bounded length, which is what
  makes it safe to set them inside path literals and quoted names.
-/

import DocQuery.Error

namespace DocQuery

namespace Name

def isStart (c : Char) : Bool := c.isAlpha || c == '_'

def isPart (c : Char) : Bool := c.isAlphanum || c == '_'

def isIdentifier : List Char → Bool
  | [] => false
  | c :: r => isStart c && r.all isPart

/-- The first thing wrong with a name, if anything is. -/
def fault? (name : String) : Option NameFault :=
  if name.isEmpty then some .empty
  else if !isIdentifier name.toList then some .characters
  else if name.length > maxNameLength then some .tooLong
  else none

end Name

def checkFieldName (name : String) : Except Error Unit :=
  match Name.fault? name with
  | some fault => .error (.schema (.fieldName name fault))
  | none => .ok ()

def checkTableName (name : String) : Except Error Unit :=
  match Name.fault? name with
  | some fault => .error (.argument (.tableName name fault))
  | none => .ok ()

end DocQuery
