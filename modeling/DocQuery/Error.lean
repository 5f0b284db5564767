/-
  DocQuery.Error — everything that can be wrong with a schema, a query, a predicate text or a
  request to a store, by cause. `message` has the wording; errors whose wording belongs to a
  grammar or to the storage engine have none.
-/

namespace DocQuery

/-- Why a name is refused. Names are ASCII identifiers of at most `maxNameLength` characters. -/
inductive NameFault where
  | empty
  | characters
  | tooLong
  deriving DecidableEq, Repr

def maxNameLength : Nat := 128

/-- What makes an expression no predicate. Expressions stand in their written form. -/
inductive ShapeFault where
  | trailing (token expression : String)
  | noFieldSide (left operator right : String)
  | nullOrdering (operator path : String)
  | wholeDocument (parameter : String)
  | memberAccess
  | notField (expression : String)
  | notConstant (expression : String)
  | notNegatable (value : String)
  | literal (text : String)
  | unsupported (expression : String)
  deriving DecidableEq, Repr

/-- A leaf that no checked constructor makes. -/
inductive QueryFault where
  | blankField
  | nullValue (operator field : String)
  deriving DecidableEq, Repr

inductive ArgumentFault where
  | blankField
  | nullValue (field : String)
  | blankSortField
  | blankPredicate
  | unbound (placeholder : String)
  | tableName (name : String) (fault : NameFault)
  | noDocuments
  | notObject (json : String)
  | noDatabasePath (url : String)
  | urlScheme (url : String)
  deriving DecidableEq, Repr

inductive SchemaFault where
  | fieldName (name : String) (fault : NameFault)
  | repeatedField (typeName field : String)
  | repeatedType (name : String)
  | undeclaredRoot (name : String)
  | unknownReference (typeName field target : String)
  | nestedArray (typeName field : String)
  | arrayArity (count : Nat)
  | nestedArrayIn (field : String)
  | untraversable (field typeName : String)
  deriving DecidableEq, Repr

inductive Error where
  | pathNotFound (path typeName : String)
  | arrayTerminal (path : String)
  | shape (fault : ShapeFault)
  | fieldType (path typeName dialect : String)
  | operator (operator path : String)
  | query (fault : QueryFault)
  | argument (fault : ArgumentFault)
  | schema (fault : SchemaFault)
  | number (text : String)
  | unreadable
  | storage
  | serialization
  deriving DecidableEq, Repr

namespace ShapeFault

def message : ShapeFault → Option String
  | trailing token expression => some ("unexpected '" ++ token ++ "' after " ++ expression)
  | noFieldSide left operator right =>
    some ("comparison needs a field on one side: " ++ left ++ " " ++ operator ++ " " ++ right)
  | nullOrdering operator path => some (operator ++ " cannot compare '" ++ path ++ "' against null")
  | wholeDocument parameter =>
    some ("'" ++ parameter ++ "' refers to the whole document, not a field")
  | memberAccess => none
  | notField expression => some ("expected a field accessor, got: " ++ expression)
  | notConstant expression => some ("expected a constant, got: " ++ expression)
  | notNegatable value => some ("cannot negate " ++ value)
  | literal text => some ("unsupported literal: " ++ text)
  | unsupported expression => some expression

end ShapeFault

namespace QueryFault

def message : QueryFault → String
  | blankField => "query references an empty field name"
  | nullValue operator field => operator ++ " on '" ++ field ++ "' has a null value"

end QueryFault

namespace ArgumentFault

def tableMessage (name : String) : NameFault → String
  | .empty => "Table name cannot be empty"
  | .characters => "Table name '" ++ name ++ "' can only contain letters, numbers, and underscores" ++
      " and must not start with a digit"
  | .tooLong => "Table name '" ++ name ++ "' too long (max " ++ toString maxNameLength ++ " characters)"

def message : ArgumentFault → String
  | blankField => "Field name cannot be empty or whitespace"
  | nullValue field =>
    "Value compared against '" ++ field ++ "' cannot be null, use is_null/is_not_null"
  | blankSortField => "Sort field cannot be empty or whitespace"
  | blankPredicate => "Predicate text cannot be empty"
  | unbound placeholder => "No value bound for parameter '" ++ placeholder ++ "'"
  | tableName name fault => tableMessage name fault
  | noDocuments => "Schema inference needs at least one document"
  | notObject json => "Expected a JSON object document, got: " ++ json
  | noDatabasePath url => "Store URL '" ++ url ++ "' has no database path"
  | urlScheme url =>
    "Store URL must start with 'sqlite://' or be 'sqlite::memory:', got '" ++ url ++ "'"

end ArgumentFault

namespace SchemaFault

def fieldMessage (name : String) : NameFault → String
  | .empty => "Field name cannot be empty"
  | .characters => "Field name '" ++ name ++ "' must start with a letter or underscore" ++
      " and contain only letters, numbers, and underscores"
  | .tooLong => "Field name '" ++ name ++ "' too long (max " ++ toString maxNameLength ++ " characters)"

def message : SchemaFault → String
  | fieldName name fault => fieldMessage name fault
  | repeatedField typeName field => "Type '" ++ typeName ++ "' declares field '" ++ field ++
      "' more than once (names are case-insensitive)"
  | repeatedType name => "Type '" ++ name ++ "' is declared more than once"
  | undeclaredRoot name => "Root type '" ++ name ++ "' is not declared"
  | unknownReference typeName field target =>
    "Field '" ++ typeName ++ "." ++ field ++ "' references unknown type '" ++ target ++ "'"
  | nestedArray typeName field => "Field '" ++ typeName ++ "." ++ field ++
      "' is an array of arrays, which cannot be addressed by a path"
  | arrayArity count => "Array type must list exactly one element type, got " ++ toString count
  | nestedArrayIn field =>
    "Field '" ++ field ++ "' holds arrays of arrays, which cannot be addressed by a path"
  | untraversable field typeName =>
    "Field '" ++ field ++ "' has type " ++ typeName ++ " which cannot be traversed"

end SchemaFault

namespace Error

def message : Error → Option String
  | pathNotFound path typeName => some ("Path '" ++ path ++ "' not found on type '" ++ typeName ++ "'")
  | arrayTerminal path =>
    some ("Path '" ++ path ++ "' ends on an object array, queries must end on a scalar-bearing field")
  | shape fault => fault.message.map ("Unsupported expression shape: " ++ ·)
  | fieldType path typeName dialect => some ("Field '" ++ path ++ "' of type " ++ typeName ++
      " has no cast mapping in " ++ dialect)
  | operator op path => some ("Operator " ++ op ++ " is not supported on field '" ++ path ++ "'")
  | query fault => some ("Invalid query shape: " ++ fault.message)
  | argument fault => some ("Invalid argument: " ++ fault.message)
  | schema fault => some ("Invalid schema: " ++ fault.message)
  | number text => some ("Parse error: Invalid number: " ++ text)
  | unreadable => none
  | storage => none
  | serialization => none

end Error

end DocQuery
