/-
  DocQuery.Dialect — what the three engines write differently.

  Each function gives one piece of a statement's text. A `source` is the text of the document
  column or of a join's element; a `path` is a list of field names below it. Names in paths
  are identifiers, so path literals need no quoting; other names are quoted by doubling the
  closing quote.
-/

import DocQuery.Path.Resolve
import DocQuery.Query.Page
import DocQuery.Text.Fold

namespace DocQuery

inductive Dialect where
  | sqlserver
  | postgres
  | sqlite
  deriving DecidableEq, Repr

namespace Dialect

def all : List Dialect := [sqlserver, postgres, sqlite]

def name : Dialect → String
  | sqlserver => "sqlserver"
  | postgres => "postgres"
  | sqlite => "sqlite"

def ofName? (text : String) : Option Dialect := all.find? (·.name == text)

/-- A dialect as a command line names it, short forms included. -/
def ofOption? (text : String) : Option Dialect :=
  match text with
  | "mssql" => some sqlserver
  | "postgresql" => some postgres
  | _ => ofName? text

/-! ## Names -/

/-- The text between quotes, with the closing quote doubled. -/
def quotedBy (left right : Char) (name : String) : String :=
  String.ofList (left :: name.toList.flatMap (fun c => if c == right then [c, c] else [c]) ++ [right])

def quoteIdentifier : Dialect → String → String
  | sqlserver, name => quotedBy '[' ']' name
  | _, name => quotedBy '"' '"' name

def defaultSchema : Dialect → Option String
  | sqlserver => some "dbo"
  | _ => none

def tableName (d : Dialect) (name : String) (schema : Option String) : String :=
  match schema <|> d.defaultSchema with
  | some schema => d.quoteIdentifier schema ++ "." ++ d.quoteIdentifier name
  | none => d.quoteIdentifier name

def placeholderMark : Dialect → String
  | postgres => "$"
  | _ => "@"

/-- The placeholder of a parameter, counted from 1. -/
def placeholder (d : Dialect) (index : Nat) : String := d.placeholderMark ++ toString index

/-! ## Paths -/

/-- `$.a.b` -/
def stepsLiteral (path : List String) : String := "'$" ++ String.join (path.map ("." ++ ·)) ++ "'"

/-- A text array of the names, in braces. -/
def arrayLiteral (path : List String) : String := "'\x7b" ++ String.intercalate "," path ++ "\x7d'"

def pathLiteral : Dialect → List String → String
  | postgres, path => arrayLiteral path
  | _, path => stepsLiteral path

/-- The join that exposes every element of the array at a path under an alias. -/
def crossApply (d : Dialect) (source : String) (path : List String) (label : String) : String :=
  let literal := d.pathLiteral path
  let label := d.quoteIdentifier label
  match d with
  | sqlserver => "CROSS APPLY OPENJSON(" ++ source ++ ", " ++ literal ++ ") WITH (" ++ label ++
      " nvarchar(MAX) '$' AS JSON)"
  | postgres => "CROSS JOIN LATERAL jsonb_array_elements(" ++ source ++ " #> " ++ literal ++ ") AS " ++
      label ++ "(value)"
  | sqlite => "CROSS JOIN json_each(" ++ source ++ ", " ++ literal ++ ") AS " ++ label

/-- The current element of a join. -/
def element (d : Dialect) (label : String) : String :=
  match d with
  | sqlserver => d.quoteIdentifier label
  | _ => d.quoteIdentifier label ++ ".value"

/-- The scalar at a path, as text. -/
def extract (d : Dialect) (source : String) (path : List String) : String :=
  match d with
  | sqlserver => "JSON_VALUE(" ++ source ++ ", " ++ d.pathLiteral path ++ ")"
  | postgres => source ++ " #>> " ++ d.pathLiteral path
  | sqlite => "json_extract(" ++ source ++ ", " ++ d.pathLiteral path ++ ")"

/-! ## Types -/

/-- An extracted text as a comparable value of a scalar type. -/
def castScalar (d : Dialect) (expr : String) (s : Scalar) : String :=
  match d, s with
  | _, .string => expr
  | _, .guid => expr
  | sqlserver, .int => "CONVERT(int, " ++ expr ++ ")"
  | sqlserver, .float => "CONVERT(float, " ++ expr ++ ")"
  | sqlserver, .bool => "CONVERT(bit, " ++ expr ++ ")"
  | sqlserver, .datetime => "CONVERT(datetime2, " ++ expr ++ ", 127)"
  | postgres, .int => "(" ++ expr ++ ")::integer"
  | postgres, .float => "(" ++ expr ++ ")::double precision"
  | postgres, .bool => "(" ++ expr ++ ")::boolean"
  | postgres, .datetime => "(" ++ expr ++ ")::timestamptz"
  | sqlite, .int => "CAST(" ++ expr ++ " AS INTEGER)"
  | sqlite, .bool => "CAST(" ++ expr ++ " AS INTEGER)"
  | sqlite, .float => "CAST(" ++ expr ++ " AS REAL)"
  | sqlite, .datetime => "strftime('%Y-%m-%d %H:%M:%f', " ++ expr ++ ")"

/-- Objects have no cast. -/
def cast (d : Dialect) (expr : String) : Path.Element → Option String
  | .scalar s => some (d.castScalar expr s)
  | .object _ => none

/-- The sub-select of the members of a value array. -/
def valueSet (d : Dialect) (source : String) (path : List String) (s : Scalar) : String :=
  let member := d.castScalar "value" s
  let rows := match d with
    | sqlserver => "OPENJSON(" ++ source ++ ", " ++ d.pathLiteral path ++ ")"
    | postgres => "jsonb_array_elements_text(" ++ source ++ " #> " ++ d.pathLiteral path ++ ")"
    | sqlite => "json_each(" ++ source ++ ", " ++ d.pathLiteral path ++ ")"
  "SELECT " ++ member ++ " FROM " ++ rows

/-! ## Paging -/

def takeText (page : Page) (absent : String) : String :=
  match page.take with
  | some n => toString n
  | none => absent

/-- The lines that follow ORDER BY. -/
def paging (d : Dialect) (page : Page) (ordered : Bool) : List String :=
  match d with
  | sqlserver =>
    if page.isUnbounded then []
    else
      (if ordered then [] else ["ORDER BY (SELECT NULL)"]) ++
      ["OFFSET " ++ toString page.skip ++ " ROWS"] ++
      (match page.take with
       | some n => ["FETCH NEXT " ++ toString n ++ " ROWS ONLY"]
       | none => [])
  | postgres =>
    (match page.take with
     | some n => ["LIMIT " ++ toString n]
     | none => []) ++
    (if page.skip > 0 then ["OFFSET " ++ toString page.skip] else [])
  | sqlite =>
    if page.isUnbounded then []
    else
      let limit := "LIMIT " ++ takeText page "-1"
      [if page.skip > 0 then limit ++ " OFFSET " ++ toString page.skip else limit]

end Dialect

end DocQuery
