/-
  DocQuery.CommandLine.Request — what a command line asks for.

  `compile` wants a schema and what goes into a statement; `infer` wants the name of a root type
  and sample documents. Each is about one file.
-/

import DocQuery.CommandLine.Arguments
import DocQuery.Decimal.Numeral
import DocQuery.Dialect

namespace DocQuery.CommandLine

structure CompileRequest where
  schema : String
  dialect : Dialect
  table : Option String
  tableSchema : Option String
  predicate : Option String
  parameter : Option String
  orderBy : List String
  orderByDescending : List String
  page : Page
  count : Bool
  bindings : List String
  json : Bool
  deriving DecidableEq, Repr

structure InferRequest where
  root : String
  documents : String
  deriving DecidableEq, Repr

inductive Request where
  | compile (r : CompileRequest)
  | infer (r : InferRequest)
  deriving DecidableEq, Repr

namespace Request

def compileVocabulary : Vocabulary where
  options := ["schema", "dialect", "table", "table-schema", "where", "param", "order-by",
    "order-by-desc", "skip", "take", "bind"]
  flags := ["count", "json"]

def inferVocabulary : Vocabulary where
  options := ["root"]
  flags := []

/-- A path is not empty. -/
def path? (value : String) : Option String := if value.isEmpty then none else some value

/-- An option's value as something else; an option that is not given stays so. -/
def convert {α : Type} (f : String → Option α) : Option String → Option (Option α)
  | none => some none
  | some value => (f value).map some

def compileOf? (args : List Argument) : Option CompileRequest := do
  guard (Argument.plains args).isEmpty
  let schema ← convert path? (← Argument.single? "schema" args)
  let dialect ← convert Dialect.ofOption? (← Argument.single? "dialect" args)
  let skip ← convert Decimal.unsigned64? (← Argument.single? "skip" args)
  let take ← convert Decimal.unsigned64? (← Argument.single? "take" args)
  return {
    schema := ← schema
    dialect := dialect.getD .sqlite
    table := ← Argument.single? "table" args
    tableSchema := ← Argument.single? "table-schema" args
    predicate := ← Argument.single? "where" args
    parameter := ← Argument.single? "param" args
    orderBy := Argument.values "order-by" args
    orderByDescending := Argument.values "order-by-desc" args
    page := ⟨skip.getD 0, take⟩
    count := ← Argument.given? "count" args
    bindings := Argument.values "bind" args
    json := ← Argument.given? "json" args }

def inferOf? (args : List Argument) : Option InferRequest := do
  let root ← Argument.single? "root" args
  match Argument.plains args with
  | [documents] => return ⟨← root, ← path? documents⟩
  | _ => none

/-- The request in the words of a command line, if they make one. -/
def ofWords? : List String → Option Request
  | "compile" :: rest => do
    return .compile (← compileOf? (← Argument.read? compileVocabulary rest))
  | "infer" :: rest => do
    return .infer (← inferOf? (← Argument.read? inferVocabulary rest))
  | _ => none

/-- The file a request is about. -/
def path : Request → String
  | compile r => r.schema
  | infer r => r.documents

end Request

end DocQuery.CommandLine
