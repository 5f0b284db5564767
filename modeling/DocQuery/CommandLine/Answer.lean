/-
  DocQuery.CommandLine.Answer — what is printed for a request.

  A statement is printed with its parameters below it, each in a comment line, or as JSON. An
  inferred schema is printed as JSON. Of several faults the first is told: the file, the
  bindings, the predicate, the sort keys, the table, the statement.
-/

import DocQuery.CommandLine.Request
import DocQuery.Predicate.Text
import DocQuery.Schema.Infer
import DocQuery.Schema.Text
import DocQuery.Statement.Compile
import DocQuery.Value.Literal

namespace DocQuery.CommandLine

inductive Fault where
  /-- The words of the command line are no request. -/
  | usage
  | error (e : Error)
  | schemaFile (path : String)
  | documentsFile (path : String)
  | notJson (path : String)
  | binding (spec : String)
  | sort (spec : String)
  deriving DecidableEq, Repr

namespace Fault

def message : Fault → Option String
  | usage => none
  | error e => e.message
  | schemaFile path => some ("Failed to read schema '" ++ path ++ "'")
  | documentsFile path => some ("Failed to read '" ++ path ++ "'")
  | notJson path => some ("'" ++ path ++ "' is not valid JSON")
  | binding spec => some ("Binding '" ++ spec ++ "' must look like name=value")
  | sort spec => some ("Sort '" ++ spec ++ "' must be Field, Field:asc or Field:desc")

end Fault

def orFault {α : Type} (r : Except Error α) : Except Fault α := r.mapError .error

/-! ## Parts of a request -/

/-- `name=value`; the first equals sign divides, and blanks around either part do not count. -/
def binding (spec : String) : Except Fault (String × Value) :=
  match spec.toList.dropWhile (· != '=') with
  | '=' :: value =>
    .ok (Text.trim (String.ofList (spec.toList.takeWhile (· != '='))),
      .ofLiteral (Text.trim (String.ofList value)))
  | _ => .error (.binding spec)

/-- What stands before and after the last colon, if there is one. -/
def splitAtLastColon (spec : String) : Option (String × String) :=
  let reversed := spec.toList.reverse
  match reversed.dropWhile (· != ':') with
  | ':' :: front =>
    some (String.ofList front.reverse, String.ofList (reversed.takeWhile (· != ':')).reverse)
  | _ => none

/-- `Field`, `Field:asc` or `Field:desc`, the direction in any letter case. -/
def sortKey (spec : String) : Except Fault SortKey :=
  match splitAtLastColon spec with
  | none => orFault (SortKey.checked (Text.trim spec) .ascending)
  | some (field, direction) =>
    if Text.sameIgnoringCase direction "desc" then orFault (SortKey.checked (Text.trim field) .descending)
    else if Text.sameIgnoringCase direction "asc" then
      orFault (SortKey.checked (Text.trim field) .ascending)
    else .error (.sort spec)

def table (name : String) (schema : Option String) : Except Error Table := do
  let t ← Table.named name
  match schema with
  | some s => t.inSchema s
  | none => return t

/-- The predicate with its placeholders bound; of two bindings of a name the later counts. -/
def query (r : CompileRequest) : Except Fault (Option Query) := do
  let bindings ← r.bindings.mapM binding
  let setting : Predicate.Setting := ⟨r.parameter, bindings.reverse, Predicate.Rule.all⟩
  match r.predicate with
  | some text => return some (← orFault (Query.ofText setting text))
  | none => return none

/-- Keys that name their direction, then those that descend. -/
def sorting (r : CompileRequest) : Except Fault Sorting := do
  let keys ← r.orderBy.mapM sortKey
  let descending ← r.orderByDescending.mapM fun field => orFault (SortKey.checked field .descending)
  return ⟨keys ++ descending⟩

/-! ## Answers -/

def parameterLine (d : Dialect) (p : Nat × Value) : String :=
  "-- " ++ d.placeholder p.1 ++ " = " ++ p.2.display ++ "\n"

def printed (r : CompileRequest) (c : Compiled) : String :=
  if r.json then c.toJson.indented ++ "\n"
  else c.text ++ "\n" ++ String.join (c.numbered.map (parameterLine r.dialect))

def compiled (r : CompileRequest) (schemaText : String) : Except Fault Compiled := do
  let schema ← orFault (Schema.ofText schemaText)
  let query ← query r
  let sorting ← sorting r
  let table ← orFault (table (r.table.getD schema.root) r.tableSchema)
  orFault (if r.count then Statement.count schema r.dialect table query
    else Statement.select schema r.dialect table query sorting r.page)

/-- An array of documents, or a single one. -/
def samples : Json → List Json
  | .array items => items
  | j => [j]

def inferred (r : InferRequest) (text : String) : Except Fault Schema :=
  match Json.read? text with
  | none => .error (.notJson r.documents)
  | some j => orFault (Schema.infer r.root (samples j))

/-- What a request prints, given the text of its file if it could be read. -/
def answer : Request → Option String → Except Fault String
  | .compile r, some text => (compiled r text).map (printed r)
  | .compile r, none => .error (.schemaFile r.schema)
  | .infer r, some text => (inferred r text).map fun s => s.toJson.indented ++ "\n"
  | .infer r, none => .error (.documentsFile r.documents)

end DocQuery.CommandLine
