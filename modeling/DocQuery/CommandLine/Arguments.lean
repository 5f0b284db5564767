/-
  DocQuery.CommandLine.Arguments — the words of a command line.

  An option is `--name value` or `--name=value`, a flag is `--name`. A value in a word of its
  own may not look like an option. After a lone `--` every word stands for itself. Options and
  flags that may be given once only are refused when they come again.
-/

namespace DocQuery.CommandLine

inductive Argument where
  | option (name value : String)
  | flag (name : String)
  | plain (value : String)
  deriving DecidableEq, Repr

/-- The names a command knows. -/
structure Vocabulary where
  options : List String
  flags : List String

namespace Argument

/-- A word that opens with a dash and is more than one. -/
def looksLikeOption (word : String) : Bool :=
  match word.toList with
  | '-' :: _ :: _ => true
  | _ => false

/-- The name in `--name`, and the value if the word goes on with `=`. -/
def long? (word : String) : Option (String × Option String) :=
  match word.toList with
  | '-' :: '-' :: body =>
    let name := String.ofList (body.takeWhile (· != '='))
    match body.dropWhile (· != '=') with
    | '=' :: value => some (name, some (String.ofList value))
    | _ => some (name, none)
  | _ => none

/-- Words to arguments, unless one of them is unknown or lacks its value. -/
def read? (v : Vocabulary) : List String → Option (List Argument)
  | [] => some []
  | word :: rest =>
    if word == "--" then some (rest.map .plain)
    else if !looksLikeOption word then (read? v rest).map (.plain word :: ·)
    else match long? word with
      | none => none
      | some (name, some value) =>
        if v.options.contains name then (read? v rest).map (.option name value :: ·) else none
      | some (name, none) =>
        if v.flags.contains name then (read? v rest).map (.flag name :: ·)
        else if !v.options.contains name then none
        else match rest with
          | value :: rest =>
            if looksLikeOption value then none else (read? v rest).map (.option name value :: ·)
          | [] => none

/-- The values of an option, in the order they were given. -/
def values (name : String) (args : List Argument) : List String :=
  args.filterMap fun
    | .option n value => if n == name then some value else none
    | _ => none

/-- The value of an option that may be given once. -/
def single? (name : String) (args : List Argument) : Option (Option String) :=
  match values name args with
  | [] => some none
  | [value] => some (some value)
  | _ => none

/-- Whether a flag is given; not more than once. -/
def given? (name : String) (args : List Argument) : Option Bool :=
  match args.count (.flag name) with
  | 0 => some false
  | 1 => some true
  | _ => none

def plains (args : List Argument) : List String :=
  args.filterMap fun
    | .plain value => some value
    | _ => none

end Argument

end DocQuery.CommandLine
