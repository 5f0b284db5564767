/-
  DocQuery.Predicate.ToQuery — from expressions to queries.

  Nothing is evaluated. Parentheses are dropped, connectives are kept, a null test or a
  comparison of a field with a constant becomes a leaf; an expression of any other shape is
  refused, by its text. A comparison with the field on the right is turned round, and one with
  null becomes a null test.
-/

import DocQuery.Decimal.Numeral
import DocQuery.Predicate.Expr
import DocQuery.Text.Blank

namespace DocQuery.Predicate

/-- The shapes of expressions that a setting can allow. -/
inductive Rule where
  | parentheses
  | connectives
  | nullTests
  | comparisons
  deriving DecidableEq, Repr

def Rule.all : List Rule := [.parentheses, .connectives, .nullTests, .comparisons]

/-- What a predicate text is read with: the name of the document, where the text does not give
one itself, the values of placeholders, later ones first, and the rules in force. -/
structure Setting where
  parameter : Option String
  bindings : List (String × Value)
  rules : List Rule

namespace Setting

def empty : Setting := ⟨none, [], Rule.all⟩

def bind (s : Setting) (name : String) (v : Value) : Setting :=
  { s with bindings := (name, v) :: s.bindings }

/-- The parameter that a lambda's head names goes before the setting's own. -/
def withHead (s : Setting) (head : Option String) : Setting :=
  { s with parameter := head <|> s.parameter }

end Setting

namespace Expr

/-! ## Fields -/

def isNumber : Expr → Bool
  | literal (.number _ _) => true
  | _ => false

/-- The names along a chain of members. Subscripts say nothing, if they are numbers. -/
def segments : Expr → Except Error (List String)
  | name s _ => .ok [s]
  | member base part => do
    let front ← base.segments
    let back ← part.segments
    return front ++ back
  | index base subscript => do
    let front ← base.segments
    if subscript.isNumber then return front else throw (.shape .memberAccess)
  | slice base _ => do
    let _ ← base.segments
    throw (.shape .memberAccess)
  | e => .error (.shape (.notField e.text))

/-- A chain of names without the document's own name in front. -/
def withoutParameter (parameter : Option String) (names : List String) : Except Error (List String) :=
  match parameter, names with
  | some p, first :: others =>
    if first != p then .ok names
    else if others.isEmpty then .error (.shape (.wholeDocument p))
    else .ok others
  | _, names => .ok names

/-- The dotted path that an expression names. -/
def fieldPath (setting : Setting) (e : Expr) : Except Error String := do
  let names ← e.segments
  let names ← withoutParameter setting.parameter names
  return String.intercalate "." names

/-! ## Constants -/

/-- A number is an integer if it fits one of 64 bits, and a double otherwise. -/
def numberValue (digits : String) : Except Error Value :=
  match Decimal.int64? digits with
  | some n => .ok (.integer n)
  | none => match Decimal.float? digits with
    | some x => .ok (.float x)
    | none => .error (.number digits)

def isSign (c : Char) : Bool := c == ':' || c == '@' || c == '$'

/-- The name a placeholder is bound under. -/
def bindingName (placeholder : String) : String :=
  String.ofList (placeholder.toList.dropWhile isSign)

def literalValue (setting : Setting) : Literal → Except Error Value
  | .number digits _ => numberValue digits
  | .text s => .ok (.text s)
  | .boolean b => .ok (.boolean b)
  | .null => .ok .null
  | .placeholder p => match setting.bindings.lookup (bindingName p) with
    | some v => .ok v
    | none => .error (.argument (.unbound p))
  | l => .error (.shape (.literal l.written))

def negated : Value → Except Error Value
  | .integer n => .ok (.integer (-n))
  | .float x => .ok (.float (-x))
  | v => .error (.shape (.notNegatable v.display))

def constant (setting : Setting) : Expr → Except Error Value
  | literal l => literalValue setting l
  | nested inner => inner.constant setting
  | negative operand => do negated (← operand.constant setting)
  | e => .error (.shape (.notConstant e.text))

/-! ## Queries -/

def nullLeaf (c : Comparison) (path : String) : Except Error Query :=
  match c with
  | .equalTo => Query.checkedIsNull path
  | .notEqualTo => Query.checkedIsNotNull path
  | c => .error (.shape (.nullOrdering c.name path))

/-- A field against a constant. -/
def leaf (setting : Setting) (c : Comparison) (field value : Expr) : Except Error Query := do
  let path ← field.fieldPath setting
  let v ← value.constant setting
  if v.isNull then nullLeaf c path else Query.compare c path v

/-- The field is looked for on the left first. -/
def compared (setting : Setting) (c : Comparison) (left right : Expr) : Except Error Query :=
  if left.isField then leaf setting c left right
  else if right.isField then leaf setting c.mirrored right left
  else .error (.shape (.noFieldSide left.text c.name right.text))

def refused (e : Expr) : Except Error Query := .error (.shape (.unsupported e.text))

def toQuery (setting : Setting) : Expr → Except Error Query
  | nested inner =>
    if setting.rules.contains .parentheses then inner.toQuery setting else refused (nested inner)
  | connective c left right =>
    if setting.rules.contains .connectives then do
      let l ← left.toQuery setting
      let r ← right.toQuery setting
      return .binary c l r
    else refused (connective c left right)
  | isNull operand =>
    if setting.rules.contains .nullTests then do
      Query.checkedIsNull (← operand.fieldPath setting)
    else refused (isNull operand)
  | isNotNull operand =>
    if setting.rules.contains .nullTests then do
      Query.checkedIsNotNull (← operand.fieldPath setting)
    else refused (isNotNull operand)
  | comparison c left right =>
    if setting.rules.contains .comparisons then compared setting c left right
    else refused (comparison c left right)
  | e => refused e

end Expr

end DocQuery.Predicate
