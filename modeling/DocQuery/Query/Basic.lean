/-
  DocQuery.Query.Basic — predicate trees over fields.

  A leaf compares a field with a constant or asks whether it is null. The checked
  constructors refuse a blank field name and a null constant; absence is asked for with
  `isNull` and `isNotNull`. A field name keeps the blanks around it.
-/

import DocQuery.Error
import DocQuery.Text.Blank
import DocQuery.Value.Basic

namespace DocQuery

inductive Comparison where
  | equalTo
  | notEqualTo
  | greaterThan
  | greaterOrEqualTo
  | lessThan
  | lessOrEqualTo
  deriving DecidableEq, Repr

namespace Comparison

def name : Comparison → String
  | equalTo => "EqualTo"
  | notEqualTo => "NotEqualTo"
  | greaterThan => "GreaterThan"
  | greaterOrEqualTo => "GreaterOrEqualTo"
  | lessThan => "LessThan"
  | lessOrEqualTo => "LessOrEqualTo"

def symbol : Comparison → String
  | equalTo => "="
  | notEqualTo => "<>"
  | greaterThan => ">"
  | greaterOrEqualTo => ">="
  | lessThan => "<"
  | lessOrEqualTo => "<="

/-- The comparison with its sides exchanged. -/
def mirrored : Comparison → Comparison
  | equalTo => equalTo
  | notEqualTo => notEqualTo
  | greaterThan => lessThan
  | greaterOrEqualTo => lessOrEqualTo
  | lessThan => greaterThan
  | lessOrEqualTo => greaterOrEqualTo

theorem mirrored_mirrored (c : Comparison) : c.mirrored.mirrored = c := by cases c <;> rfl

end Comparison

/-- Comparisons of a scalar field, and membership in an array of values. -/
inductive Operator where
  | comparison (c : Comparison)
  | contains
  | notContains
  deriving DecidableEq, Repr

namespace Operator

def name : Operator → String
  | comparison c => c.name
  | contains => "Contains"
  | notContains => "NotContains"

def symbol? : Operator → Option String
  | comparison c => some c.symbol
  | _ => none

def isMembership : Operator → Bool
  | comparison _ => false
  | _ => true

def all : List Operator :=
  [.comparison .equalTo, .comparison .notEqualTo, .comparison .greaterThan,
   .comparison .greaterOrEqualTo, .comparison .lessThan, .comparison .lessOrEqualTo, .contains,
   .notContains]

def ofName? (text : String) : Option Operator := all.find? (·.name == text)

theorem ofName?_name (op : Operator) : ofName? op.name = some op := by
  cases op with
  | comparison c => cases c <;> decide
  | contains => decide
  | notContains => decide

end Operator

inductive Connective where
  | and
  | or
  deriving DecidableEq, Repr

namespace Connective

def name : Connective → String
  | and => "And"
  | or => "Or"

def keyword : Connective → String
  | and => "AND"
  | or => "OR"

end Connective

inductive Query where
  | unary (field : String) (op : Operator) (value : Value)
  | isNull (field : String)
  | isNotNull (field : String)
  | binary (c : Connective) (left right : Query)

namespace Query

/-! ## Checked construction -/

def checkField (field : String) : Except Error Unit :=
  if Text.allBlank field then .error (.argument .blankField) else .ok ()

def checkedUnary (field : String) (op : Operator) (value : Value) : Except Error Query := do
  checkField field
  if value.isNull then throw (.argument (.nullValue field))
  return unary field op value

def compare (c : Comparison) (field : String) (value : Value) : Except Error Query :=
  checkedUnary field (.comparison c) value

def checkedIsNull (field : String) : Except Error Query := do
  checkField field
  return isNull field

def checkedIsNotNull (field : String) : Except Error Query := do
  checkField field
  return isNotNull field

/-! ## Views -/

/-- The fields of the leaves, from left to right. -/
def fields : Query → List String
  | unary field _ _ => [field]
  | isNull field => [field]
  | isNotNull field => [field]
  | binary _ left right => left.fields ++ right.fields

def beq : Query → Query → Bool
  | unary f op v, unary g op' w => f == g && op == op' && v == w
  | isNull f, isNull g => f == g
  | isNotNull f, isNotNull g => f == g
  | binary c l r, binary c' l' r' => c == c' && beq l l' && beq r r'
  | _, _ => false

instance : BEq Query := ⟨beq⟩

def display : Query → String
  | unary field op value => "( " ++ field ++ " " ++ op.name ++ " " ++ value.display ++ " )"
  | isNull field => "( " ++ field ++ " IS NULL )"
  | isNotNull field => "( " ++ field ++ " IS NOT NULL )"
  | binary c left right => "( " ++ left.display ++ " " ++ c.name ++ " " ++ right.display ++ " )"

end Query

end DocQuery
