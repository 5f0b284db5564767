/-
  DocQuery.Value.Basic — the constants that fields are compared with.

  Values of different kinds differ, except that an integer may equal a double. Doubles are
  equal when they are less than `epsilon` apart, or both undefined.
-/

import DocQuery.Guid
import DocQuery.Instant.Text
import DocQuery.Json.Basic
import DocQuery.Decimal.Layout

namespace DocQuery

inductive Value where
  | null
  | integer (n : Int64)
  | float (x : Float)
  | text (s : String)
  | boolean (b : Bool)
  | instant (t : Instant)
  | guid (g : Guid)

namespace Value

/-- The distance from 1 to the next double, `2 ^ -52`. -/
def epsilon : Float := Float.ofBits 0x3CB0000000000000

/-- The double nearest to an integer. -/
def nearest (n : Int64) : Float := Float.ofInt n.toInt

def closeTo (a b : Float) : Bool := (a - b).abs < epsilon

def floatEq (a b : Float) : Bool := (a.isNaN && b.isNaN) || closeTo a b

def beq : Value → Value → Bool
  | .null, .null => true
  | .integer a, .integer b => a == b
  | .float a, .float b => floatEq a b
  | .integer n, .float x => closeTo (nearest n) x
  | .float x, .integer n => closeTo (nearest n) x
  | .text a, .text b => a == b
  | .boolean a, .boolean b => a == b
  | .instant a, .instant b => a == b
  | .guid a, .guid b => a == b
  | _, _ => false

instance : BEq Value := ⟨beq⟩

def isNull : Value → Bool
  | .null => true
  | _ => false

def asText? : Value → Option String
  | .text s => some s
  | _ => none

def asInteger? : Value → Option Int64
  | .integer n => some n
  | _ => none

def typeName : Value → String
  | .null => "NULL"
  | .integer _ => "INTEGER"
  | .float _ => "FLOAT"
  | .text _ => "TEXT"
  | .boolean _ => "BOOLEAN"
  | .instant _ => "DATETIME"
  | .guid _ => "UUID"

/-- The value as people read it. -/
def display : Value → String
  | .null => "NULL"
  | .integer n => toString n.toInt
  | .float x => Decimal.Layout.plain.text x
  | .text s => s
  | .boolean b => if b then "true" else "false"
  | .instant t => t.text
  | .guid g => g.text

def toJson : Value → Json
  | .null => .null
  | .integer n => .int n.toInt
  | .float x => .float x
  | .text s => .string s
  | .boolean b => .bool b
  | .instant t => .string t.zuluText
  | .guid g => .string g.text

end Value

end DocQuery
