/-
  DocQuery.Predicate.Operation — what may follow an operand, and how strongly it binds.

  Of two operators with an operand between them the stronger takes it; equals take it from the
  left. An operator nobody knows binds like the bitwise ones.
-/

import DocQuery.Predicate.Cursor
import DocQuery.Query.Basic

namespace DocQuery.Predicate

abbrev Strength := Nat

namespace Strength

def weakest : Strength := 0
def or : Strength := 10
def and : Strength := 20
def not : Strength := 30
def test : Strength := 40
def comparison : Strength := 50
def membership : Strength := 60
def custom : Strength := 70
def exclusiveOr : Strength := 75
def sum : Strength := 80
def product : Strength := 90
def power : Strength := 100
def zone : Strength := 110
def collation : Strength := 120
def subscript : Strength := 130
def cast : Strength := 140
def access : Strength := 200

end Strength

inductive Operation where
  | connective (c : Connective)
  | comparison (c : Comparison)
  /-- Any other operator between two operands; comparisons among them can be quantified. -/
  | written (text : String) (quantifiable : Bool)
  /-- An operator that is named in parentheses. -/
  | spelled
  | is
  | notNull
  | list (negated : Bool)
  | range (negated : Bool)
  /-- A match with a pattern, by the keyword that asks for it. -/
  | pattern (negated : Bool) (keyword : String)
  | element
  | zone
  | cast
  | factorial
  /-- A word or symbol that takes the place of an operator and is none. -/
  | misplaced
  deriving DecidableEq, Repr

namespace Operation

/-- An operation, its strength and the tokens after it. -/
abbrev Next := Option (Operation × Strength × Tokens)

/-- Other comparisons than those a query has. -/
def matchSymbols : List String := ["~", "~*", "!~", "!~*", "~~", "~~*", "!~~", "!~~*"]

/-- Symbols that separate or open something, or stand only before an operand. -/
def notBetween : List String := [
  ",", ";", "(", ")", "]", "\x7b", "\x7d", ".", ":", "=>", "\\", "!!", "|/", "||/", "@-@"]

def isOperator (s : String) : Bool :=
  !notBetween.contains s && "+-*/<>=~!@#%^&|?".toList.contains s.front

def ofSymbol? (s : String) : Option (Operation × Strength) :=
  match s with
  | "=" => some (.comparison .equalTo, .comparison)
  | "==" => some (.comparison .equalTo, .comparison)
  | "<>" => some (.comparison .notEqualTo, .comparison)
  | "!=" => some (.comparison .notEqualTo, .comparison)
  | "<" => some (.comparison .lessThan, .comparison)
  | "<=" => some (.comparison .lessOrEqualTo, .comparison)
  | ">" => some (.comparison .greaterThan, .comparison)
  | ">=" => some (.comparison .greaterOrEqualTo, .comparison)
  | "<=>" => some (.written s false, .comparison)
  | ":=" => some (.written s false, .comparison)
  | "+" => some (.written s false, .sum)
  | "-" => some (.written s false, .sum)
  | "*" => some (.written s false, .product)
  | "/" => some (.written s false, .product)
  | "%" => some (.written s false, .product)
  | "^" => some (.written s false, .power)
  | "[" => some (.misplaced, .subscript)
  | "::" => some (.cast, .cast)
  | "!" => some (.factorial, .custom)
  | s =>
    if matchSymbols.contains s then some (.written s true, .comparison)
    else if isOperator s then some (.written s false, .custom)
    else none

/-- Lists, ranges and patterns, which a NOT may precede. -/
def membership? (negated : Bool) (ts : Tokens) : Next :=
  match Tokens.keyword? ts with
  | some ("IN", r) => some (.list negated, .membership, r)
  | some ("BETWEEN", r) => some (.range negated, .membership, r)
  | some ("LIKE", r) => some (.pattern negated "LIKE", .membership, r)
  | some ("ILIKE", r) => some (.pattern negated "ILIKE", .membership, r)
  | some ("SIMILAR", r) => some (.pattern negated "SIMILAR", .membership, r)
  | some ("RLIKE", r) => some (.pattern negated "RLIKE", .membership, r)
  | some ("REGEXP", r) => some (.pattern negated "REGEXP", .membership, r)
  | some ("MATCH", r) => some (.misplaced, .membership, r)
  | _ => none

def afterNot? (ts : Tokens) : Next :=
  match Tokens.keyword? ts with
  | some ("NULL", r) => some (.notNull, .test, r)
  | some ("MEMBER", r) => some (.misplaced, .membership, r)
  | _ => membership? true ts

/-- A zone follows the words AT TIME ZONE; AT by itself is no operator. -/
def afterAt? (ts : Tokens) : Next :=
  (Tokens.afterKeywords? ["TIME", "ZONE"] ts).map (.zone, .zone, ·)

def ofKeyword? (ts : Tokens) : Next :=
  match Tokens.keyword? ts with
  | some ("OR", r) => some (.connective .or, .or, r)
  | some ("AND", r) => some (.connective .and, .and, r)
  | some ("XOR", r) => some (.written "XOR" false, .exclusiveOr, r)
  | some ("IS", r) => some (.is, .test, r)
  | some ("NOTNULL", r) => some (.notNull, .test, r)
  | some ("NOT", r) => afterNot? r
  | some ("OVERLAPS", r) => some (.written "OVERLAPS" false, .membership, r)
  | some ("OPERATOR", r) => some (.spelled, .membership, r)
  | some ("MEMBER", r) => some (.element, .membership, r)
  | some ("AT", r) => afterAt? r
  | some ("DIV", r) => some (.misplaced, .product, r)
  | some ("COLLATE", r) => some (.misplaced, .collation, r)
  | _ => membership? false ts

def next? : Tokens → Next
  | ⟨.symbol s, _⟩ :: r => (ofSymbol? s).map fun (op, strength) => (op, strength, r)
  | ts => ofKeyword? ts

end Operation

end DocQuery.Predicate
