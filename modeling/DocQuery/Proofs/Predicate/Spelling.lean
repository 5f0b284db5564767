/-
  DocQuery.Proofs.Predicate.Spelling — the texts that a predicate can be written as.

  A `Spelling` is a predicate text with all that its writer may choose: a lambda's head or none,
  and at each place SQL's signs or those of a lambda, the side that the field stands on, a null
  test or a comparison with null, parentheses, indexers, letter case of keywords, and blanks. It
  has a text (`Spelling.text`), a query that it stands for (`Phrase.query`), the tokens and the
  expression between the two, and the levels of the grammar that it takes (`Phrase.levels`).
-/

import DocQuery.Predicate.Text
import DocQuery.Proofs.Path.Resolution

namespace DocQuery.Predicate

/-! ## Words -/

def literalWords : List String := ["TRUE", "FALSE", "NULL"]

def queryWords : List String := ["SELECT", "WITH"]

/-- Words that open operands of a form of their own. -/
def formWords : List String :=
  ["CASE", "CONVERT", "CAST", "TRY_CAST", "SAFE_CAST", "EXISTS", "EXTRACT", "CEIL", "FLOOR", "SUBSTR", "SUBSTRING",
    "OVERLAY", "TRIM", "INTERVAL", "NOT", "POSITION", "ARRAY"] ++
  Grammar.sessionWords ++ Grammar.clockWords ++ Grammar.shapeWords

/-- Words that open types, whose literals may stand after them. -/
def typeWords : List String :=
  ["INTERVAL", "ARRAY", "TIME", "TIMESTAMP", "ENUM", "ENUM8", "ENUM16", "SET", "FIXEDSTRING", "DATETIME64", "TABLE"] ++
  DataType.forms.flatMap (·.words.take 1)

/-- Words that open something other than a name where an operand can stand. -/
def operandWords : List String := literalWords ++ queryWords ++ formWords ++ typeWords ++ Grammar.quantifiers

/-- An identifier that is no keyword. -/
structure Identifier where
  name : String
  valid : Name.Identifier name
  free : Text.upper name ∉ operandWords

/-- A keyword in some letter case. -/
structure Cased (keyword : String) where
  word : String
  upper_eq : Text.upper word = keyword

/-- Blanks where blanks may stand. -/
structure Gap where
  chars : List Char
  blank : ∀ c ∈ chars, Lexer.isGapChar c = true

/-- Blanks where some have to stand. -/
structure Space extends Gap where
  ne_nil : chars ≠ []

/-- Whose signs are used. -/
inductive Style where
  | sql
  | lambda

/-! ## Fields -/

/-- A name on the way to a field, with indexers behind it. -/
structure Segment where
  identifier : Identifier
  indexers : List Nat

def Segment.chars (s : Segment) : List Char :=
  s.identifier.name.toList ++ s.indexers.flatMap fun n => '[' :: Nat.toDigits 10 n ++ [']']

def Segment.name (s : Segment) : String := s.identifier.name

structure Accessor where
  first : Segment
  others : List Segment

namespace Accessor

/-- The accessor behind the document's name, if it has one. -/
def under (parameter : Option Identifier) (a : Accessor) : Accessor :=
  match parameter with
  | some p => ⟨⟨p, []⟩, a.first :: a.others⟩
  | none => a

def chars (a : Accessor) : List Char := a.first.chars ++ a.others.flatMap fun s => '.' :: s.chars

def tokens (a : Accessor) : List Token :=
  .word a.first.name :: a.others.flatMap fun s => [.symbol ".", .word s.name]

def expr (a : Accessor) : Expr :=
  a.others.foldl (fun e s => .member e (.name s.name none)) (.name a.first.name none)

def path (a : Accessor) : String := Path.dotted (a.first.name :: a.others.map (·.name))

def levels (a : Accessor) : Nat := a.others.length + 1

end Accessor

/-! ## Constants -/

inductive Constant where
  | null (word : Cased "NULL")
  | boolean (b : Bool) (word : Cased (if b then "TRUE" else "FALSE"))
  | integer (n : Int64) (ne_min : n ≠ Int64.minValue)
  | text (s : String) (quotes : Style)

namespace Constant

def value : Constant → Value
  | null _ => .null
  | boolean b _ => .boolean b
  | integer n _ => .integer n
  | text s _ => .text s

def isNegative : Constant → Bool
  | integer n _ => n < 0
  | _ => false

def digits (n : Int64) : List Char := Nat.toDigits 10 n.toInt.natAbs

/-- A character between single quotes. -/
def singleQuoted (c : Char) : List Char := if c == '\'' then ['\'', '\''] else [c]

/-- A character between double quotes. -/
def doubleQuoted (c : Char) : List Char := if c == '"' || c == '\\' then ['\\', c] else [c]

def quotedChars (s : String) : Style → List Char
  | .sql => '\'' :: s.toList.flatMap singleQuoted ++ ['\'']
  | .lambda => '"' :: s.toList.flatMap doubleQuoted ++ ['"']

def chars : Constant → List Char
  | null w => w.word.toList
  | boolean _ w => w.word.toList
  | integer n _ => if n < 0 then '-' :: digits n else digits n
  | text s quotes => quotedChars s quotes

def number (n : Int64) : Literal := .number (String.ofList (digits n)) false

def tokens : Constant → List Token
  | null w => [.word w.word]
  | boolean _ w => [.word w.word]
  | integer n _ => if n < 0 then [.symbol "-", .literal (number n)] else [.literal (number n)]
  | text s _ => [.literal (.text s)]

def expr : Constant → Expr
  | null _ => .literal .null
  | boolean b _ => .literal (.boolean b)
  | integer n _ => if n < 0 then .negative (.literal (number n)) else .literal (number n)
  | text s _ => .literal (.text s)

/-- The minus sign stands one level above its number. -/
def levels (c : Constant) : Nat := if c.isNegative then 2 else 1

end Constant

/-! ## Comparisons -/

def sign : Comparison → Style → String
  | .equalTo, .lambda => "=="
  | .notEqualTo, .lambda => "!="
  | c, _ => c.symbol

/-- The sign that is left when operators have one spelling. -/
def signToken : Comparison → Style → Token
  | .notEqualTo, .lambda => .symbol "!="
  | c, _ => .symbol c.symbol

/-- Operator characters behind the sign would belong to it. -/
def goesOn : Comparison → Style → Bool
  | .equalTo, _ => false
  | .notEqualTo, .lambda => false
  | _, _ => true

/-- A field compared with a constant, on either side. -/
structure Comparing where
  comparison : Comparison
  field : Accessor
  constant : Constant
  style : Style
  fieldFirst : Bool
  before : Gap
  after : Gap
  /-- Null has no order. -/
  orderless : constant.value = .null → comparison = .equalTo ∨ comparison = .notEqualTo
  /-- A minus sign stands apart from an operator that would take it along. -/
  apart : fieldFirst = true → goesOn comparison style = true → constant.isNegative = true → after.chars ≠ []

namespace Comparing

/-- The comparison as seen from the left. -/
def written (c : Comparing) : Comparison := if c.fieldFirst then c.comparison else c.comparison.mirrored

def query (c : Comparing) : Query :=
  match c.constant.value, c.comparison with
  | .null, .equalTo => .isNull c.field.path
  | .null, _ => .isNotNull c.field.path
  | v, comparison => .unary c.field.path (.comparison comparison) v

end Comparing

/-! ## Predicates -/

/-- How a connective is written. -/
inductive Joint (c : Connective) where
  | word (word : Cased c.keyword)
  | sign

namespace Joint

def chars {c : Connective} : Joint c → List Char
  | word w => w.word.toList
  | sign => match c with
    | .and => ['&', '&']
    | .or => ['|', '|']

def token {c : Connective} : Joint c → Token
  | word w => .word w.word
  | sign => .word c.keyword

end Joint

inductive Phrase where
  | comparison (c : Comparing)
  | nullTest (field : Accessor) (before : Space) (is : Cased "IS") (after : Space)
      (negation : Option (Cased "NOT" × Space)) (null : Cased "NULL")
  | connective {c : Connective} (joint : Joint c) (left : Phrase) (before after : Gap) (right : Phrase)
  | parens (inner : Phrase)
  | spaced (before : Gap) (inner : Phrase) (after : Gap)

namespace Phrase

variable (parameter : Option Identifier)

def chars : Phrase → List Char
  | comparison c =>
    let field := (c.field.under parameter).chars
    let sign := c.before.chars ++ (sign c.written c.style).toList ++ c.after.chars
    if c.fieldFirst then field ++ sign ++ c.constant.chars else c.constant.chars ++ sign ++ field
  | nullTest field before is after negation null =>
    (field.under parameter).chars ++ before.chars ++ is.word.toList ++ after.chars ++
      (negation.elim [] fun n => n.1.word.toList ++ n.2.chars) ++ null.word.toList
  | connective joint left before after right =>
    '(' :: left.chars ++ ')' :: before.chars ++ joint.chars ++ after.chars ++ '(' :: right.chars ++ [')']
  | parens inner => '(' :: inner.chars ++ [')']
  | spaced before inner after => before.chars ++ inner.chars ++ after.chars

def tokens : Phrase → List Token
  | comparison c =>
    let field := (c.field.under parameter).tokens
    let sign := signToken c.written c.style
    if c.fieldFirst then field ++ sign :: c.constant.tokens else c.constant.tokens ++ sign :: field
  | nullTest field _ is _ negation null =>
    (field.under parameter).tokens ++ .word is.word ::
      (negation.elim [] fun n => [.word n.1.word]) ++ [.word null.word]
  | connective joint left _ _ right =>
    .symbol "(" :: left.tokens ++ .symbol ")" :: joint.token :: .symbol "(" :: right.tokens ++ [.symbol ")"]
  | parens inner => .symbol "(" :: inner.tokens ++ [.symbol ")"]
  | spaced _ inner _ => inner.tokens

def expr : Phrase → Expr
  | comparison c =>
    let field := (c.field.under parameter).expr
    if c.fieldFirst then .comparison c.written field c.constant.expr
    else .comparison c.written c.constant.expr field
  | nullTest field _ _ _ negation _ =>
    let field := (field.under parameter).expr
    if negation.isSome then .isNotNull field else .isNull field
  | @connective c _ left _ _ right => .connective c (.nested left.expr) (.nested right.expr)
  | parens inner => .nested inner.expr
  | spaced _ inner _ => inner.expr

/-- The levels of the grammar that reading takes: the right side of an operator, the names behind
the first, and what stands in parentheses are each one level deeper. -/
def levels : Phrase → Nat
  | comparison c =>
    let field := (c.field.under parameter).levels
    if c.fieldFirst then max field (c.constant.levels + 1) else max c.constant.levels (field + 1)
  | nullTest field _ _ _ _ _ => (field.under parameter).levels
  | connective _ left _ _ right => max (left.levels + 1) (right.levels + 2)
  | parens inner => inner.levels + 1
  | spaced _ inner _ => inner.levels

def query : Phrase → Query
  | comparison c => c.query
  | nullTest field _ _ _ negation _ => if negation.isSome then .isNotNull field.path else .isNull field.path
  | @connective c _ left _ _ right => .binary c left.query right.query
  | parens inner => inner.query
  | spaced _ inner _ => inner.query

end Phrase

/-! ## Texts -/

/-- The head of a lambda. -/
structure Head where
  parameter : Identifier
  before : Gap
  /-- The blanks inside the parentheses, if there are any. -/
  parens : Option (Gap × Gap)
  after : Gap

def Head.chars (h : Head) : List Char :=
  h.before.chars ++
    (match h.parens with
      | some (opening, closing) =>
        '(' :: opening.chars ++ h.parameter.name.toList ++ closing.chars ++ [')']
      | none => h.parameter.name.toList) ++
    h.after.chars ++ ['=', '>']

structure Spelling where
  head : Option Head
  body : Phrase

namespace Spelling

def parameter (s : Spelling) : Option Identifier := s.head.map (·.parameter)

def text (s : Spelling) : String :=
  String.ofList ((s.head.elim [] Head.chars) ++ s.body.chars s.parameter)

def query (s : Spelling) : Query := s.body.query

def levels (s : Spelling) : Nat := s.body.levels s.parameter

end Spelling

end DocQuery.Predicate
