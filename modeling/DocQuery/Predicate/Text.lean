/-
  DocQuery.Predicate.Text — predicates and field paths from text.

  The text is SQL (`Author.Name = 'x' AND Score > 0`) or the body of a lambda
  (`post => post.Author.Name == "x" && post.Score > 0`), or a mixture. Placeholders such as
  `:name` stand for bound values.
-/

import DocQuery.Predicate.Grammar
import DocQuery.Predicate.Lambda
import DocQuery.Predicate.Lexer
import DocQuery.Predicate.Normalize
import DocQuery.Predicate.ToQuery

namespace DocQuery

namespace Predicate

/-- The whole of a normalized text as one expression. -/
def readExpr (s : List Char) : Except Error Expr :=
  match (Lexer.lexemes? s).bind (Grammar.expression Grammar.maxLevels .weakest) with
  | none => .error .unreadable
  | some (e, []) => .ok e
  | some (e, next :: _) => .error (.shape (.trailing next.token.display e.text))

/-- The name in the head of the text, and the expression in its body. -/
def readBody (text : String) : Except Error (Option String × Expr) := do
  let (head, body) := Lambda.split text.toList
  if body.all Text.isBlank then throw (.argument .blankPredicate)
  return (head, ← readExpr (normalize body))

end Predicate

/-- The query that a predicate text asks for. -/
def Query.ofText (setting : Predicate.Setting) (text : String) : Except Error Query := do
  let (head, e) ← Predicate.readBody text
  e.toQuery (setting.withHead head)

/-- The dotted path of the field that a text names. -/
def Path.ofText (setting : Predicate.Setting) (text : String) : Except Error String := do
  let (head, e) ← Predicate.readBody text
  e.fieldPath (setting.withHead head)

end DocQuery
