/-
  DocQuery.Predicate.Symbol — operators and punctuation.

  The symbols of a fixed list end where they end, the longest that fits. All others are runs of
  operator characters, read as far as they go, so that `>-1` opens with the operator `>-`. A run
  that is the beginning of a longer operator and none itself is not read. Two symbols take the
  character after them along, whatever it is.
-/

namespace DocQuery.Predicate.Symbol

/-- Symbols that end where they end, whatever follows; of two that fit, the first is meant. -/
def fixed : List String := [
  "!~~*", "!~~", "!~*", "!~", "!!", "!=", "!", "==", "=>", "=", "::", ":=", ":", "^@", "^", "@-@",
  "@@", "@>", "@?", "?||", "?|", "?&", "?-|", "?-", "?#", "&<|", "+", "*", "/", ";", ",", "(", ")",
  "[", "]", "\x7b", "\x7d", "\\"]

/-- Symbols that take the next character along. -/
def grasping : List String := ["?", "&>"]

/-- The characters a run may go on with. -/
def isOperatorChar (c : Char) : Bool := "+-*/<>=~!@#%^&|\x60?".toList.contains c

/-- The characters that open a run; an at sign does before a minus sign only. -/
def opensRun (c : Char) (r : List Char) : Bool :=
  "-%|<>&~#".toList.contains c || (c == '@' && r.head? == some '-')

def incomplete : List String := ["<-", "|>", "|&", "@-"]

/-- A run that begins with `<|` is written as if it began with `<<|`. -/
def spelled : List Char → List Char
  | '<' :: '|' :: r => '<' :: '<' :: '|' :: r
  | run => run

def run? (s : List Char) : Option (String × List Char) :=
  let run := s.takeWhile isOperatorChar
  if incomplete.contains (String.ofList run) then none
  else some (String.ofList (spelled run), s.dropWhile isOperatorChar)

def listed? (symbols : List String) (s : List Char) : Option String :=
  symbols.find? fun f => f.toList.isPrefixOf s

/-- The symbol that opens the text; a character that is no part of any stands for itself. -/
def read? (c : Char) (r : List Char) : Option (String × List Char) :=
  match listed? fixed (c :: r) with
  | some f => some (f, (c :: r).drop f.length)
  | none => match listed? grasping (c :: r) with
    | some f => some (f, (c :: r).drop (f.length + 1))
    | none => if opensRun c r then run? (c :: r) else some (String.singleton c, r)

end DocQuery.Predicate.Symbol
