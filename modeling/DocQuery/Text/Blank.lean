/-
  DocQuery.Text.Blank — white space in the sense of the Unicode property White_Space,
  and trimming by it. Field paths, literals and bindings are trimmed with this class,
  not with the ASCII one: U+00A0 and U+3000 are blanks, U+200B is not.
-/

namespace DocQuery.Text

/-- The 25 code points with the property White_Space. -/
def isBlank (c : Char) : Bool :=
  let n := c.toNat
  (0x09 ≤ n && n ≤ 0x0D) || n == 0x20 || n == 0x85 || n == 0xA0 || n == 0x1680 ||
  (0x2000 ≤ n && n ≤ 0x200A) || n == 0x2028 || n == 0x2029 || n == 0x202F ||
  n == 0x205F || n == 0x3000

/-- The characters without the blanks at either end. -/
def trimChars (s : List Char) : List Char :=
  ((s.dropWhile isBlank).reverse.dropWhile isBlank).reverse

def trim (s : String) : String := String.ofList (trimChars s.toList)

/-- Nothing but blanks, the empty text included. -/
def allBlank (s : String) : Bool := s.toList.all isBlank

end DocQuery.Text
