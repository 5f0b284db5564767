/-
  DocQuery.Text.Fold — ASCII letter case. Names of fields, scalar types and keywords are
  compared with A–Z and a–z identified and every other character as it stands.
-/

namespace DocQuery.Text

def lower (s : String) : String := String.ofList (s.toList.map Char.toLower)

def upper (s : String) : String := String.ofList (s.toList.map Char.toUpper)

def sameIgnoringCase (a b : String) : Bool := lower a == lower b

theorem sameIgnoringCase_refl (a : String) : sameIgnoringCase a a = true := by
  simp [sameIgnoringCase]

end DocQuery.Text
