/-
  DocQuery.Store.Truth — the three truth values of a condition. A comparison with nothing is
  neither true nor false; a row is selected only if its condition is true.
-/

namespace DocQuery

/-- True, false, or unknown for `none`. -/
abbrev Truth := Option Bool

namespace Truth

def and : Truth → Truth → Truth
  | some false, _ => some false
  | _, some false => some false
  | some true, t => t
  | none, _ => none

def or : Truth → Truth → Truth
  | some true, _ => some true
  | _, some true => some true
  | some false, t => t
  | none, _ => none

def not (t : Truth) : Truth := t.map (!·)

def isTrue (t : Truth) : Bool := t == some true

@[simp] theorem isTrue_some (b : Bool) : isTrue (some b) = b := by cases b <;> rfl

@[simp] theorem isTrue_and (a b : Truth) : (and a b).isTrue = (a.isTrue && b.isTrue) := by
  rcases a with _ | _ | _ <;> rcases b with _ | _ | _ <;> rfl

@[simp] theorem isTrue_or (a b : Truth) : (or a b).isTrue = (a.isTrue || b.isTrue) := by
  rcases a with _ | _ | _ <;> rcases b with _ | _ | _ <;> rfl

theorem and_eq_true {a b : Truth} : and a b = some true ↔ a = some true ∧ b = some true := by
  rcases a with _ | _ | _ <;> rcases b with _ | _ | _ <;> simp [and]

theorem or_eq_true {a b : Truth} : or a b = some true ↔ a = some true ∨ b = some true := by
  rcases a with _ | _ | _ <;> rcases b with _ | _ | _ <;> simp [or]

end Truth

end DocQuery
