/-
  DocQuery.Store.Limits — the statements that the query engine takes.

  A statement is refused as a whole, whatever its rows, if its condition is too deep or if it
  has too many joins, parameters or sort keys. The depth is that of the written condition: the
  calls around a place count, and a sub-select lies two levels below all of the condition.
-/

import DocQuery.Statement.Compile

namespace DocQuery.Statement

namespace Condition

/-- Levels of the written condition. -/
def height : Condition → Nat
  | identityNull _ => 3
  | identityCompare _ _ => 3
  | isNull _ _ => 4
  | compare _ _ type _ => if type.isTextual then 4 else 5
  | member negated _ type _ => (if type.isTextual then 2 else 3) + if negated then 1 else 0
  | binary _ left right => max left.height right.height + 1

/-- There is a test of membership in it. -/
def hasMember : Condition → Bool
  | member .. => true
  | binary _ left right => left.hasMember || right.hasMember
  | _ => false

def depth (c : Condition) : Nat := c.height + if c.hasMember then 2 else 0

end Condition

/-- The statement lists an array's members, for a join or in a sub-select. -/
def listsMembers (s : Statement) : Bool := !s.joins.isEmpty || s.condition.any Condition.hasMember

/-- With so many parameters the statement is within the engine's bounds. -/
structure Fits (s : Statement) (parameters : Nat) : Prop where
  depth : ∀ c ∈ s.condition, c.depth ≤ 1000
  joins : s.joins.length < 64
  order : s.order.length ≤ 2000
  parameters : parameters ≤ 32766

instance (s : Statement) (parameters : Nat) : Decidable (s.Fits parameters) :=
  decidable_of_iff ((∀ c ∈ s.condition, c.depth ≤ 1000) ∧ s.joins.length < 64 ∧ s.order.length ≤ 2000 ∧
    parameters ≤ 32766) ⟨fun h => ⟨h.1, h.2.1, h.2.2.1, h.2.2.2⟩, fun h => ⟨h.depth, h.joins, h.order, h.parameters⟩⟩

end DocQuery.Statement
