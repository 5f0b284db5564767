/-
  DocQuery.Query.Page — which rows of a result are wanted: `skip` are passed over, then at most
  `take` are kept. Both are below 2^64 where a request can say them.
-/

namespace DocQuery

structure Page where
  skip : Nat
  take : Option Nat
  deriving DecidableEq, Repr

namespace Page

def all : Page := ⟨0, none⟩

def first : Page := ⟨0, some 1⟩

def isUnbounded (p : Page) : Bool := p.skip == 0 && p.take.isNone

/-- The rows a page selects. -/
def select {α : Type} (p : Page) (rows : List α) : List α :=
  match p.take with
  | some n => (rows.drop p.skip).take n
  | none => rows.drop p.skip

end Page

end DocQuery
