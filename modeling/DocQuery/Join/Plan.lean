/-
  DocQuery.Join.Plan — the array expansions that a statement's paths share.

  A join expands one object array. Its key is the dotted path from the document root to the
  array, so two paths through the same array use one join. The plan keeps joins in the order
  they were first needed and refers to a join by its position; a join's parent is an earlier
  one. Beside the joins it keeps an index from keys to positions, which always says where the
  first join of a key stands. `ordered` is the order of emission: parents first, siblings by key.
-/

import DocQuery.Path.Resolve

namespace DocQuery

structure Join where
  key : String
  /-- What its elements are called in a statement. -/
  label : String
  /-- The join whose element holds this array; without one it hangs on the document. -/
  parent : Option Nat
  /-- Names from the parent's element, or the document root, down to the array. -/
  pointer : List String
  /-- A sort key passes through the array. -/
  grouped : Bool
  deriving DecidableEq, Repr

namespace Join

/-- Where a path's value is found once the joins are made. -/
structure Binding where
  join : Option Nat
  /-- Names below the join's element, or the root, down to the terminal. -/
  suffix : List String
  terminal : Path.Node
  deriving DecidableEq, Repr

structure Plan where
  joins : List Join
  /-- Keys and the positions of their joins. -/
  index : List (String × Nat)
  indexed : ∀ key, index.lookup key = joins.findIdx? (·.key == key)
  labelled : ∀ j ∈ joins, j.label = j.key

namespace Plan

def empty : Plan := ⟨[], [], fun _ => rfl, fun _ h => by cases h⟩

def position? (p : Plan) (key : String) : Option Nat := p.index.lookup key

def isGrouped (p : Plan) : Bool := p.joins.any (·.grouped)

theorem findIdx?_marked (joins : List Join) (i : Nat) (key : String) :
    (joins.modify i fun j => { j with grouped := true }).findIdx? (·.key == key) =
      joins.findIdx? (·.key == key) := by
  induction joins generalizing i with
  | nil => cases i <;> rfl
  | cons j rest ih =>
    cases i with
    | zero => simp [List.findIdx?_cons]
    | succ i => simp [List.findIdx?_cons, ih]

theorem label_marked {joins : List Join} (h : ∀ j ∈ joins, j.label = j.key) (i : Nat) :
    ∀ j ∈ joins.modify i fun j => { j with grouped := true }, j.label = j.key := by
  intro j hj
  obtain ⟨k, hk⟩ := List.mem_iff_getElem?.mp hj
  rw [List.getElem?_modify] at hk
  obtain ⟨j', hj', rfl⟩ := Option.map_eq_some_iff.mp hk
  have := h j' (List.mem_of_getElem? hj')
  split <;> exact this

def mark (p : Plan) (i : Nat) : Plan where
  joins := p.joins.modify i fun j => { j with grouped := true }
  index := p.index
  indexed key := by rw [p.indexed, findIdx?_marked]
  labelled := label_marked p.labelled i

theorem findIdx?_pushed {joins : List Join} {j : Join} (h : joins.findIdx? (·.key == j.key) = none) (key : String) :
    (joins ++ [j]).findIdx? (·.key == key) =
      if key == j.key then some joins.length else joins.findIdx? (·.key == key) := by
  rw [List.findIdx?_append]
  by_cases hk : key = j.key
  · subst hk; simp [h]
  · have hne : j.key ≠ key := fun e => hk e.symm
    simp [hk, hne]

/-- The plan with one more join, of a key that has none yet. -/
def push (p : Plan) (key : String) (parent : Option Nat) (pointer : List String)
    (new : p.position? key = none) : Plan where
  joins := p.joins ++ [⟨key, key, parent, pointer, false⟩]
  index := (key, p.joins.length) :: p.index
  indexed k := by
    have hnone : p.joins.findIdx? (·.key == key) = none := (p.indexed key).symm.trans new
    rw [findIdx?_pushed hnone, List.lookup_cons, p.indexed]
    cases k == key <;> rfl
  labelled j hj := by
    rcases List.mem_append.mp hj with hj | hj
    · exact p.labelled j hj
    · simp only [List.mem_singleton] at hj; subst hj; rfl

/-- The join of a key, made under `parent` if it is new. -/
def obtain (p : Plan) (key : String) (parent : Option Nat) (pointer : List String) : Plan × Nat :=
  match h : p.position? key with
  | some i => (p, i)
  | none => (p.push key parent pointer h, p.joins.length)

/-- Follow the nodes before the terminal: `seen` are all names so far, `pointer` those since the
innermost join. -/
def follow (fromSort : Bool) (p : Plan) (parent : Option Nat) (seen pointer : List String) :
    List Path.Node → Plan × Option Nat × List String
  | [] => (p, parent, pointer)
  | node :: rest =>
    let seen := seen ++ [node.name]
    let pointer := pointer ++ [node.name]
    if node.kind == .objectArray then
      let (p, i) := p.obtain (Path.dotted seen) parent pointer
      follow fromSort (if fromSort then p.mark i else p) (some i) seen [] rest
    else follow fromSort p parent seen pointer rest

/-- Join every array that a path passes through. -/
def add (p : Plan) (path : ResolvedPath) (fromSort : Bool) : Plan × Binding :=
  let (p, join, pointer) := follow fromSort p none [] [] path.before
  (p, ⟨join, pointer ++ [path.terminal.name], path.terminal⟩)

/-! ## Emission order -/

/-- Put a join among its siblings, in byte order of the keys. -/
def insertByKey (entry : Nat × Join) : List (Nat × Join) → List (Nat × Join)
  | [] => [entry]
  | e :: rest => if entry.2.key < e.2.key then entry :: e :: rest else e :: insertByKey entry rest

/-- The joins under a parent, with their positions, in byte order of the keys. -/
def children (p : Plan) (parent : Option Nat) : List (Nat × Join) :=
  ((p.joins.zipIdx.filter fun (j, _) => j.parent == parent).map fun (j, i) => (i, j)).foldr insertByKey []

/-- The joins below a parent, depth first, at most `depth` levels of them. -/
def below (p : Plan) : Nat → Option Nat → List Join
  | 0, _ => []
  | depth + 1, parent =>
    (p.children parent).flatMap fun (i, j) => j :: below p depth (some i)

def ordered (p : Plan) : List Join := p.below p.joins.length none

end Plan

end Join

end DocQuery
