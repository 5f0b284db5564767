/-
  DocQuery.Proofs.Path.Position — where a walk along a path reads from.

  A walk that has passed an object array goes on from the current element of the array's join;
  before the first array it goes on from the document. A `Position` is the state of a walk: the
  names passed so far and the location they lead to. The arrays on the way are listed with
  the locations they are read at. All of this is a function of the path alone: that a plan of
  joins hands out these locations is `Proofs.Join.Growth`.
-/

import DocQuery.Statement.Basic

namespace DocQuery

namespace Path

open Statement

structure Position where
  names : List String
  place : Location
  deriving DecidableEq, Repr

/-- An object array on a path: its names from the root, and where it is read. -/
structure Crossing where
  names : List String
  array : Location
  deriving DecidableEq, Repr

namespace Position

def start : Position := ⟨[], ⟨.document, []⟩⟩

/-- The location of a member of the value here. -/
def member (p : Position) (name : String) : Location := ⟨p.place.source, p.place.path ++ [name]⟩

@[simp] theorem member_source (p : Position) (name : String) : (p.member name).source = p.place.source := rfl

@[simp] theorem member_path (p : Position) (name : String) : (p.member name).path = p.place.path ++ [name] := rfl

def next (p : Position) (n : Node) : Position :=
  if n.kind == .objectArray then ⟨p.names ++ [n.name], ⟨.element (dotted (p.names ++ [n.name])), []⟩⟩
  else ⟨p.names ++ [n.name], p.member n.name⟩

def after (p : Position) (nodes : List Node) : Position := nodes.foldl next p

@[simp] theorem after_nil (p : Position) : p.after [] = p := rfl

@[simp] theorem after_cons (p : Position) (n : Node) (rest : List Node) :
    p.after (n :: rest) = (p.next n).after rest := rfl

theorem next_array {n : Node} (h : n.kind = .objectArray) (p : Position) :
    p.next n = ⟨p.names ++ [n.name], ⟨.element (dotted (p.names ++ [n.name])), []⟩⟩ := by
  simp [next, h]

theorem next_member {n : Node} (h : n.kind ≠ .objectArray) (p : Position) :
    p.next n = ⟨p.names ++ [n.name], p.member n.name⟩ := by
  simp [next, h]

@[simp] theorem next_names (p : Position) (n : Node) : (p.next n).names = p.names ++ [n.name] := by
  unfold next; split <;> rfl

theorem after_names (p : Position) (nodes : List Node) :
    (p.after nodes).names = p.names ++ nodes.map (·.name) := by
  induction nodes generalizing p with
  | nil => simp
  | cons n rest ih => rw [after_cons, ih, next_names]; simp

end Position

/-- The object arrays among the nodes of a walk. -/
def crossingsFrom : Position → List Node → List Crossing
  | _, [] => []
  | p, n :: rest =>
    if n.kind == .objectArray then ⟨p.names ++ [n.name], p.member n.name⟩ :: crossingsFrom (p.next n) rest
    else crossingsFrom (p.next n) rest

theorem crossingsFrom_array {n : Node} (h : n.kind = .objectArray) (p : Position) (rest : List Node) :
    crossingsFrom p (n :: rest) =
      ⟨p.names ++ [n.name], p.member n.name⟩ :: crossingsFrom (p.next n) rest := by
  simp [crossingsFrom, h]

theorem crossingsFrom_member {n : Node} (h : n.kind ≠ .objectArray) (p : Position) (rest : List Node) :
    crossingsFrom p (n :: rest) = crossingsFrom (p.next n) rest := by
  simp [crossingsFrom, h]

/-- An array on the way is read where the walk up to it stands. -/
theorem mem_crossingsFrom {p : Position} {nodes : List Node} {c : Crossing} :
    c ∈ crossingsFrom p nodes ↔ ∃ a n b, nodes = a ++ n :: b ∧ n.kind = .objectArray ∧
      c = ⟨(p.after a).names ++ [n.name], (p.after a).member n.name⟩ := by
  induction nodes generalizing p with
  | nil => simp [crossingsFrom]
  | cons m rest ih =>
    constructor
    · intro h
      by_cases hk : m.kind = .objectArray
      · rw [crossingsFrom_array hk] at h
        rcases List.mem_cons.mp h with rfl | h
        · exact ⟨[], m, rest, rfl, hk, rfl⟩
        · obtain ⟨a, n, b, rfl, hn, rfl⟩ := ih.mp h
          exact ⟨m :: a, n, b, rfl, hn, rfl⟩
      · rw [crossingsFrom_member hk] at h
        obtain ⟨a, n, b, rfl, hn, rfl⟩ := ih.mp h
        exact ⟨m :: a, n, b, rfl, hn, rfl⟩
    · rintro ⟨a, n, b, hnodes, hn, rfl⟩
      cases a with
      | nil =>
        obtain ⟨rfl, rfl⟩ := List.cons.inj hnodes
        rw [crossingsFrom_array hn]; exact List.mem_cons_self ..
      | cons x xs =>
        obtain ⟨rfl, hrest⟩ := List.cons.inj hnodes
        have hmem := ih.mpr ⟨xs, n, b, hrest, hn, rfl⟩
        by_cases hk : m.kind = .objectArray
        · rw [crossingsFrom_array hk]; exact List.mem_cons_of_mem _ hmem
        · rw [crossingsFrom_member hk]; exact hmem

end Path

namespace ResolvedPath

/-- Where a path's value is read once its arrays are joined. -/
def place (r : ResolvedPath) : Statement.Location :=
  (Path.Position.start.after r.before).member r.terminal.name

/-- The object arrays a path goes through, outermost first. -/
def arrays (r : ResolvedPath) : List Path.Crossing := Path.crossingsFrom .start r.before

end ResolvedPath

end DocQuery
