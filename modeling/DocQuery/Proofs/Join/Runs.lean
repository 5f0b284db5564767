/-
  DocQuery.Proofs.Join.Runs — what a plan holds after any sequence of added paths.

  A run adds paths one after another, some of them for sort keys. `Covers.run` carries what one
  added path keeps (`Covers.add`) along a whole run. From it:
  - `Covers.linked`: a join's key is its parent's key, a point and its pointer.
  - `Covers.down`: the pointers from the root down to a join spell the join's key, so whichever
    path made the join, every path that uses it reads it under its own names.
  - `ResolvedPath.arrays_names`: the arrays of a path are its crossings, under their dotted names.
  - `run_arranged` puts these together for the paths of a built schema, and says of every binding
    handed out on the way that it is still good in the last plan.
-/

import DocQuery.Proofs.Join.Growth
import DocQuery.Proofs.Path.Address

namespace DocQuery

open DocQuery.Path Statement

/-! ## Crossings by name -/

namespace ResolvedPath

theorem mem_crossings {r : ResolvedPath} {i : Nat} {n : Node} :
    (i, n) ∈ r.crossings ↔ r.before[i]? = some n ∧ n.kind = .objectArray := by
  simp only [crossings, List.mem_map, List.mem_filter, beq_iff_eq]
  constructor
  · rintro ⟨⟨m, k⟩, ⟨hm, hk⟩, he⟩
    cases he
    exact ⟨List.mem_zipIdx_iff_getElem?.mp hm, hk⟩
  · rintro ⟨hi, hk⟩
    exact ⟨(n, i), ⟨List.mem_zipIdx_iff_getElem?.mpr hi, hk⟩, rfl⟩

/-- The names of a path up to one of its nodes. -/
theorem names_take {r : ResolvedPath} {a b : List Node} {n : Node} (h : r.before = a ++ n :: b) :
    r.names.take (a.length + 1) = a.map (·.name) ++ [n.name] := by
  have hnames : r.names = (a.map (·.name) ++ [n.name]) ++ (b ++ [r.terminal]).map (·.name) := by
    simp [names, nodes, h]
  have hlen : (a.map (·.name) ++ [n.name]).length = a.length + 1 := by simp
  rw [hnames, ← hlen, List.take_left]

/-- An array on a path is one of its crossings, and its key is the crossing's. -/
theorem mem_arrays_key {r : ResolvedPath} {key : String} :
    (∃ c ∈ r.arrays, dotted c.names = key) ↔ ∃ c ∈ r.crossings, r.keyAt c.1 = key := by
  constructor
  · rintro ⟨c, hc, rfl⟩
    obtain ⟨a, n, b, hb, hn, rfl⟩ := mem_crossingsFrom.mp hc
    refine ⟨(a.length, n), mem_crossings.mpr ⟨by simp [hb], hn⟩, ?_⟩
    rw [keyAt, names_take hb]
    simp [Position.after_names, Position.start]
  · rintro ⟨⟨i, n⟩, hc, rfl⟩
    obtain ⟨hi, hn⟩ := mem_crossings.mp hc
    obtain ⟨hlt, hget⟩ := List.getElem?_eq_some_iff.mp hi
    have hb : r.before = r.before.take i ++ n :: r.before.drop (i + 1) := by
      rw [← hget, List.getElem_cons_drop, List.take_append_drop]
    have hlen : (r.before.take i).length = i := by simp; omega
    refine ⟨_, mem_crossingsFrom.mpr ⟨_, n, _, hb, hn, rfl⟩, ?_⟩
    have htake := names_take hb
    rw [hlen] at htake
    rw [keyAt, htake]
    simp [Position.after_names, Position.start]

/-- The names down to an array are those of its source and those below it. -/
theorem array_addressed {r : ResolvedPath} {c : Crossing} (hc : c ∈ r.arrays) :
    c.array.path ≠ [] ∧ ∃ above, Labelled above c.array.source ∧ c.names = above ++ c.array.path := by
  obtain ⟨a, n, b, -, -, rfl⟩ := mem_crossingsFrom.mp hc
  obtain ⟨above, hl, hn⟩ := Position.start_addressed.after a
  refine ⟨by simp, above, hl, ?_⟩
  rw [hn]; simp

end ResolvedPath

namespace Join

/-- A path to be added to a plan, and whether it is a sort key's. -/
structure Request where
  path : ResolvedPath
  fromSort : Bool

namespace Plan

/-- The plan after a sequence of added paths. -/
def run (p : Plan) (requests : List Request) : Plan :=
  requests.foldl (fun p r => (p.add r.path r.fromSort).1) p

theorem run_append (p : Plan) (a b : List Request) : p.run (a ++ b) = (p.run a).run b := by simp [run]

theorem run_cons (p : Plan) (r : Request) (rest : List Request) :
    p.run (r :: rest) = (p.add r.path r.fromSort).1.run rest := rfl

theorem run_extends (p : Plan) (requests : List Request) : p.Extends (p.run requests) := by
  induction requests generalizing p with
  | nil => exact Extends.refl p
  | cons r rest ih => exact (add_extends p r.path r.fromSort).trans (ih _)

def arraysOf (requests : List Request) : List Crossing := requests.flatMap (·.path.arrays)

def sortArraysOf (requests : List Request) : List Crossing := arraysOf (requests.filter (·.fromSort))

variable {p : Plan} {seen sorted : List Crossing}

theorem Covers.run (h : p.Covers seen sorted) (requests : List Request) :
    (p.run requests).Covers (seen ++ arraysOf requests) (sorted ++ sortArraysOf requests) := by
  induction requests generalizing p seen sorted with
  | nil => simpa [Plan.run, arraysOf, sortArraysOf] using h
  | cons r rest ih =>
    have hadd := h.add r.path r.fromSort
    have hrest := ih hadd
    cases hs : r.fromSort <;>
      simpa [Plan.run, arraysOf, sortArraysOf, hs] using hrest

/-! ## Parents and pointers -/

/-- The key of a join is its pointer, behind the key of its parent if it has one. -/
def Linked (p : Plan) (i : Nat) (j : Join) : Prop :=
  match j.parent with
  | none => j.key = dotted j.pointer
  | some k => k < i ∧ ∃ q, p.joins[k]? = some q ∧ j.key = q.key ++ "." ++ dotted j.pointer

/-- The names from a document's root down to the elements of a join, pointer after pointer. -/
inductive Down (p : Plan) : Option Nat → List String → Prop
  | root : Down p none []
  | join {i : Nat} {j : Join} {names : List String} : p.joins[i]? = some j → Down p j.parent names →
      Down p (some i) (names ++ j.pointer)

theorem Down.unique {o : Option Nat} {a b : List String} (ha : p.Down o a) (hb : p.Down o b) : a = b := by
  induction ha generalizing b with
  | root => cases hb; rfl
  | join hj _ ih =>
    cases hb with
    | join hj' hb =>
      rw [hj] at hj'; cases hj'
      rw [ih hb]

/-- A join under a plan's name stands at a position with that key. -/
theorem Names.getElem {i : Nat} {source : Source} (h : p.Names (some i) source) :
    ∃ q, p.joins[i]? = some q ∧ source = .element q.key := by
  obtain ⟨key, hk, rfl⟩ := h
  rw [getElem?_keys] at hk
  obtain ⟨q, hq, rfl⟩ := Option.map_eq_some_iff.mp hk
  exact ⟨q, hq, rfl⟩

/-- The names of what a plan's join reads from are the document's, which has none, or those of the join's own key. -/
theorem Names.labelled_cases {join : Option Nat} {source : Source} {above : List String} (hn : p.Names join source)
    (hl : Labelled above source) : join = none ∧ above = [] ∨
      ∃ k q, join = some k ∧ p.joins[k]? = some q ∧ above ≠ [] ∧ q.key = dotted above := by
  cases join with
  | none =>
    obtain rfl : source = .document := hn
    exact .inl ⟨rfl, hl⟩
  | some k =>
    obtain ⟨q, hq, rfl⟩ := hn.getElem
    exact .inr ⟨k, q, rfl, hq, hl⟩

/-- The arrays that a plan knows of are arrays of resolved paths of one schema. -/
def Resolved (s : Schema) (arrays : List Crossing) : Prop :=
  ∀ c ∈ arrays, ∃ r : ResolvedPath, c ∈ r.arrays ∧ ∃ text, resolve s text = .ok r

theorem Covers.linked (h : p.Covers seen sorted) {s : Schema} (hseen : Resolved s seen) {i : Nat} {j : Join}
    (hj : p.joins[i]? = some j) : p.Linked i j := by
  obtain ⟨c, hc, hkey, hn, hptr⟩ := h.sound j (List.mem_of_getElem? hj)
  obtain ⟨r, hr, -⟩ := hseen c hc
  obtain ⟨hne, above, hl, hnames⟩ := ResolvedPath.array_addressed hr
  unfold Linked
  rcases hn.labelled_cases hl with ⟨hpar, habove⟩ | ⟨k, q, hpar, hq, hane, hlabel⟩
  · rw [hpar]
    show j.key = dotted j.pointer
    rw [hkey, hnames, habove, hptr, List.nil_append]
  · rw [hpar]
    refine ⟨h.parent_lt i j hj k hpar, q, hq, ?_⟩
    rw [hkey, hnames, hptr, hlabel]
    exact String.intercalate_append_of_ne_nil hane hne

/-- The pointers from the root down to a join are the names that its key is made of. -/
theorem Covers.down (h : p.Covers seen sorted) {s : Schema} (hs : s.Built) (hseen : Resolved s seen) (i : Nat) :
    ∀ j, p.joins[i]? = some j →
      ∃ names, p.Down (some i) names ∧ (∀ n ∈ names, Name.Identifier n) ∧ j.key = dotted names := by
  induction i using Nat.strongRecOn with
  | ind i ih =>
    intro j hj
    obtain ⟨c, hc, hkey, hn, hptr⟩ := h.sound j (List.mem_of_getElem? hj)
    obtain ⟨r, hr, text, hres⟩ := hseen c hc
    obtain ⟨-, -, hid⟩ := ResolvedPath.array_plain hs hres hr
    obtain ⟨-, above, hl, hnames⟩ := ResolvedPath.array_addressed hr
    refine ⟨c.names, ?_, hid, hkey⟩
    suffices hup : p.Down j.parent above by
      rw [hnames, ← hptr]; exact .join hj hup
    rcases hn.labelled_cases hl with ⟨hpar, rfl⟩ | ⟨k, q, hpar, hq, -, hlabel⟩
    · rw [hpar]
      exact .root
    · obtain ⟨names, hdown, hidn, hqkey⟩ := ih k (h.parent_lt i j hj k hpar) q hq
      have hida : ∀ n ∈ above, Name.Identifier n := fun n hm => hid n (hnames ▸ List.mem_append_left _ hm)
      obtain rfl : above = names := dotted_injective hida hidn (hlabel.symm.trans hqkey)
      rw [hpar]
      exact hdown

/-- The names of a source are those down to the join whose elements it stands for. -/
theorem Covers.down_source (h : p.Covers seen sorted) {s : Schema} (hs : s.Built) (hseen : Resolved s seen)
    {join : Option Nat} {source : Source} {above : List String} (hn : p.Names join source)
    (hl : Labelled above source) (hid : ∀ n ∈ above, Name.Identifier n) : p.Down join above := by
  rcases hn.labelled_cases hl with ⟨rfl, rfl⟩ | ⟨i, q, rfl, hq, -, hlabel⟩
  · exact .root
  · obtain ⟨names, hdown, hidn, hqkey⟩ := h.down hs hseen i q hq
    obtain rfl : above = names := dotted_injective hid hidn (hlabel.symm.trans hqkey)
    exact hdown

/-! ## Bindings -/

/-- What a binding says in a plan: the pointers down to its join and its suffix are the names of
the path, and it ends on the path's terminal. -/
def Binds (p : Plan) (b : Binding) (r : ResolvedPath) : Prop :=
  (∃ names, p.Down b.join names ∧ names ++ b.suffix = r.names) ∧ b.terminal = r.terminal

/-- The binding of an added path is good in every plan that the plan grows into. -/
theorem Covers.binds {q : Plan} (h : q.Covers seen sorted) {s : Schema} (hs : s.Built) (hseen : Resolved s seen)
    {r : ResolvedPath} {text : String} (hr : resolve s text = .ok r) (fromSort : Bool)
    (hq : (p.add r fromSort).1.Extends q) : q.Binds (p.add r fromSort).2 r := by
  obtain ⟨-, hn, hsuffix⟩ := follow_position fromSort r.before p none .start rfl
  have hjoin : (p.add r fromSort).1.Names (p.add r fromSort).2.join r.place.source := hn
  have hpath : (p.add r fromSort).2.suffix = r.place.path := congrArg (· ++ [r.terminal.name]) hsuffix
  obtain ⟨above, hl, hnames⟩ := r.addressed
  have hid : ∀ n ∈ above, Name.Identifier n := by
    intro n hm
    exact ResolvedPath.names_identifier hs hr n (by rw [hnames]; exact List.mem_append_left _ hm)
  refine ⟨⟨above, h.down_source hs hseen (hjoin.extend hq) hl hid, ?_⟩, rfl⟩
  rw [hpath, hnames]

/-! ## Runs -/

/-- The index says of every key where its join stands, once keys are distinct. -/
theorem index_iff (hp : p.keys.Nodup) (key : String) (i : Nat) :
    p.index.lookup key = some i ↔ p.keys[i]? = some key := by
  rw [p.indexed]
  constructor
  · intro h
    obtain ⟨hi, hk, -⟩ := List.findIdx?_eq_some_iff_getElem.mp h
    rw [getElem?_keys, List.getElem?_eq_getElem hi]
    simpa using hk
  · intro h
    have hm : key ∈ p.keys := List.mem_of_getElem? h
    cases hf : p.joins.findIdx? (·.key == key) with
    | none =>
      obtain ⟨j, hj, rfl⟩ := List.mem_map.mp hm
      have := List.findIdx?_eq_none_iff.mp hf j hj
      simp at this
    | some k =>
      obtain ⟨hk, he, -⟩ := List.findIdx?_eq_some_iff_getElem.mp hf
      have hkk : p.keys[k]? = some key := by
        rw [getElem?_keys, List.getElem?_eq_getElem hk]
        simpa using he
      obtain ⟨hlt, -⟩ := List.getElem?_eq_some_iff.mp hkk
      rw [(List.getElem?_inj hlt hp).mp (hkk.trans h.symm)]

/-- The paths of these requests are resolved against a schema. -/
def Request.Resolved (s : Schema) (requests : List Request) : Prop :=
  ∀ r ∈ requests, ∃ text, resolve s text = .ok r.path

theorem Request.Resolved.arrays {s : Schema} {requests : List Request} (h : Request.Resolved s requests) :
    Plan.Resolved s (arraysOf requests) := by
  intro c hc
  obtain ⟨r, hr, hc⟩ := List.mem_flatMap.mp hc
  exact ⟨r.path, hc, h r hr⟩

/-- What is true of a plan to which these paths were added, in this order. -/
structure Arranged (p : Plan) (requests : List Request) : Prop where
  keys_nodup : p.keys.Nodup
  label_eq_key : ∀ j ∈ p.joins, j.label = j.key
  index_key : ∀ key i, p.index.lookup key = some i ↔ p.keys[i]? = some key
  linked : ∀ i j, p.joins[i]? = some j → p.Linked i j
  /-- The keys are those of the arrays that some path crosses. -/
  mem_keys : ∀ key, key ∈ p.keys ↔ ∃ r ∈ requests, ∃ c ∈ r.path.crossings, r.path.keyAt c.1 = key
  /-- The marked joins are those that some sort key's path crosses. -/
  grouped_iff : ∀ j ∈ p.joins, j.grouped = true ↔
    ∃ r ∈ requests, r.fromSort = true ∧ ∃ c ∈ r.path.crossings, r.path.keyAt c.1 = j.key
  /-- A binding handed out on the way is still good. -/
  binds : ∀ earlier r later, requests = earlier ++ r :: later →
    p.Binds ((Plan.empty.run earlier).add r.path r.fromSort).2 r.path

theorem mem_arraysOf_key {requests : List Request} {key : String} :
    (∃ c ∈ arraysOf requests, dotted c.names = key) ↔
      ∃ r ∈ requests, ∃ c ∈ r.path.crossings, r.path.keyAt c.1 = key := by
  constructor
  · rintro ⟨c, hc, hk⟩
    obtain ⟨r, hr, hc⟩ := List.mem_flatMap.mp hc
    exact ⟨r, hr, ResolvedPath.mem_arrays_key.mp ⟨c, hc, hk⟩⟩
  · rintro ⟨r, hr, hc⟩
    obtain ⟨c, hc, hk⟩ := ResolvedPath.mem_arrays_key.mpr hc
    exact ⟨c, List.mem_flatMap.mpr ⟨r, hr, hc⟩, hk⟩

/-- Whatever paths of a built schema are added to an empty plan, and in whatever order, its joins
are the arrays that the paths cross, each once, and all bindings stay good. -/
theorem run_arranged {s : Schema} (hs : s.Built) {requests : List Request} (h : Request.Resolved s requests) :
    (Plan.empty.run requests).Arranged requests := by
  have hcov : (Plan.empty.run requests).Covers (arraysOf requests) (sortArraysOf requests) :=
    Covers.empty.run requests
  have hseen := h.arrays
  refine ⟨hcov.nodup, (Plan.empty.run requests).labelled, index_iff hcov.nodup, ?_, ?_, ?_, ?_⟩
  · intro i j hj
    exact hcov.linked hseen hj
  · intro key
    rw [← mem_arraysOf_key]
    constructor
    · intro hk
      obtain ⟨j, hj, rfl⟩ := List.mem_map.mp hk
      obtain ⟨c, hc, hkey, -⟩ := hcov.sound j hj
      exact ⟨c, hc, hkey.symm⟩
    · rintro ⟨c, hc, rfl⟩
      exact hcov.complete c hc
  · intro j hj
    rw [hcov.grouped j hj, sortArraysOf, mem_arraysOf_key]
    simp only [List.mem_filter, and_assoc]
  · intro earlier r later he
    have hr : ∃ text, resolve s text = .ok r.path := h r (by rw [he]; simp)
    obtain ⟨text, hr⟩ := hr
    refine hcov.binds hs hseen hr r.fromSort ?_
    rw [he, run_append, run_cons]
    exact run_extends _ later

/-! ## Comments that hold comments -/

/-- Posts with comments, and comments with replies that are comments again. -/
def threaded : Schema :=
  ⟨"Post", [
    ⟨"Comment", [⟨"Content", .scalar .string⟩, ⟨"Replies", .array (.object "Comment")⟩]⟩,
    ⟨"Post", [⟨"Comments", .array (.object "Comment")⟩]⟩]⟩

def comments : Node := ⟨"Comments", .objectArray, .object "Comment"⟩

def replies : Node := ⟨"Replies", .objectArray, .object "Comment"⟩

def content : Node := ⟨"Content", .scalar, .scalar .string⟩

/-- A condition on the replies, then a sort key on the comments: the outer array is there before
the path that marks it. -/
def threadedRequests : List Request :=
  [⟨⟨[comments, replies], content⟩, false⟩, ⟨⟨[comments], content⟩, true⟩]

theorem threaded_resolved : Request.Resolved threaded threadedRequests := by
  intro r hr
  rcases List.mem_cons.mp hr with rfl | hr
  · exact ⟨"Comments.Replies.Content", by decide +kernel⟩
  · obtain rfl := List.mem_singleton.mp hr
    exact ⟨"comments[0].Content", by decide +kernel⟩

theorem threaded_arranged :
    threaded.Built ∧ Request.Resolved threaded threadedRequests ∧
      (Plan.empty.run threadedRequests).Arranged threadedRequests := by
  have hs : threaded.Built := ⟨"Post", threaded.types, by decide +kernel⟩
  exact ⟨hs, threaded_resolved, run_arranged hs threaded_resolved⟩

example : (Plan.empty.run threadedRequests).joins.map (fun j => (j.key, j.parent, j.grouped)) =
    [("Comments", none, true), ("Comments.Replies", some 0, false)] := by decide +kernel

end Plan

end Join

end DocQuery
