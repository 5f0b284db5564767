/-
  DocQuery.Proofs.Statement.Parameters — a statement's parameters and its placeholders.

  Every unary leaf of a query has one argument: its constant as the type of the field that it is
  compared with (`argument?`). The parameters of a compiled query are these arguments from left to
  right (`boundTree_values`), and its condition refers to them by the numbers from one up
  (`BoundTree.condition_parameters`). No other piece of the text holds a placeholder, so the text's
  placeholders are these numbers in this order (`parameters_placed`), in every dialect, for rows and
  for their number.
-/

import DocQuery.Proofs.Statement.Layout

namespace DocQuery

open DocQuery.Path Dialect Statement

/-- The fields and constants of a query's unary leaves, from left to right. -/
def Query.unaries : Query → List (String × Value)
  | .unary field _ v => [(field, v)]
  | .isNull _ => []
  | .isNotNull _ => []
  | .binary _ left right => left.unaries ++ right.unaries

namespace Statement

/-- A constant as the type of the field it is compared with: an identity, or what a path ends on. -/
def argument? (schema : Schema) (field : String) (v : Value) : Option Value :=
  match target? schema field with
  | .ok .identity => some (asGuid v)
  | .ok (.path r) =>
    match r.terminal.element with
    | .scalar s => some (coerce v s)
    | .object _ => none
  | .error _ => none

variable {schema : Schema} {d : Dialect} {table : Table} {q : Option Query}

theorem boundUnary_argument {field : String} {op : Operator} {v : Value} {b : Bound}
    (h : bound schema ⟨field, .unary op v⟩ = .ok b) : b.value?.toList.map some = [argument? schema field v] := by
  obtain ⟨target, ht, -, hb⟩ := bound_ok h
  unfold argument?
  rw [ht]
  cases target with
  | identity =>
    obtain ⟨c, -, rfl⟩ := boundIdentity_ok hb
    rfl
  | path r =>
    obtain ⟨s, hs, ⟨c, -, rfl⟩ | ⟨-, -, rfl⟩⟩ := boundPath_ok hb <;> simp [Bound.value?, hs]

theorem boundNull_argument {field : String} {negated : Bool} {b : Bound}
    (h : bound schema ⟨field, .null negated⟩ = .ok b) : b.value? = none := by
  obtain ⟨target, -, rfl⟩ := bound_ok h
  cases target <;> rfl

/-- The values of a bound query are the arguments of its unary leaves. -/
theorem boundTree_values {q : Query} {t : BoundTree} (h : boundTree schema q = .ok t) :
    t.values.map some = q.unaries.map fun u => argument? schema u.1 u.2 := by
  induction q generalizing t with
  | unary field op v =>
    obtain ⟨b, hb, rfl⟩ := boundTree_leaf h
    exact boundUnary_argument hb
  | isNull field =>
    obtain ⟨b, hb, rfl⟩ := boundTree_leaf h
    simp [BoundTree.values, Query.unaries, boundNull_argument hb]
  | isNotNull field =>
    obtain ⟨b, hb, rfl⟩ := boundTree_leaf h
    simp [BoundTree.values, Query.unaries, boundNull_argument hb]
  | binary c left right ihl ihr =>
    obtain ⟨l, r, hl, hr, rfl⟩ := boundTree_binary h
    rw [BoundTree.values, Query.unaries, List.map_append, List.map_append, ihl hl, ihr hr]

/-- A condition refers to the parameters after the first `n` ones, one after another. -/
theorem BoundTree.condition_parameters (t : BoundTree) (n : Nat) :
    (t.condition n).parameters = List.range' (n + 1) t.values.length := by
  induction t generalizing n with
  | leaf b => cases b <;> rfl
  | binary c left right ihl ihr =>
    have hnext : n + left.values.length + 1 = n + 1 + left.values.length := by omega
    rw [condition, Condition.parameters, ihl, ihr, values, List.length_append, hnext]
    exact List.range'_append_1

/-! ## Compiled parameters -/

/-- The arguments of a query's unary leaves. -/
def arguments (schema : Schema) (q : Option Query) : List (Option Value) :=
  (q.elim [] Query.unaries).map fun u => argument? schema u.1 u.2

/-- Some dialect compiles the query to this, for rows or for their number. -/
def CompiledTo (schema : Schema) (d : Dialect) (table : Table) (q : Option Query) (c : Compiled) : Prop :=
  (∃ sorting page, select schema d table q sorting page = .ok c) ∨ count schema d table q = .ok c

theorem CompiledTo.request {c : Compiled} (h : CompiledTo schema d table q c) : ∃ shape given page t keys,
    boundRequest schema q given = .ok (t, keys) ∧
      c = ⟨d, requestStatement shape table page t keys, t.elim [] BoundTree.values⟩ := by
  rcases h with ⟨sorting, page, h⟩ | h
  · obtain ⟨t, keys, hb, rfl⟩ := select_request h
    exact ⟨.documents, sorting.keys, page, t, keys, hb, rfl⟩
  · obtain ⟨t, hb, rfl⟩ := count_request h
    exact ⟨.count, [], .all, t, [], hb, rfl⟩

theorem boundRequest_values {given : List SortKey} {t : Option BoundTree} {keys : List BoundKey}
    (h : boundRequest schema q given = .ok (t, keys)) : (t.elim [] BoundTree.values).map some = arguments schema q := by
  rcases (boundRequest_ok h).2 with ⟨rfl, rfl⟩ | ⟨q', tree, rfl, rfl, ht⟩
  · rfl
  · exact boundTree_values ht

theorem boundRequest_length {given : List SortKey} {t : Option BoundTree} {keys : List BoundKey}
    (h : boundRequest schema q given = .ok (t, keys)) :
    (t.elim [] BoundTree.values).length = (q.elim [] Query.unaries).length := by
  have hvalues := congrArg List.length (boundRequest_values h)
  rwa [List.length_map, arguments, List.length_map] at hvalues

theorem requestStatement_parameters (shape : Shape) (table : Table) (page : Page) (t : Option BoundTree)
    (keys : List BoundKey) : (requestStatement shape table page t keys).condition.elim [] Condition.parameters =
      List.range' 1 (t.elim [] BoundTree.values).length := by
  cases t with
  | none => rfl
  | some tree => exact tree.condition_parameters 0

theorem numbered_fst (c : Compiled) : c.numbered.map (·.1) = List.range' 1 c.parameters.length := by
  have hnumbers : c.numbered.map (·.1) = (c.parameters.zipIdx.map (·.2)).map (1 + ·) := by
    rw [Compiled.numbered, List.map_map, List.map_map]
    exact List.map_congr_left fun p _ => Nat.add_comm p.2 1
  rw [hnumbers, List.zipIdx_map_snd, List.map_add_range']

theorem numbered_snd (c : Compiled) : c.numbered.map (·.2) = c.parameters := by
  rw [Compiled.numbered, List.map_map]
  exact List.zipIdx_map_fst 0 c.parameters

end Statement

/-- A query's parameters as they are listed, and as the text refers to them. -/
structure Compiled.Placed (schema : Schema) (d : Dialect) (q : Option Query) (c : Compiled) : Prop where
  numbers : c.numbered.map (·.1) = List.range' 1 (q.elim [] Query.unaries).length
  values : c.numbered.map (fun p => some p.2) = arguments schema q
  placeholders : numbersAfter d.mark c.text.toList =
    (List.range' 1 (q.elim [] Query.unaries).length).map fun i => (toString i).toList

namespace Statement

variable {schema : Schema} {d : Dialect} {table : Table} {q : Option Query}

theorem CompiledTo.values {c : Compiled} (h : CompiledTo schema d table q c) :
    c.numbered.map (fun p => some p.2) = arguments schema q := by
  obtain ⟨_, _, _, t, keys, hb, rfl⟩ := h.request
  rw [← boundRequest_values hb]
  exact (List.map_map ..).symm.trans (congrArg (List.map some) (numbered_snd _))

theorem CompiledTo.numbered_eq {d' : Dialect} {table' : Table} {c c' : Compiled} (h : CompiledTo schema d table q c)
    (h' : CompiledTo schema d' table' q c') : c'.numbered = c.numbered := by
  have hvalues : (c'.numbered.map (·.2)).map some = (c.numbered.map (·.2)).map some := by
    rw [List.map_map, List.map_map]
    exact h'.values.trans h.values.symm
  have hparameters := (List.map_inj_right fun _ _ => Option.some.inj).mp hvalues
  rw [numbered_snd, numbered_snd] at hparameters
  rw [Compiled.numbered, Compiled.numbered, hparameters]

/-- Parameters are numbered from one, one for each unary leaf and of its argument, whatever the
dialect and the statement are; and the text refers to each of them once, in their order. -/
theorem parameters_placed (hs : schema.Built) (ht : table.Built) {c : Compiled} (h : CompiledTo schema d table q c) :
    c.Placed schema d q ∧ ∀ d' table' c', CompiledTo schema d' table' q c' → c'.numbered = c.numbered := by
  refine ⟨⟨?numbers, h.values, ?placeholders⟩, fun _ _ _ h' => h.numbered_eq h'⟩
  case numbers =>
    obtain ⟨_, _, _, t, keys, hb, rfl⟩ := h.request
    rw [numbered_fst, boundRequest_length hb]
  case placeholders =>
    obtain ⟨shape, given, page, t, keys, hb, rfl⟩ := h.request
    have hnumbers := numbersAfter_text (requestStatement_closed hs ht hb shape page) d
    rwa [requestStatement_parameters, boundRequest_length hb] at hnumbers

/-- The rows in one dialect and their number in another one have the same two parameters. -/
theorem liveliest_placed : ∃ rows number,
    select discussion .postgres blogPosts (some liveliest) byRating ⟨10, some 10⟩ = .ok rows ∧
      rows.Placed discussion .postgres (some liveliest) ∧
    count discussion .sqlite blogPosts (some liveliest) = .ok number ∧ number.numbered = rows.numbered ∧
      rows.numbered = [(1, .integer 3), (2, .text "lean")] := by
  obtain ⟨rows, hrows⟩ : ∃ c, select discussion .postgres blogPosts (some liveliest) byRating ⟨10, some 10⟩ = .ok c :=
    select_ok_iff.mpr (by decide +kernel)
  obtain ⟨number, hnumber⟩ : ∃ c, count discussion .sqlite blogPosts (some liveliest) = .ok c :=
    count_ok_iff.mpr (by decide +kernel)
  obtain ⟨hplaced, hsame⟩ := parameters_placed discussion_built blogPosts_built (.inl ⟨byRating, ⟨10, some 10⟩, hrows⟩)
  refine ⟨rows, number, hrows, hplaced, hnumber, hsame .sqlite blogPosts number (.inr hnumber), ?_⟩
  obtain ⟨t, keys, hb, rfl⟩ := select_request hrows
  have hvalues := boundRequest_values hb
  have harguments : arguments discussion (some liveliest) = [some (.integer 3), some (.text "lean")] := by rfl
  rw [harguments] at hvalues
  have hparameters : t.elim [] BoundTree.values = [.integer 3, .text "lean"] :=
    (List.map_inj_right fun _ _ => Option.some.inj).mp hvalues
  rw [Compiled.numbered, hparameters]
  rfl

end Statement

end DocQuery
