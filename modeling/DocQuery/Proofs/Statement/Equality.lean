/-
  DocQuery.Proofs.Statement.Equality — which queries and compiled queries count as equal.

  Queries are equal when they have the same form and equal constants, compiled queries when they have the same text
  and shape and equal parameters. So both inherit the laws of the equality of values (`equality_up_to_drift`): no
  direction, every query equal to itself unless one of its constants is an infinite double, and handed on except
  where constants drift. Compiling the same twice gives equals.
-/

import DocQuery.Proofs.Statement.Parameters
import DocQuery.Proofs.Value.Equality

namespace DocQuery

open Value (Same Bounded Inherited inherited_of_frame)

/-! ## Queries -/

namespace Query

/-- The constants of the leaves, from left to right. -/
def constants (q : Query) : List Value := q.unaries.map (·.2)

/-- A query with its constants left open. -/
def form : Query → Query
  | .unary field op _ => .unary field op .null
  | .isNull field => .isNull field
  | .isNotNull field => .isNotNull field
  | .binary c left right => .binary c left.form right.form

theorem constants_binary (c : Connective) (left right : Query) :
    (binary c left right).constants = left.constants ++ right.constants :=
  List.map_append

/-- Queries of one form have as many constants. -/
theorem length_constants {q r : Query} (h : q.form = r.form) : q.constants.length = r.constants.length := by
  induction q generalizing r with
  | unary field op v =>
    cases r with
    | unary => rfl
    | _ => cases h
  | isNull field =>
    cases r with
    | isNull => rfl
    | _ => cases h
  | isNotNull field =>
    cases r with
    | isNotNull => rfl
    | _ => cases h
  | binary c left right ihl ihr =>
    cases r with
    | binary c' left' right' =>
      obtain ⟨-, hl, hr⟩ := binary.inj h
      rw [constants_binary, constants_binary, List.length_append, List.length_append, ihl hl, ihr hr]
    | _ => cases h

end Query

theorem forall₂_append_iff {α : Type} {R : α → α → Prop} {a b k l : List α} (h : a.length = k.length) :
    List.Forall₂ R (a ++ b) (k ++ l) ↔ List.Forall₂ R a k ∧ List.Forall₂ R b l := by
  constructor
  · intro hall
    have htake := List.forall₂_take_append _ _ _ hall
    have hdrop := List.forall₂_drop_append _ _ _ hall
    rw [List.take_left' h] at htake
    rw [List.drop_left' h] at hdrop
    exact ⟨htake, hdrop⟩
  · intro ⟨hleft, hright⟩
    exact List.rel_append hleft hright

namespace Query

theorem beq_iff {q r : Query} : (q == r) = true ↔ q.form = r.form ∧ List.Forall₂ Same q.constants r.constants := by
  show beq q r = true ↔ _
  induction q generalizing r with
  | unary field op v =>
    cases r with
    | unary field' op' w =>
      have hvalue : (v == w) = true ↔ Same v w := Value.beq_iff
      simp [beq, form, constants, unaries, hvalue]
    | _ => simp [beq, form]
  | isNull field => cases r <;> simp [beq, form, constants, unaries]
  | isNotNull field => cases r <;> simp [beq, form, constants, unaries]
  | binary c left right ihl ihr =>
    cases r with
    | binary c' left' right' =>
      rw [beq, Bool.and_eq_true, Bool.and_eq_true, ihl, ihr, beq_iff_eq, constants_binary, constants_binary]
      constructor
      · intro h
        obtain ⟨⟨hc, hl, hconstants⟩, hr, hconstants'⟩ := h
        exact ⟨by rw [form, form, hc, hl, hr], (forall₂_append_iff (length_constants hl)).mpr ⟨hconstants, hconstants'⟩⟩
      · intro h
        obtain ⟨hform, hconstants⟩ := h
        obtain ⟨hc, hl, hr⟩ := binary.inj hform
        obtain ⟨hconstants, hconstants'⟩ := (forall₂_append_iff (length_constants hl)).mp hconstants
        exact ⟨⟨hc, hl, hconstants⟩, hr, hconstants'⟩
    | _ => simp [beq, form]

theorem inherited : Inherited constants := inherited_of_frame form fun _ _ => beq_iff

end Query

/-! ## Compiled queries -/

theorem parameter_beq_iff {p p' : Nat × Value} : (p == p') = true ↔ p.1 = p'.1 ∧ Same p.2 p'.2 := by
  have hvalue : (p.2 == p'.2) = true ↔ Same p.2 p'.2 := Value.beq_iff
  show (p.1 == p'.1 && p.2 == p'.2) = true ↔ _
  rw [Bool.and_eq_true, beq_iff_eq, hvalue]

theorem inherited_parameter : Inherited fun p : Nat × Value => [p.2] :=
  inherited_of_frame Prod.fst fun p p' => by rw [parameter_beq_iff, List.forall₂_cons]; simp

namespace Compiled

/-- Parameters in one order are equal as numbered ones. -/
theorem numbered_beq_iff (k l : List Value) (n : Nat) :
    (((k.zipIdx n).map fun (v, i) => (i + 1, v)) == (l.zipIdx n).map fun (v, i) => (i + 1, v)) = true ↔
      List.Forall₂ Same k l := by
  induction k generalizing l n with
  | nil => cases l <;> simp
  | cons v k ih =>
    cases l with
    | nil => simp
    | cons w l =>
      rw [List.zipIdx_cons, List.zipIdx_cons, List.map_cons, List.map_cons, List.cons_beq_cons, Bool.and_eq_true, ih,
        parameter_beq_iff, List.forall₂_cons]
      simp

theorem beq_iff {c c' : Compiled} : (c == c') = true ↔
    (c.text, c.statement.shape) = (c'.text, c'.statement.shape) ∧ List.Forall₂ Same c.parameters c'.parameters := by
  have hnumbered : (c.numbered == c'.numbered) = true ↔ List.Forall₂ Same c.parameters c'.parameters :=
    numbered_beq_iff c.parameters c'.parameters 0
  show beq c c' = true ↔ _
  rw [beq, Bool.and_eq_true, Bool.and_eq_true, hnumbered, beq_iff_eq, beq_iff_eq, Prod.mk.injEq]
  exact and_right_comm

theorem inherited : Inherited parameters :=
  inherited_of_frame (fun c => (c.text, c.statement.shape)) fun _ _ => beq_iff

end Compiled

/-! ## Compiling twice -/

namespace Value

/-- A finite double is no infinity. -/
theorem bounded_of_number {x : Float} {p : ℚ} (h : Double.number x = some p) : (float x).Bounded := by
  show x.toModel.unpack.isInf = false
  rcases Double.parts_of_number h with ⟨s, hx, -⟩ | ⟨s, m, e, hm, hx, -⟩
  · rw [hx]
    rfl
  · rw [hx]
    rfl

theorem Bounded.asGuid {v : Value} (h : v.Bounded) : (Statement.asGuid v).Bounded := by
  cases v with
  | text s =>
    rw [Statement.asGuid]
    split <;> trivial
  | _ => exact h

theorem Bounded.asInstant {v : Value} (h : v.Bounded) : (Statement.asInstant v).Bounded := by
  cases v with
  | text s =>
    rw [Statement.asInstant]
    split <;> trivial
  | _ => exact h

theorem Bounded.asFloat {v : Value} (h : v.Bounded) : (Statement.asFloat v).Bounded := by
  cases v with
  | integer n =>
    obtain ⟨k, hk, -⟩ := Double.nearest_number n
    exact bounded_of_number hk
  | _ => exact h

/-- No constant becomes an infinite double by being given the type of its field. -/
theorem Bounded.coerce {v : Value} (h : v.Bounded) (s : Scalar) : (Statement.coerce v s).Bounded := by
  cases s with
  | datetime => exact h.asInstant
  | guid => exact h.asGuid
  | float => exact h.asFloat
  | _ => exact h

end Value

namespace Statement

variable {schema : Schema} {d : Dialect} {table : Table} {q : Option Query}

theorem bounded_argument {field : String} {v a : Value} (hv : v.Bounded) (h : argument? schema field v = some a) :
    a.Bounded := by
  unfold argument? at h
  split at h
  · cases h
    exact hv.asGuid
  · split at h
    · cases h
      exact hv.coerce _
    · cases h
  · cases h

theorem CompiledTo.bounded {c : Compiled} (h : CompiledTo schema d table q c)
    (hq : ∀ v ∈ q.elim [] Query.constants, v.Bounded) : ∀ v ∈ c.parameters, v.Bounded := by
  intro v hv
  have hmem : some v ∈ arguments schema q := by
    rw [← h.values]
    rw [← numbered_snd] at hv
    obtain ⟨p, hp, rfl⟩ := List.mem_map.mp hv
    exact List.mem_map.mpr ⟨p, hp, rfl⟩
  obtain ⟨u, hu, harg⟩ := List.mem_map.mp hmem
  refine bounded_argument (hq u.2 ?_) harg
  cases q with
  | none => cases hu
  | some q => exact List.mem_map_of_mem hu

/-- Equality has no direction, takes every bounded thing as equal to itself, and is handed on where nothing drifts:
for values, parameters, queries and compiled queries. Compiling a query of bounded constants twice gives equals. -/
theorem equality_up_to_drift :
    (Inherited fun v : Value => [v]) ∧ (Inherited fun p : Nat × Value => [p.2]) ∧ Inherited Query.constants ∧
      Inherited Compiled.parameters ∧
    ∀ schema d table q, (∀ v ∈ q.elim [] Query.constants, v.Bounded) →
      (∀ sorting page c c', select schema d table q sorting page = .ok c →
        select schema d table q sorting page = .ok c' → (c == c') = true) ∧
      ∀ c c', count schema d table q = .ok c → count schema d table q = .ok c' → (c == c') = true := by
  refine ⟨Value.inherited_value, inherited_parameter, Query.inherited, Compiled.inherited, ?_⟩
  intro schema d table q hq
  constructor
  · intro sorting page c c' h h'
    cases h.symm.trans h'
    exact Compiled.inherited.refl c (CompiledTo.bounded (.inl ⟨sorting, page, h⟩) hq)
  · intro c c' h h'
    cases h.symm.trans h'
    exact Compiled.inherited.refl c (CompiledTo.bounded (.inr h) hq)

/-- A statement compiled twice, and an integer that is equal to a double but not to its neighbour. -/
theorem liveliest_twice :
    (∃ c c', select discussion .postgres blogPosts (some liveliest) byRating ⟨10, some 10⟩ = .ok c ∧
      select discussion .postgres blogPosts (some liveliest) byRating ⟨10, some 10⟩ = .ok c' ∧ (c == c') = true) ∧
    Value.Drifts [.integer 9007199254740993] [.float 9007199254740992.0] [.integer 9007199254740992] := by
  obtain ⟨-, -, -, -, htwice⟩ := equality_up_to_drift
  constructor
  · obtain ⟨c, hc⟩ : ∃ c, select discussion .postgres blogPosts (some liveliest) byRating ⟨10, some 10⟩ = .ok c :=
      select_ok_iff.mpr (by decide +kernel)
    have hbounded : ∀ v ∈ liveliest.constants, v.Bounded := by
      have hconstants : liveliest.constants = [.integer 3, .text "lean"] := rfl
      rw [hconstants]
      simp [Bounded]
    exact ⟨c, c, hc, hc, (htwice _ _ _ (some liveliest) hbounded).1 _ _ c c hc hc⟩
  · obtain ⟨hvalues, -⟩ := equality_up_to_drift
    have hends : ((Value.integer 9007199254740993) == .integer 9007199254740992) = false := by decide +kernel
    have hdrifts := (hvalues.trans (.integer 9007199254740993) (.float 9007199254740992.0) (.integer 9007199254740992)
      (by decide +kernel) (by decide +kernel)).not
    rw [hends] at hdrifts
    exact not_not.mp (hdrifts.mp Bool.false_ne_true)

end Statement

end DocQuery
