/-
  DocQuery.Proofs.Query.Checked — what the checking constructors rule out.

  A leaf is sound when its field is not blank and it is compared with something. The checking constructors make
  sound leaves only, and a predicate text is read through them: a placeholder that is bound to null asks for a
  null test, or is refused (`toQuery_sound`). Connectives add no leaf. So whichever way a query was come by, all
  its leaves are sound (`Made.sound`).

  The compiler looks once more, at the field without the blanks around it. What it refuses sound leaves and
  keys for is where their paths lead and what they ask there, never their shape (`made_in_shape`).
-/

import DocQuery.Predicate.Text
import DocQuery.Proofs.Statement.Request

namespace DocQuery

open DocQuery.Path DocQuery.Predicate Statement

namespace Query

/-- The field is not blank, and what it is compared with is not null. -/
structure Leaf.Sound (l : Leaf) : Prop where
  named : Text.allBlank l.field = false
  valued : ∀ op v, l.test = .unary op v → v.isNull = false

def Sound (q : Query) : Prop := ∀ l ∈ q.leaves, l.Sound

/-- The queries of the checking constructors and of predicate texts, connected in any way. -/
inductive Made : Query → Prop
  | unary {field : String} {op : Operator} {v : Value} {q : Query} : checkedUnary field op v = .ok q → Made q
  | isNull {field : String} {q : Query} : checkedIsNull field = .ok q → Made q
  | isNotNull {field : String} {q : Query} : checkedIsNotNull field = .ok q → Made q
  | text {setting : Setting} {text : String} {q : Query} : ofText setting text = .ok q → Made q
  | binary (c : Connective) {left right : Query} : Made left → Made right → Made (.binary c left right)

/-! ## Constructors -/

section
variable {field : String} {op : Operator} {v : Value} {q left right : Query}

theorem checkField_eq_ok : checkField field = .ok () ↔ Text.allBlank field = false := by
  unfold checkField
  cases Text.allBlank field <;> simp

theorem sound_leaf {l : Leaf} (hq : q.leaves = [l]) (hl : l.Sound) : q.Sound := by
  intro l' hl'
  rw [hq] at hl'
  exact List.mem_singleton.mp hl' ▸ hl

theorem checkedUnary_sound (h : checkedUnary field op v = .ok q) : q.Sound := by
  obtain ⟨⟨⟩, hfield, h⟩ := Except.bind_eq_ok.mp h
  cases hv : v.isNull with
  | true =>
    rw [hv] at h
    cases h
  | false =>
    rw [hv] at h
    cases h
    refine sound_leaf rfl ⟨checkField_eq_ok.mp hfield, fun op' v' e => ?_⟩
    cases e
    exact hv

theorem checkedIsNull_sound (h : checkedIsNull field = .ok q) : q.Sound := by
  obtain ⟨⟨⟩, hfield, h⟩ := Except.bind_eq_ok.mp h
  cases h
  exact sound_leaf rfl ⟨checkField_eq_ok.mp hfield, nofun⟩

theorem checkedIsNotNull_sound (h : checkedIsNotNull field = .ok q) : q.Sound := by
  obtain ⟨⟨⟩, hfield, h⟩ := Except.bind_eq_ok.mp h
  cases h
  exact sound_leaf rfl ⟨checkField_eq_ok.mp hfield, nofun⟩

theorem Sound.binary (c : Connective) (hleft : left.Sound) (hright : right.Sound) : (Query.binary c left right).Sound :=
  List.forall_mem_append.mpr ⟨hleft, hright⟩

end

/-! ## Predicate texts -/

section
variable {setting : Setting} {c : Comparison} {left right field value e : Expr} {q : Query}

theorem nullLeaf_sound {path : String} (h : Expr.nullLeaf c path = .ok q) : q.Sound := by
  cases c with
  | equalTo => exact checkedIsNull_sound h
  | notEqualTo => exact checkedIsNotNull_sound h
  | _ => cases h

theorem leaf_sound (h : Expr.leaf setting c field value = .ok q) : q.Sound := by
  obtain ⟨path, -, h⟩ := Except.bind_eq_ok.mp h
  obtain ⟨v, -, h⟩ := Except.bind_eq_ok.mp h
  split at h
  · exact nullLeaf_sound h
  · exact checkedUnary_sound h

theorem compared_sound (h : Expr.compared setting c left right = .ok q) : q.Sound := by
  unfold Expr.compared at h
  split_ifs at h
  · exact leaf_sound h
  · exact leaf_sound h

/-- Whatever rules are in force, an expression is read as a query of sound leaves. -/
theorem toQuery_sound (h : e.toQuery setting = .ok q) : q.Sound := by
  induction e generalizing q with
  | nested inner ih =>
    unfold Expr.toQuery at h
    split_ifs at h
    · exact ih h
    · cases h
  | connective c left right ihl ihr =>
    unfold Expr.toQuery at h
    split_ifs at h
    · obtain ⟨l, hl, h⟩ := Except.bind_eq_ok.mp h
      obtain ⟨r, hr, h⟩ := Except.bind_eq_ok.mp h
      cases h
      exact (ihl hl).binary c (ihr hr)
    · cases h
  | comparison c left right =>
    unfold Expr.toQuery at h
    split_ifs at h
    · exact compared_sound h
    · cases h
  | isNull operand =>
    unfold Expr.toQuery at h
    split_ifs at h
    · obtain ⟨path, -, h⟩ := Except.bind_eq_ok.mp h
      exact checkedIsNull_sound h
    · cases h
  | isNotNull operand =>
    unfold Expr.toQuery at h
    split_ifs at h
    · obtain ⟨path, -, h⟩ := Except.bind_eq_ok.mp h
      exact checkedIsNotNull_sound h
    · cases h
  | _ => cases h

theorem ofText_sound {text : String} (h : ofText setting text = .ok q) : q.Sound := by
  obtain ⟨body, -, h⟩ := Except.bind_eq_ok.mp h
  exact toQuery_sound h

theorem Made.sound (h : q.Made) : q.Sound := by
  induction h with
  | unary h => exact checkedUnary_sound h
  | isNull h => exact checkedIsNull_sound h
  | isNotNull h => exact checkedIsNotNull_sound h
  | text h => exact ofText_sound h
  | binary c _ _ ihl ihr => exact ihl.binary c ihr

end

end Query

/-! ## Sort keys -/

namespace Sorting

/-- Sort keys given one after another, each checked or the identity. -/
inductive Made : Sorting → Prop
  | none : Made .none
  | thenBy {s s' : Sorting} {field : String} {direction : Direction} :
      Made s → s.thenBy field direction = .ok s' → Made s'
  | thenByIdentity {s : Sorting} (direction : Direction) : Made s → Made (s.thenByIdentity direction)

theorem checked_named {field : String} {direction : Direction} {k : SortKey}
    (h : SortKey.checked field direction = .ok k) : Text.allBlank k.field = false := by
  unfold SortKey.checked at h
  split_ifs at h with hblank
  cases h
  exact Bool.eq_false_iff.mpr hblank

theorem Made.named {s : Sorting} (h : s.Made) : ∀ k ∈ s.keys, Text.allBlank k.field = false := by
  induction h with
  | none => exact fun _ hk => nomatch hk
  | thenBy _ h ih =>
    obtain ⟨k, hk, rfl⟩ := Except.map_eq_ok.mp h
    exact List.forall_mem_append.mpr ⟨ih, List.forall_mem_singleton.mpr (checked_named hk)⟩
  | thenByIdentity direction _ ih =>
    have hid : Text.allBlank identityField = false := by decide +kernel
    exact List.forall_mem_append.mpr ⟨ih, List.forall_mem_singleton.mpr hid⟩

end Sorting

/-! ## Refusals -/

theorem Path.Refused.in_shape {e : Error} (h : Refused e) (fault : QueryFault) : e ≠ .query fault := by
  cases h <;> exact nofun

namespace Statement

section
variable {schema : Schema} {o : Offence}

/-- The offences of a leaf or a key by itself, wherever its path leads. -/
inductive Offence.OfShape : Offence → Prop
  | blankField : OfShape .blankField
  | nullValue (op : Operator) (field : String) : OfShape (.nullValue op field)

theorem Offence.OfPath.in_shape (h : o.OfPath) (hshape : ¬ o.OfShape) (d : Dialect) (fault : QueryFault) :
    o.error d ≠ .query fault := by
  cases o with
  | blankField => exact absurd .blankField hshape
  | nullValue op field => exact absurd (.nullValue op field) hshape
  | unresolved e => exact (h e rfl).in_shape fault
  | unsupported operator field => exact nofun
  | uncastable field typeName => exact nofun

theorem kindOffence?_in_shape {operator field : String} {wanted : Path.Kind} {r : ResolvedPath}
    (h : kindOffence? operator field wanted r = some o) : ¬ o.OfShape := by
  unfold kindOffence? at h
  split_ifs at h
  all_goals cases h; exact nofun

/-- What a sound leaf is refused for is not its shape. -/
theorem offence?_in_shape {l : Query.Leaf} (hl : l.Sound) (h : offence? schema l = some o) : ¬ o.OfShape := by
  obtain ⟨field, test⟩ := l
  simp only [offence?, hl.named, Bool.false_eq_true, if_false] at h
  cases ht : target? schema field with
  | error e =>
    have ho : o = .unresolved e := by
      cases test with
      | null negated => simpa [ht] using h.symm
      | unary op v => simpa [ht, hl.valued op v rfl] using h.symm
    subst ho
    intro hshape
    cases hshape
  | ok target =>
    cases test with
    | null negated => simp [ht] at h
    | unary op v =>
      simp only [ht, hl.valued op v rfl, Bool.false_eq_true, if_false] at h
      cases target with
      | identity =>
        split_ifs at h
        cases h
        intro hshape
        cases hshape
      | path r => exact kindOffence?_in_shape h

theorem keyOffence?_in_shape {k : SortKey} (hk : Text.allBlank k.field = false) (h : keyOffence? schema k = some o) :
    ¬ o.OfShape := by
  simp only [keyOffence?, hk, Bool.false_eq_true, if_false] at h
  split at h
  · cases h
    intro hshape
    cases hshape
  · cases h
  · exact kindOffence?_in_shape h

theorem firstOffence?_in_shape {q : Option Query} (hq : ∀ t, q = some t → t.Sound) {keys : List SortKey}
    (hkeys : ∀ k ∈ keys, Text.allBlank k.field = false) (h : firstOffence? schema q keys = some o) :
    ¬ o.OfShape := by
  rcases Option.or_eq_some_iff.mp h with h | ⟨-, h⟩
  · obtain ⟨l, hl, ho⟩ := List.exists_of_findSome?_eq_some h
    cases q with
    | none => cases hl
    | some t => exact offence?_in_shape (hq t rfl l hl) ho
  · obtain ⟨k, hk, ho⟩ := List.exists_of_findSome?_eq_some h
    exact keyOffence?_in_shape (hkeys k hk) ho

theorem count_error_iff {d : Dialect} {table : Table} {q : Option Query} {e : Error} :
    count schema d table q = .error e ↔ ∃ o, firstOffence? schema q [] = some o ∧ o.error d = e := by
  rw [count_eq, ← refusal_boundRequest]
  cases boundRequest schema q [] <;> simp [reported, Except.map, Except.mapError, refusal]

end

/-- A query of checking constructors and predicate texts has sound leaves only, and with it neither selecting nor
counting is refused for the shape of a leaf or of a sort key. -/
theorem made_in_shape {q : Option Query} (hq : ∀ t, q = some t → t.Made) {sorting : Sorting} (hs : sorting.Made) :
    (∀ t, q = some t → t.Sound) ∧ ∀ schema d table page fault,
      select schema d table q sorting page ≠ .error (.query fault) ∧
      count schema d table q ≠ .error (.query fault) := by
  have hsound : ∀ t, q = some t → t.Sound := fun t ht => (hq t ht).sound
  refine ⟨hsound, fun schema d table page fault => ⟨fun h => ?_, fun h => ?_⟩⟩
  · obtain ⟨o, ho, e⟩ := select_error_iff.mp h
    exact (firstOffence?_ofPath ho).in_shape (firstOffence?_in_shape hsound hs.named ho) d fault e
  · obtain ⟨o, ho, e⟩ := count_error_iff.mp h
    have hshape := firstOffence?_in_shape hsound (fun _ hk => absurd hk List.not_mem_nil) ho
    exact (firstOffence?_ofPath ho).in_shape hshape d fault e

/-- A title compared with a placeholder, and a score with a constant. -/
def untitledScored : Query :=
  .binary .and (.isNull "Title") (.unary "Score" (.comparison .greaterThan) (.integer 3))

/-- A placeholder that is bound to null is read as a null test. -/
theorem untitledScored_in_shape :
    Query.ofText (Setting.empty.bind "title" .null) "Title = :title" = .ok (.isNull "Title") ∧
    untitledScored.Sound ∧ ∀ schema d table page fault,
      select schema d table (some untitledScored) ⟨[⟨"Title", .descending⟩, .identity .ascending]⟩ page ≠
        .error (.query fault) ∧
      count schema d table (some untitledScored) ≠ .error (.query fault) := by
  have htitle : Query.ofText (Setting.empty.bind "title" .null) "Title = :title" = .ok (.isNull "Title") := by rfl
  have hscore : Query.checkedUnary "Score" (.comparison .greaterThan) (.integer 3) =
      .ok (.unary "Score" (.comparison .greaterThan) (.integer 3)) := by rfl
  have hkeys : Sorting.none.thenBy "Title" .descending = .ok ⟨[⟨"Title", .descending⟩]⟩ := by rfl
  have hmade : untitledScored.Made := .binary .and (.text htitle) (.unary hscore)
  obtain ⟨hsound, hshape⟩ := made_in_shape (q := some untitledScored) (fun t ht => Option.some.inj ht ▸ hmade)
    (Sorting.Made.thenByIdentity .ascending (.thenBy .none hkeys))
  exact ⟨htitle, hsound _ rfl, hshape⟩

end Statement

end DocQuery
