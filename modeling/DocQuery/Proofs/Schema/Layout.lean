/-
  DocQuery.Proofs.Schema.Layout — the object types that a shape is laid out as.

  `Laid shape t new` says which field type and which object types a shape becomes, whatever the
  names are. Laying out produces such types and keeps taken names distinct (`fieldType_laid`), and
  it succeeds on sound shapes (`fieldType_sound`). From `Laid` alone:
  - every type but the topmost is referred to by one field (`Laid.references_perm`);
  - the shape is sound when no type repeats a field (`Laid.sound_iff`);
  - the topmost type unfolds to the shape (`Laid.unfoldsTo`).
-/

import DocQuery.Proofs.Outcome
import DocQuery.Proofs.Schema.Naming

namespace DocQuery

/-! ## References -/

/-- The object type of a value, or of what its arrays hold. -/
def FieldType.reference? : FieldType → Option String
  | .scalar _ => none
  | .object name => some name
  | .array element => element.reference?

/-- The object types that the fields of a type refer to, field by field. -/
def ObjectType.references (t : ObjectType) : List String := t.fields.filterMap (·.type.reference?)

namespace Schema

def references (s : Schema) : List String := s.types.flatMap (·.references)

/-! ## Growing layouts -/

namespace Layout

/-- Laying out `new` leads from one layout to the next. -/
structure Grows (l l' : Layout) (new : List ObjectType) : Prop where
  types : l'.types = l.types ++ new
  taken : l'.taken.Perm (new.map (·.name) ++ l.taken)
  distinct : Distinct l.taken → Distinct l'.taken

theorem Grows.refl (l : Layout) : l.Grows l [] := ⟨by simp, List.Perm.refl _, id⟩

theorem Grows.trans {l m r : Layout} {a b : List ObjectType} (h : l.Grows m a) (h' : m.Grows r b) :
    l.Grows r (a ++ b) where
  types := by rw [h'.types, h.types, List.append_assoc]
  taken := by
    have hstep := h'.taken.trans (h.taken.append_left (b.map (·.name)))
    rw [← List.append_assoc] at hstep
    rw [List.map_append]
    exact hstep.trans (List.perm_append_comm.append_right _)
  distinct hd := h'.distinct (h.distinct hd)

/-- A type laid out under a reserved name stands after the types of its fields. -/
theorem Grows.push {l l' : Layout} {base : String} {new : List ObjectType} (fields : List Field)
    (h : (l.reserve base).2.Grows l' new) :
    l.Grows (l'.push ⟨l.freeName base, fields⟩) (new ++ [⟨l.freeName base, fields⟩]) where
  types := by
    show l'.types ++ _ = _
    rw [h.types, List.append_assoc]; rfl
  taken := by
    refine h.taken.trans ?_
    show (new.map (·.name) ++ l.freeName base :: l.taken).Perm _
    simp
  distinct hd := h.distinct (freeName_distinct hd base)

end Layout

/-! ## Laid out shapes -/

/-- Every name is a field name, no object has a key twice ignoring case, and no array holds arrays. -/
inductive Shape.Sound : Shape → Prop
  | unknown : Sound unknown
  | scalar (s : Scalar) : Sound (scalar s)
  | object {fields : List (String × Shape)} : (∀ f ∈ fields, Name.fault? f.1 = none) →
      Distinct (fields.map (·.1)) → (∀ f ∈ fields, Sound f.2) → Sound (object fields)
  | array {element : Shape} : (∀ e, element ≠ array e) → Sound element → Sound (array element)

mutual

/-- The shape becomes this field type, and `new` are the types of its objects, innermost first. -/
inductive Laid : Shape → FieldType → List ObjectType → Prop
  | unknown : Laid .unknown (.scalar .string) []
  | scalar (s : Scalar) : Laid (.scalar s) (.scalar s) []
  | object {shapes : List (String × Shape)} {fields : List Field} {new : List ObjectType} (name : String) :
      LaidFields shapes fields new → Laid (.object shapes) (.object name) (new ++ [⟨name, fields⟩])
  | array {element : Shape} {t : FieldType} {new : List ObjectType} : (∀ e, element ≠ .array e) →
      Laid element t new → Laid (.array element) (.array t) new

inductive LaidFields : List (String × Shape) → List Field → List ObjectType → Prop
  | nil : LaidFields [] [] []
  | cons {key : String} {shape : Shape} {shapes : List (String × Shape)} {t : FieldType} {fields : List Field}
      {new more : List ObjectType} : Name.fault? key = none → Laid shape t new → LaidFields shapes fields more →
      LaidFields ((key, shape) :: shapes) (⟨key, t⟩ :: fields) (new ++ more)

end

theorem checkFieldName_ok_iff {name : String} : checkFieldName name = .ok () ↔ Name.fault? name = none := by
  unfold checkFieldName
  cases Name.fault? name <;> simp

theorem fieldType_array {name : String} {element : Shape} (h : ∀ e, element ≠ .array e) (l : Layout) :
    fieldType name (.array element) l = (fieldType name element l).map fun r => (.array r.1, r.2) := by
  cases element with
  | array e => exact absurd rfl (h e)
  | unknown => rfl
  | scalar s => rfl
  | object fields =>
    show (fieldType name (.object fields) l).bind (fun r => .ok (FieldType.array r.1, r.2)) = _
    cases fieldType name (.object fields) l <;> rfl

mutual

/-- What is laid out is what the shape becomes. -/
theorem fieldType_laid : (shape : Shape) → {name : String} → {l l' : Layout} → {t : FieldType} →
    fieldType name shape l = .ok (t, l') → ∃ new, Laid shape t new ∧ l.Grows l' new
  | .unknown, _, l, _, _, h => by
    simp only [fieldType, Except.ok.injEq] at h
    cases h
    exact ⟨[], .unknown, .refl l⟩
  | .scalar s, _, l, _, _, h => by
    simp only [fieldType, Except.ok.injEq] at h
    cases h
    exact ⟨[], .scalar s, .refl l⟩
  | .object shapes, name, l, l', t, h => by
    simp only [fieldType] at h
    obtain ⟨⟨fields, inner⟩, hfields, h⟩ := Except.bind_eq_ok.mp h
    cases h
    obtain ⟨new, hlaid, hgrows⟩ := fieldTypes_laid shapes hfields
    exact ⟨_, .object _ hlaid, hgrows.push fields⟩
  | .array element, name, l, l', t, h => by
    by_cases hnested : ∃ e, element = .array e
    · obtain ⟨e, rfl⟩ := hnested
      cases h
    · have hflat : ∀ e, element ≠ .array e := fun e he => hnested ⟨e, he⟩
      rw [fieldType_array hflat] at h
      obtain ⟨⟨t', inner⟩, helement, h⟩ := Except.map_eq_ok.mp h
      cases h
      obtain ⟨new, hlaid, hgrows⟩ := fieldType_laid element helement
      exact ⟨new, .array hflat hlaid, hgrows⟩

theorem fieldTypes_laid : (shapes : List (String × Shape)) → {owner : String} → {l l' : Layout} →
    {fields : List Field} → fieldTypes owner shapes l = .ok (fields, l') →
    ∃ new, LaidFields shapes fields new ∧ l.Grows l' new
  | [], _, l, _, _, h => by
    simp only [fieldTypes, Except.ok.injEq] at h
    cases h
    exact ⟨[], .nil, .refl l⟩
  | (key, shape) :: rest, owner, l, l', fields, h => by
    simp only [fieldTypes] at h
    obtain ⟨_, hname, h⟩ := Except.bind_eq_ok.mp h
    obtain ⟨⟨t, l₁⟩, hshape, h⟩ := Except.bind_eq_ok.mp h
    obtain ⟨⟨more, l₂⟩, hrest, h⟩ := Except.bind_eq_ok.mp h
    cases h
    obtain ⟨new, hlaid, hgrows⟩ := fieldType_laid shape hshape
    obtain ⟨news, hlaids, hgrows'⟩ := fieldTypes_laid rest hrest
    exact ⟨_, .cons (checkFieldName_ok_iff.mp hname) hlaid hlaids, hgrows.trans hgrows'⟩

end

theorem fieldTypes_ok {shapes : List (String × Shape)} (hnames : ∀ f ∈ shapes, Name.fault? f.1 = none)
    (h : ∀ f ∈ shapes, ∀ (name : String) (l : Layout), ∃ r, fieldType name f.2 l = .ok r) (owner : String)
    (l : Layout) : ∃ r, fieldTypes owner shapes l = .ok r := by
  induction shapes generalizing l with
  | nil => exact ⟨_, rfl⟩
  | cons f rest ih =>
    obtain ⟨hname, hnames⟩ := List.forall_mem_cons.mp hnames
    obtain ⟨hf, h⟩ := List.forall_mem_cons.mp h
    obtain ⟨⟨t, l₁⟩, ht⟩ := hf (owner ++ f.1) l
    obtain ⟨⟨fields, l₂⟩, hrest⟩ := ih hnames h l₁
    refine ⟨(⟨f.1, t⟩ :: fields, l₂), ?_⟩
    simp only [fieldTypes]
    refine Except.bind_eq_ok.mpr ⟨(), checkFieldName_ok_iff.mpr hname, ?_⟩
    refine Except.bind_eq_ok.mpr ⟨(t, l₁), ht, ?_⟩
    exact Except.bind_eq_ok.mpr ⟨(fields, l₂), hrest, rfl⟩

/-- A sound shape can be laid out anywhere. -/
theorem fieldType_sound {shape : Shape} (h : shape.Sound) :
    ∀ (name : String) (l : Layout), ∃ r, fieldType name shape l = .ok r := by
  induction h with
  | unknown => exact fun _ _ => ⟨_, rfl⟩
  | scalar s => exact fun _ _ => ⟨_, rfl⟩
  | object hnames _ _ ih =>
    intro name l
    obtain ⟨⟨fields, inner⟩, hfields⟩ := fieldTypes_ok hnames ih (l.reserve name).1 (l.reserve name).2
    refine ⟨(.object (l.reserve name).1, inner.push ⟨(l.reserve name).1, fields⟩), ?_⟩
    simp only [fieldType]
    exact Except.bind_eq_ok.mpr ⟨(fields, inner), hfields, rfl⟩
  | array hflat _ ih =>
    intro name l
    obtain ⟨r, hr⟩ := ih name l
    exact ⟨_, (fieldType_array hflat l).trans (Except.map_eq_ok.mpr ⟨r, hr, rfl⟩)⟩

/-! ## What the laid out types say -/

mutual

/-- Every type but the topmost is referred to by one field. -/
theorem Laid.references_perm {shape : Shape} {t : FieldType} {new : List ObjectType} :
    Laid shape t new → (t.reference?.toList ++ new.flatMap (·.references)).Perm (new.map (·.name))
  | .unknown => .refl _
  | .scalar _ => .refl _
  | .array _ h => h.references_perm
  | @Laid.object _ fields new name h => by
    have hinner : (fields.filterMap (·.type.reference?) ++ new.flatMap (·.references)).Perm _ := h.references_perm
    have hback := (List.perm_append_comm.trans hinner).append_right [name]
    simp only [List.flatMap_append, List.flatMap_singleton, List.map_append, List.map_singleton]
    exact List.perm_append_comm.trans hback

theorem LaidFields.references_perm {shapes : List (String × Shape)} {fields : List Field} {new : List ObjectType} :
    LaidFields shapes fields new →
      (fields.filterMap (·.type.reference?) ++ new.flatMap (·.references)).Perm (new.map (·.name))
  | .nil => .refl _
  | @LaidFields.cons key _ _ t fields _ _ _ h hrest => by
    have hboth := h.references_perm.append hrest.references_perm
    have hsplit : (Field.mk key t :: fields).filterMap (·.type.reference?) =
        t.reference?.toList ++ fields.filterMap (·.type.reference?) := by
      cases ht : t.reference? <;> simp [ht]
    rw [hsplit, List.flatMap_append, List.map_append, List.append_assoc]
    rw [List.append_assoc] at hboth
    exact ((List.perm_append_comm_assoc _ _ _).append_left _).trans hboth

end

mutual

/-- Each laid out type has the fields of one of the shape's objects. -/
theorem Laid.fields_of_mem {shape : Shape} {t : FieldType} {new : List ObjectType} :
    Laid shape t new → ∀ u ∈ new, ∃ shapes more, LaidFields shapes u.fields more
  | .unknown, _, h => by cases h
  | .scalar _, _, h => by cases h
  | .array _ h, u, hu => h.fields_of_mem u hu
  | .object name h, u, hu => by
    rcases List.mem_append.mp hu with hu | hu
    · exact h.fields_of_mem u hu
    · obtain rfl := List.mem_singleton.mp hu
      exact ⟨_, _, h⟩

theorem LaidFields.fields_of_mem {shapes : List (String × Shape)} {fields : List Field} {new : List ObjectType} :
    LaidFields shapes fields new → ∀ u ∈ new, ∃ shapes more, LaidFields shapes u.fields more
  | .nil, _, h => by cases h
  | .cons _ h hrest, u, hu => (List.mem_append.mp hu).elim (h.fields_of_mem u) (hrest.fields_of_mem u)

end

theorem LaidFields.names {shapes : List (String × Shape)} {fields : List Field} {new : List ObjectType}
    (h : LaidFields shapes fields new) : fields.map (·.name) = shapes.map (·.1) := by
  induction fields generalizing shapes new with
  | nil => cases h; rfl
  | cons f rest ih =>
    cases h with
    | cons _ _ hrest => simp only [List.map_cons, ih hrest]

theorem LaidFields.of_mem {shapes : List (String × Shape)} {fields : List Field} {new : List ObjectType}
    (h : LaidFields shapes fields new) {f : Field} (hf : f ∈ fields) :
    Name.fault? f.name = none ∧ ∃ shape more, Laid shape f.type more := by
  induction fields generalizing shapes new with
  | nil => cases hf
  | cons g rest ih =>
    cases h with
    | cons hname hlaid hrest =>
      rcases List.mem_cons.mp hf with rfl | hf
      · exact ⟨hname, _, _, hlaid⟩
      · exact ih hrest hf

theorem LaidFields.names_valid {shapes : List (String × Shape)} {fields : List Field} {new : List ObjectType}
    (h : LaidFields shapes fields new) : ∀ f ∈ shapes, Name.fault? f.1 = none := by
  intro f hf
  have hmem : f.1 ∈ fields.map (·.name) := by rw [h.names]; exact List.mem_map_of_mem hf
  obtain ⟨g, hg, he⟩ := List.mem_map.mp hmem
  rw [← he]; exact (h.of_mem hg).1

mutual

/-- The shape is sound exactly when none of its types repeats a field. -/
theorem Laid.sound_iff {shape : Shape} {t : FieldType} {new : List ObjectType} :
    Laid shape t new → (shape.Sound ↔ ∀ u ∈ new, Distinct (u.fields.map (·.name)))
  | .unknown => ⟨fun _ _ h => (by cases h), fun _ => .unknown⟩
  | .scalar s => ⟨fun _ _ h => (by cases h), fun _ => .scalar s⟩
  | .array hflat h => by
    rw [← h.sound_iff]
    exact ⟨fun hs => by cases hs with | array _ hs => exact hs, .array hflat⟩
  | .object name h => by
    rw [List.forall_mem_append, ← h.sound_iff, List.forall_mem_singleton, h.names]
    exact ⟨fun hs => by cases hs with | object _ hd hf => exact ⟨hf, hd⟩, fun hs => .object h.names_valid hs.2 hs.1⟩

theorem LaidFields.sound_iff {shapes : List (String × Shape)} {fields : List Field} {new : List ObjectType} :
    LaidFields shapes fields new → ((∀ f ∈ shapes, f.2.Sound) ↔ ∀ u ∈ new, Distinct (u.fields.map (·.name)))
  | .nil => by simp
  | .cons _ h hrest => by rw [List.forall_mem_cons, List.forall_mem_append, h.sound_iff, hrest.sound_iff]

end

/-! ## Unfolding -/

mutual

/-- The shape as a schema gives it back: what was never seen is text. -/
def Shape.settled : Shape → Shape
  | .unknown => .scalar .string
  | .scalar s => .scalar s
  | .object fields => .object (settledFields fields)
  | .array element => .array element.settled

def Shape.settledFields : List (String × Shape) → List (String × Shape)
  | [] => []
  | (key, shape) :: rest => (key, shape.settled) :: settledFields rest

end

/-- The shape that a field type stands for, if at most `depth` steps down lead to its ends. -/
def unfold (s : Schema) : Nat → FieldType → Option Shape
  | 0, _ => none
  | _ + 1, .scalar t => some (.scalar t)
  | depth + 1, .array element => (s.unfold depth element).map .array
  | depth + 1, .object name => do
    let t ← s.type? name
    let fields ← t.fields.mapM fun f => (s.unfold depth f.type).map (f.name, ·)
    return .object fields

/-- From some depth on the field type unfolds to this shape. -/
def UnfoldsTo (s : Schema) (t : FieldType) (shape : Shape) : Prop :=
  ∃ enough, ∀ depth ≥ enough, s.unfold depth t = some shape

mutual

/-- Where the laid out types stand, the topmost unfolds to the shape. -/
theorem Laid.unfoldsTo {s : Schema} {shape : Shape} {t : FieldType} {new : List ObjectType} :
    Laid shape t new → (∀ u ∈ new, s.type? u.name = some u) → s.UnfoldsTo t shape.settled
  | .unknown, _ => ⟨1, fun depth h => by cases depth with | zero => omega | succ d => rfl⟩
  | .scalar _, _ => ⟨1, fun depth h => by cases depth with | zero => omega | succ d => rfl⟩
  | .array _ h, hs => by
    obtain ⟨enough, hunfold⟩ := h.unfoldsTo hs
    refine ⟨enough + 1, fun depth hd => ?_⟩
    cases depth with
    | zero => omega
    | succ d => simp only [unfold, hunfold d (by omega), Option.map_some, Shape.settled]
  | .object name h, hs => by
    obtain ⟨hinner, htop⟩ := List.forall_mem_append.mp hs
    obtain ⟨enough, hunfold⟩ := h.unfoldsTo hinner
    refine ⟨enough + 1, fun depth hd => ?_⟩
    cases depth with
    | zero => omega
    | succ d =>
      simp only [unfold, htop _ (List.mem_singleton_self _), bind, Option.bind, Shape.settled]
      rw [hunfold d (by omega)]
      rfl

theorem LaidFields.unfoldsTo {s : Schema} {shapes : List (String × Shape)} {fields : List Field}
    {new : List ObjectType} : LaidFields shapes fields new → (∀ u ∈ new, s.type? u.name = some u) →
    ∃ enough, ∀ depth ≥ enough,
      fields.mapM (fun f => (s.unfold depth f.type).map (f.name, ·)) = some (Shape.settledFields shapes)
  | .nil, _ => ⟨0, fun _ _ => rfl⟩
  | .cons _ h hrest, hs => by
    obtain ⟨hhead, htail⟩ := List.forall_mem_append.mp hs
    obtain ⟨enough, hunfold⟩ := h.unfoldsTo hhead
    obtain ⟨more, hmore⟩ := hrest.unfoldsTo htail
    refine ⟨max enough more, fun depth hd => ?_⟩
    rw [List.mapM_cons, hunfold depth (by omega), hmore depth (by omega)]
    rfl

end

end Schema

end DocQuery
