/-
  DocQuery.Proofs.Schema.Merging — merged shapes form a semilattice.

  A shape read from a document has the fields of its objects in strict order of the keys
  (`Shape.Sorted`). On such shapes a field of a merge is the merge of the two sides' fields
  (`field?_mergeFields`), and fields in order are determined by what each key holds (`ext_field?`).
  From these two, by induction on how the shape is sorted:
  - `Sorted.merge`: a merge is sorted again.
  - `merge_comm`, `merge_assoc`, `merge_self`: merging is commutative, associative and idempotent,
    with `unknown` below everything and text above everything.
  `Sample` carries a sorted shape, and its order is the one in which `⊔` is the merge.
-/

import Mathlib.Data.List.Sort
import DocQuery.Proofs.Entries
import DocQuery.Schema.Infer

namespace DocQuery.Schema

namespace Shape

/-! ## Scalars -/

theorem widen_comm (a b : Scalar) : widen a b = widen b a := by
  cases a <;> cases b <;> rfl

theorem widen_assoc (a b c : Scalar) : widen (widen a b) c = widen a (widen b c) := by
  cases a <;> cases b <;> cases c <;> rfl

theorem widen_self (a : Scalar) : widen a a = a := by
  cases a <;> rfl

theorem widen_string (a : Scalar) : widen a .string = .string := by
  cases a <;> rfl

theorem string_widen (a : Scalar) : widen .string a = .string := by
  rw [widen_comm, widen_string]

/-! ## Fields in order -/

/-- The shape under a key, if the key is there. -/
def field? (fields : List (String × Shape)) (key : String) : Option Shape :=
  (fields.find? (·.1 == key)).map (·.2)

theorem fieldShape_eq (fields : List (String × Shape)) (key : String) :
    fieldShape fields key = (field? fields key).getD unknown := rfl

theorem field?_cons (f : String × Shape) (rest : List (String × Shape)) (key : String) :
    field? (f :: rest) key = if f.1 = key then some f.2 else field? rest key := by
  unfold field?
  rw [List.find?_cons]
  by_cases h : f.1 = key
  · simp [h]
  · have hb : (f.1 == key) = false := by simpa using h
    simp [h, hb]

theorem field?_append (a b : List (String × Shape)) (key : String) :
    field? (a ++ b) key = (field? a key).or (field? b key) := by
  unfold field?
  rw [List.find?_append]
  cases a.find? (·.1 == key) <;> rfl

theorem field?_eq_none_iff {fields : List (String × Shape)} {key : String} :
    field? fields key = none ↔ ∀ f ∈ fields, f.1 ≠ key := by
  simp [field?]

/-- A filter by key keeps what is under the keys that pass. -/
theorem field?_filter (p : String → Bool) (fields : List (String × Shape)) (key : String) :
    field? (fields.filter fun f => p f.1) key = if p key then field? fields key else none := by
  induction fields with
  | nil => simp [field?]
  | cons f rest ih =>
    rw [field?_cons, List.filter_cons]
    by_cases hk : f.1 = key
    · subst hk
      cases hp : p f.1 with
      | true => simp [field?_cons]
      | false => simpa [hp] using ih
    · cases hp : p f.1 with
      | true => simp [field?_cons, hk, ih]
      | false => simpa [hk] using ih

theorem mem_of_field? {fields : List (String × Shape)} {key : String} {s : Shape}
    (h : field? fields key = some s) : (key, s) ∈ fields := by
  obtain ⟨f, hf, rfl⟩ := Option.map_eq_some_iff.mp h
  have hkey : f.1 = key := by simpa using List.find?_some hf
  have hmem := List.mem_of_find?_eq_some hf
  rw [← hkey]; exact hmem

theorem field?_eq_some_iff {fields : List (String × Shape)} (h : Ordered fields) {key : String} {s : Shape} :
    field? fields key = some s ↔ (key, s) ∈ fields := by
  refine ⟨mem_of_field?, fun hm => ?_⟩
  induction fields with
  | nil => cases hm
  | cons f rest ih =>
    obtain ⟨hlt, hrest⟩ := List.pairwise_cons.mp h
    rw [field?_cons]
    rcases List.mem_cons.mp hm with rfl | hm
    · simp
    · have hne : f.1 ≠ key := (hlt _ hm).ne
      rw [if_neg hne]
      exact ih hrest hm

/-- Fields in order are determined by what each key holds. -/
theorem ext_field? {a b : List (String × Shape)} (ha : Ordered a) (hb : Ordered b)
    (h : ∀ key, field? a key = field? b key) : a = b := by
  have : Std.Irrefl fun f g : String × Shape => f.1 < g.1 := ⟨fun f => lt_irrefl f.1⟩
  have : Std.Antisymm fun f g : String × Shape => f.1 < g.1 := ⟨fun f g hfg hgf => absurd hgf (lt_asymm hfg)⟩
  refine List.Pairwise.eq_of_mem_iff ha hb fun f => ?_
  rw [show f = (f.1, f.2) from rfl, ← field?_eq_some_iff ha, ← field?_eq_some_iff hb, h]

/-! ## Merged fields -/

@[simp] theorem merge_unknown (a : Shape) : merge a unknown = a := by
  cases a <;> simp [merge]

@[simp] theorem unknown_merge (a : Shape) : merge unknown a = a := by
  simp [merge]

theorem key_mem_mergeFields {a b : List (String × Shape)} {f : String × Shape} (h : f ∈ mergeFields a b) :
    (∃ g ∈ a, g.1 = f.1) ∨ ∃ g ∈ b, g.1 = f.1 := by
  induction a generalizing b with
  | nil => exact .inr ⟨f, by simpa [mergeFields] using h, rfl⟩
  | cons head rest ih =>
    obtain ⟨key, shape⟩ := head
    simp only [mergeFields, List.mem_append, List.mem_cons] at h
    rcases h with h | rfl | h
    · exact .inr ⟨f, (List.mem_filter.mp h).1, rfl⟩
    · exact .inl ⟨(key, shape), List.mem_cons_self, rfl⟩
    · rcases ih h with ⟨g, hg, he⟩ | ⟨g, hg, he⟩
      · exact .inl ⟨g, List.mem_cons_of_mem _ hg, he⟩
      · exact .inr ⟨g, (List.mem_filter.mp hg).1, he⟩

theorem mergeFields_ordered {a b : List (String × Shape)} (ha : Ordered a) (hb : Ordered b) :
    Ordered (mergeFields a b) := by
  induction a generalizing b with
  | nil => simpa [mergeFields] using hb
  | cons head rest ih =>
    obtain ⟨key, shape⟩ := head
    obtain ⟨hlt, hrest⟩ := List.pairwise_cons.mp ha
    have hlater : ∀ f ∈ mergeFields rest (b.filter fun f => key < f.1), key < f.1 := by
      intro f hf
      rcases key_mem_mergeFields hf with ⟨g, hg, he⟩ | ⟨g, hg, he⟩
      · rw [← he]; exact hlt g hg
      · rw [← he]; simpa using (List.mem_filter.mp hg).2
    simp only [mergeFields]
    refine List.pairwise_append.mpr ⟨hb.filter _, ?_, ?_⟩
    · exact List.pairwise_cons.mpr ⟨hlater, ih hrest (hb.filter _)⟩
    · intro f hf g hg
      have hfk : f.1 < key := by simpa using (List.mem_filter.mp hf).2
      rcases List.mem_cons.mp hg with rfl | hg
      · exact hfk
      · exact hfk.trans (hlater g hg)

/-- A key of a merge holds what the two sides hold under it, merged. -/
theorem field?_mergeFields {a : List (String × Shape)} (ha : Ordered a) (b : List (String × Shape)) (k : String) :
    field? (mergeFields a b) k = (field? a k).merge Shape.merge (field? b k) := by
  induction a generalizing b with
  | nil =>
    have hnone : field? [] k = none := rfl
    rw [hnone, Option.merge_none_left]
    simp only [mergeFields]
  | cons head rest ih =>
    obtain ⟨key, shape⟩ := head
    obtain ⟨hlt, hrest⟩ := List.pairwise_cons.mp ha
    have hbelow := field?_filter (fun x => decide (x < key)) b k
    have habove := field?_filter (fun x => decide (key < x)) b k
    simp only [mergeFields]
    rw [field?_append, hbelow, field?_cons, field?_cons, ih hrest, habove, fieldShape_eq]
    rcases lt_trichotomy k key with hk | rfl | hk
    · have hnone : field? rest k = none := by
        refine field?_eq_none_iff.mpr fun f hf he => ?_
        have := hlt f hf
        rw [he] at this
        exact lt_asymm hk this
      simp only [hk, hk.ne', not_lt_of_gt hk, hnone]
      cases field? b k <;> simp [Option.merge]
    · cases field? b k <;> simp [Option.merge]
    · simp [hk, hk.ne, not_lt_of_gt hk]

/-! ## Sorted shapes -/

/-- Every object's fields are in order of the keys. -/
inductive Sorted : Shape → Prop
  | unknown : Sorted unknown
  | scalar (s : Scalar) : Sorted (scalar s)
  | object {fields : List (String × Shape)} : Ordered fields → (∀ f ∈ fields, Sorted f.2) → Sorted (object fields)
  | array {element : Shape} : Sorted element → Sorted (array element)

theorem Sorted.field {fields : List (String × Shape)} (h : ∀ f ∈ fields, Sorted f.2) {key : String} {s : Shape}
    (hs : field? fields key = some s) : Sorted s := h _ (mem_of_field? hs)

theorem Sorted.merge {a b : Shape} (ha : Sorted a) (hb : Sorted b) : Sorted (a.merge b) := by
  induction ha generalizing b with
  | unknown => simpa using hb
  | scalar s => cases hb <;> simp only [Shape.merge] <;> exact .scalar _
  | object ho hf ih =>
    cases hb with
    | unknown => simpa using Sorted.object ho hf
    | scalar t => exact .scalar _
    | array _ => exact .scalar _
    | object ho' hf' =>
      simp only [Shape.merge]
      refine .object (mergeFields_ordered ho ho') fun f hm => ?_
      have hfield := (field?_eq_some_iff (mergeFields_ordered ho ho')).mpr hm
      rw [field?_mergeFields ho, Option.merge_eq_some_iff] at hfield
      rcases hfield with ⟨hs, -⟩ | ⟨-, hs⟩ | ⟨x, y, hx, hy, hs⟩
      · exact Sorted.field hf hs
      · exact Sorted.field hf' hs
      · rw [← hs]; exact ih _ (mem_of_field? hx) (Sorted.field hf' hy)
  | array he ih =>
    cases hb with
    | unknown => simpa using Sorted.array he
    | scalar t => exact .scalar _
    | object _ _ => exact .scalar _
    | array he' => exact .array (ih he')

/-! ## Laws -/

theorem merge_comm {a b : Shape} (ha : Sorted a) (hb : Sorted b) : a.merge b = b.merge a := by
  induction ha generalizing b with
  | unknown => simp
  | scalar s =>
    cases hb with
    | scalar t => simp only [merge, widen_comm]
    | unknown => simp
    | object _ _ => rfl
    | array _ => rfl
  | object ho hf ih =>
    cases hb with
    | unknown => simp
    | scalar t => rfl
    | array _ => rfl
    | object ho' hf' =>
      simp only [merge, object.injEq]
      refine ext_field? (mergeFields_ordered ho ho') (mergeFields_ordered ho' ho) fun key => ?_
      rw [field?_mergeFields ho, field?_mergeFields ho']
      cases hx : field? _ key with
      | none => cases field? _ key <;> rfl
      | some x =>
        cases hy : field? _ key with
        | none => rfl
        | some y => exact congrArg some (ih _ (mem_of_field? hx) (Sorted.field hf' hy))
  | array he ih =>
    cases hb with
    | unknown => simp
    | scalar t => rfl
    | object _ _ => rfl
    | array he' => simp only [merge, ih he']

theorem merge_self {a : Shape} (ha : Sorted a) : a.merge a = a := by
  induction ha with
  | unknown => simp
  | scalar s => simp only [merge, widen_self]
  | object ho hf ih =>
    simp only [merge, object.injEq]
    refine ext_field? (mergeFields_ordered ho ho) ho fun key => ?_
    rw [field?_mergeFields ho]
    cases hx : field? _ key with
    | none => rfl
    | some x => exact congrArg some (ih _ (mem_of_field? hx))
  | array he ih => simp only [merge, ih]

theorem merge_assoc {a b c : Shape} (ha : Sorted a) (hb : Sorted b) (hc : Sorted c) :
    (a.merge b).merge c = a.merge (b.merge c) := by
  induction ha generalizing b c with
  | unknown => simp
  | scalar s =>
    cases hb with
    | unknown => simp
    | scalar t => cases hc <;> simp [merge, widen_assoc, widen_string]
    | object _ _ => cases hc <;> simp [merge, widen_string, string_widen]
    | array _ => cases hc <;> simp [merge, widen_string, string_widen]
  | object ho hf ih =>
    cases hb with
    | unknown => simp
    | scalar t => cases hc <;> simp [merge, string_widen]
    | array _ => cases hc <;> simp [merge, string_widen]
    | object ho' hf' =>
      cases hc with
      | unknown => simp
      | scalar u => rfl
      | array _ => rfl
      | object ho'' hf'' =>
        simp only [merge, object.injEq]
        have hleft := mergeFields_ordered ho ho'
        have hright := mergeFields_ordered ho' ho''
        refine ext_field? (mergeFields_ordered hleft ho'') (mergeFields_ordered ho hright) fun key => ?_
        rw [field?_mergeFields hleft, field?_mergeFields ho, field?_mergeFields ho, field?_mergeFields ho']
        cases hx : field? _ key with
        | none => simp only [Option.merge_none_left]
        | some x =>
          cases hy : field? _ key with
          | none => simp only [Option.merge_none_left, Option.merge_none_right]
          | some y =>
            cases hz : field? _ key with
            | none => rfl
            | some z =>
              exact congrArg some (ih _ (mem_of_field? hx) (Sorted.field hf' hy) (Sorted.field hf'' hz))
  | array he ih =>
    cases hb with
    | unknown => simp
    | scalar t => cases hc <;> simp [merge, string_widen]
    | object _ _ => cases hc <;> simp [merge, string_widen]
    | array he' =>
      cases hc with
      | unknown => simp
      | scalar u => rfl
      | object _ _ => rfl
      | array he'' => simp only [merge, ih he' he'']

end Shape

/-! ## Samples -/

/-- What is seen of documents: a sorted shape. -/
structure Sample where
  shape : Shape
  sorted : shape.Sorted

namespace Sample

theorem eq_of_shape {a b : Sample} (h : a.shape = b.shape) : a = b := by
  cases a; cases b; cases h; rfl

instance : Max Sample := ⟨fun a b => ⟨a.shape.merge b.shape, a.sorted.merge b.sorted⟩⟩

instance : SemilatticeSup Sample :=
  SemilatticeSup.mk'
    (fun a b => eq_of_shape (Shape.merge_comm a.sorted b.sorted))
    (fun a b c => eq_of_shape (Shape.merge_assoc a.sorted b.sorted c.sorted))
    (fun a => eq_of_shape (Shape.merge_self a.sorted))

/-- What stands above a merge of many samples stands above each of them. -/
theorem foldl_sup_le_iff {samples : List Sample} {seen bound : Sample} :
    samples.foldl (· ⊔ ·) seen ≤ bound ↔ seen ≤ bound ∧ ∀ s ∈ samples, s ≤ bound := by
  induction samples generalizing seen with
  | nil => simp
  | cons s rest ih =>
    rw [List.foldl_cons, ih, sup_le_iff, List.forall_mem_cons, and_assoc]

/-- Only membership matters to a merge of many samples. -/
theorem foldl_sup_congr {a b : List Sample} (h : ∀ s, s ∈ a ↔ s ∈ b) (seen : Sample) :
    a.foldl (· ⊔ ·) seen = b.foldl (· ⊔ ·) seen := by
  refine eq_of_forall_ge_iff fun bound => ?_
  simp only [foldl_sup_le_iff, h]

end Sample

/-! ## Documents -/

/-- The merge of the shapes of documents. -/
def Shape.ofDocuments (documents : List Json) : Shape :=
  (documents.map fun d => Shape.ofJson d.canonical).foldl Shape.merge .unknown

/-- Documents are merged if they are objects, and only then. -/
theorem mergeDocuments_ok_iff {documents : List Json} {seen shape : Shape} :
    mergeDocuments seen documents = .ok shape ↔
      (∀ d ∈ documents, ∃ members, d = .object members) ∧
        (documents.map fun d => Shape.ofJson d.canonical).foldl Shape.merge seen = shape := by
  induction documents generalizing seen with
  | nil => simp [mergeDocuments]
  | cons d rest ih =>
    cases d with
    | object members =>
      have hmembers : ∃ m, Json.object members = .object m := ⟨members, rfl⟩
      rw [mergeDocuments, ih, List.forall_mem_cons, List.map_cons, List.foldl_cons]
      simp only [hmembers, true_and]
    | _ => simp [mergeDocuments]

theorem mergeDocuments_objects {documents : List Json} (h : ∀ d ∈ documents, ∃ members, d = .object members) :
    mergeDocuments .unknown documents = .ok (Shape.ofDocuments documents) :=
  mergeDocuments_ok_iff.mpr ⟨h, rfl⟩

/-- Objects merge to an object. -/
theorem Shape.ofDocuments_object {documents : List Json} (hne : documents ≠ [])
    (h : ∀ d ∈ documents, ∃ members, d = .object members) :
    ∃ fields, Shape.ofDocuments documents = .object fields := by
  have hfold : ∀ (rest : List Json) (fields : List (String × Shape)),
      (∀ d ∈ rest, ∃ members, d = .object members) → ∃ fields',
        (rest.map fun d => Shape.ofJson d.canonical).foldl Shape.merge (.object fields) = .object fields' := by
    intro rest
    induction rest with
    | nil => exact fun fields _ => ⟨fields, rfl⟩
    | cons d rest ih =>
      intro fields h
      obtain ⟨⟨members, rfl⟩, hrest⟩ := List.forall_mem_cons.mp h
      exact ih _ hrest
  cases documents with
  | nil => exact absurd rfl hne
  | cons d rest =>
    obtain ⟨⟨members, rfl⟩, hrest⟩ := List.forall_mem_cons.mp h
    exact hfold rest _ hrest

end DocQuery.Schema
