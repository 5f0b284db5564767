/-
  DocQuery.Proofs.Schema.Sampling — the inferred schema does not depend on how samples are given.

  The shape of a document read by its canonical form is sorted (`sorted_ofJson`), so a list of
  documents is a list of `Sample`s and their merged shape is the least upper bound of these
  (`ofDocuments_eq`). `Rearranged` are documents that differ in the order and the repetition
  of array items only, `Resampled` lists of documents that differ so in themselves too. A rearranged
  document is the same sample (`Rearranged.sample_eq`), a resampled list has the same least upper
  bound (`Resampled.merged_eq`), and nothing but that bound is laid out (`infer_resampled`).
-/

import DocQuery.Proofs.Entries
import DocQuery.Proofs.Schema.Merging

namespace DocQuery.Schema

/-! ## Canonical members -/

namespace Shape

theorem ofMembers_eq (members : List (String × Json)) : ofMembers members = members.map fun m => (m.1, ofJson m.2) := by
  induction members with
  | nil => rfl
  | cons m rest ih => rw [ofMembers, ih, List.map_cons]

/-- Sorting members sorts the fields read from them. -/
theorem ofMembers_sortEntries (members : List (String × Json)) :
    ofMembers (sortEntries members) = sortEntries (ofMembers members) := by
  rw [ofMembers_eq, ofMembers_eq]
  exact (sortEntries_map ofJson members).symm

mutual

/-- The shape of a document is sorted. -/
theorem sorted_ofJson : (j : Json) → (ofJson j.canonical).Sorted
  | .null => .unknown
  | .bool _ => .scalar _
  | .int _ => .scalar _
  | .float _ => .scalar _
  | .string _ => .scalar _
  | .array items => .array (sorted_ofItems .unknown items)
  | .object members => by
    simp only [Json.canonical, ofJson]
    rw [ofMembers_sortEntries]
    exact .object (sortEntries_ordered _) fun f hf => sorted_ofMembers members f (mem_sortEntries hf)

theorem sorted_ofItems {seen : Shape} (h : seen.Sorted) :
    (items : List Json) → (ofItems seen (Json.canonicalItems items)).Sorted
  | [] => h
  | j :: rest => sorted_ofItems (h.merge (sorted_ofJson j)) rest

theorem sorted_ofMembers : (members : List (String × Json)) →
    ∀ f ∈ ofMembers (Json.canonicalMembers members), f.2.Sorted
  | [], _, h => by cases h
  | (key, j) :: rest, f, h => by
    simp only [Json.canonicalMembers, ofMembers, List.mem_cons] at h
    rcases h with rfl | h
    · exact sorted_ofJson j
    · exact sorted_ofMembers rest f h

end

end Shape

/-! ## Documents as samples -/

namespace Sample

def ofJson (j : Json) : Sample := ⟨Shape.ofJson j.canonical, Shape.sorted_ofJson j⟩

def merged (seen : Sample) (documents : List Json) : Sample := (documents.map ofJson).foldl (· ⊔ ·) seen

def nothing : Sample := ⟨.unknown, .unknown⟩

/-- The items of an array are merged as samples are. -/
theorem ofItems_canonical (seen : Sample) (items : List Json) :
    Shape.ofItems seen.shape (Json.canonicalItems items) = (merged seen items).shape := by
  induction items generalizing seen with
  | nil => rfl
  | cons j rest ih => exact ih (seen ⊔ ofJson j)

theorem shape_array (items : List Json) :
    (ofJson (.array items)).shape = .array (merged nothing items).shape := by
  rw [← ofItems_canonical]; rfl

theorem shape_object (members : List (String × Json)) :
    (ofJson (.object members)).shape =
      .object (sortEntries (members.map fun m => (m.1, (ofJson m.2).shape))) := by
  show Shape.object (Shape.ofMembers (sortEntries (Json.canonicalMembers members))) = _
  rw [Shape.ofMembers_sortEntries]
  refine congrArg (fun fields => Shape.object (sortEntries fields)) ?_
  induction members with
  | nil => rfl
  | cons m rest ih => simp only [Json.canonicalMembers, Shape.ofMembers, List.map_cons, ih, ofJson]

end Sample

/-- The merge of documents is the least shape above all of them. -/
theorem ofDocuments_eq (documents : List Json) :
    Shape.ofDocuments documents = (Sample.merged .nothing documents).shape := by
  have hfold : ∀ seen : Sample,
      (documents.map fun d => Shape.ofJson d.canonical).foldl Shape.merge seen.shape =
        (Sample.merged seen documents).shape := by
    induction documents with
    | nil => exact fun seen => rfl
    | cons d rest ih => exact fun seen => ih (seen ⊔ Sample.ofJson d)
  exact hfold .nothing

/-! ## Rearranged documents -/

/-- The two documents differ in the order of array items and in how often an item stands there. -/
inductive Rearranged : Json → Json → Prop
  | refl (j : Json) : Rearranged j j
  | symm {j k : Json} : Rearranged j k → Rearranged k j
  | trans {j k l : Json} : Rearranged j k → Rearranged k l → Rearranged j l
  | permuted {items items' : List Json} : items.Perm items' → Rearranged (.array items) (.array items')
  | repeated {item : Json} {items : List Json} : item ∈ items → Rearranged (.array items) (.array (item :: items))
  | item {j k : Json} (before after : List Json) : Rearranged j k →
      Rearranged (.array (before ++ j :: after)) (.array (before ++ k :: after))
  | member {j k : Json} (before after : List (String × Json)) (key : String) : Rearranged j k →
      Rearranged (.object (before ++ (key, j) :: after)) (.object (before ++ (key, k) :: after))

theorem mem_map_cons_of_mem {item : Json} {items : List Json} (h : item ∈ items) (s : Sample) :
    s ∈ items.map Sample.ofJson ↔ s ∈ (item :: items).map Sample.ofJson := by
  rw [List.map_cons, List.mem_cons]
  refine ⟨.inr, fun hs => hs.elim (fun he => ?_) id⟩
  rw [he]; exact List.mem_map_of_mem h

/-- A rearranged document is the same sample. -/
theorem Rearranged.sample_eq {j k : Json} (h : Rearranged j k) : Sample.ofJson j = Sample.ofJson k := by
  induction h with
  | refl j => rfl
  | symm _ ih => exact ih.symm
  | trans _ _ ih ih' => exact ih.trans ih'
  | permuted hp =>
    refine Sample.eq_of_shape ?_
    rw [Sample.shape_array, Sample.shape_array]
    have hmem : ∀ s, s ∈ _ ↔ s ∈ _ := fun s => (hp.map Sample.ofJson).mem_iff
    exact congrArg (fun s => Shape.array s.shape) (Sample.foldl_sup_congr hmem _)
  | repeated hi =>
    refine Sample.eq_of_shape ?_
    rw [Sample.shape_array, Sample.shape_array]
    exact congrArg (fun s => Shape.array s.shape) (Sample.foldl_sup_congr (mem_map_cons_of_mem hi) _)
  | item before after _ ih =>
    refine Sample.eq_of_shape ?_
    rw [Sample.shape_array, Sample.shape_array]
    simp only [Sample.merged, List.map_append, List.map_cons, ih]
  | member before after key _ ih =>
    refine Sample.eq_of_shape ?_
    rw [Sample.shape_object, Sample.shape_object]
    simp only [List.map_append, List.map_cons, ih]

/-- Rearranging turns no object into something else. -/
theorem Rearranged.object_iff {j k : Json} (h : Rearranged j k) :
    (∃ members, j = .object members) ↔ ∃ members, k = .object members := by
  induction h with
  | refl j => exact Iff.rfl
  | symm _ ih => exact ih.symm
  | trans _ _ ih ih' => exact ih.trans ih'
  | permuted _ => simp
  | repeated _ => simp
  | item _ _ _ _ => simp
  | member _ _ _ _ _ => simp

/-! ## Resampled lists -/

/-- The two lists give the same documents in another order, some of them more often, some rearranged. -/
inductive Resampled : List Json → List Json → Prop
  | refl (documents : List Json) : Resampled documents documents
  | symm {a b : List Json} : Resampled a b → Resampled b a
  | trans {a b c : List Json} : Resampled a b → Resampled b c → Resampled a c
  | permuted {a b : List Json} : a.Perm b → Resampled a b
  | repeated {d : Json} {documents : List Json} : d ∈ documents → Resampled documents (d :: documents)
  | document {d d' : Json} (before after : List Json) : Rearranged d d' →
      Resampled (before ++ d :: after) (before ++ d' :: after)

theorem Resampled.merged_eq {a b : List Json} (h : Resampled a b) (seen : Sample) :
    Sample.merged seen a = Sample.merged seen b := by
  induction h with
  | refl _ => rfl
  | symm _ ih => exact ih.symm
  | trans _ _ ih ih' => exact ih.trans ih'
  | permuted hp => exact Sample.foldl_sup_congr (fun s => (hp.map Sample.ofJson).mem_iff) _
  | repeated hd => exact Sample.foldl_sup_congr (mem_map_cons_of_mem hd) _
  | document before after hd => simp only [Sample.merged, List.map_append, List.map_cons, hd.sample_eq]

theorem Resampled.isEmpty_eq {a b : List Json} (h : Resampled a b) : a.isEmpty = b.isEmpty := by
  induction h with
  | refl _ => rfl
  | symm _ ih => exact ih.symm
  | trans _ _ ih ih' => exact ih.trans ih'
  | permuted hp => exact hp.isEmpty_eq
  | repeated hd => simp [List.ne_nil_of_mem hd]
  | document before _ _ => cases before <;> rfl

theorem Resampled.objects_iff {a b : List Json} (h : Resampled a b) :
    (∀ d ∈ a, ∃ members, d = .object members) ↔ ∀ d ∈ b, ∃ members, d = .object members := by
  induction h with
  | refl _ => exact Iff.rfl
  | symm _ ih => exact ih.symm
  | trans _ _ ih ih' => exact ih.trans ih'
  | permuted hp => simp only [hp.mem_iff]
  | repeated hd => rw [List.forall_mem_cons]; exact ⟨fun h => ⟨h _ hd, h⟩, And.right⟩
  | document before after hd =>
    simp only [List.forall_mem_append, List.forall_mem_cons, hd.object_iff]

/-- Object documents given in another order, more than once or with rearranged arrays lead to the
same schema, or to the same error. -/
theorem infer_resampled (root : String) {documents documents' : List Json}
    (hobj : ∀ d ∈ documents, ∃ members, d = .object members) (h : Resampled documents documents') :
    infer root documents = infer root documents' := by
  have hshape : Shape.ofDocuments documents = Shape.ofDocuments documents' := by
    rw [ofDocuments_eq, ofDocuments_eq, h.merged_eq]
  have hsame : mergeDocuments .unknown documents = mergeDocuments .unknown documents' := by
    rw [mergeDocuments_objects hobj, mergeDocuments_objects (h.objects_iff.mp hobj), hshape]
  unfold infer
  rw [h.isEmpty_eq, hsame]

/-! ## Two samples of posts -/

def rated (rating : Json) : Json := .object [("Rating", rating)]

def reviewed (reviews : List Json) : Json := .object [("Title", .string "p"), ("Reviews", .array reviews)]

/-- Ratings that are absent, whole and text in turn: a conflict of three, three levels down. -/
def reviewedPosts : List Json :=
  [reviewed [rated .null, rated (.int 3)], reviewed [], reviewed [rated (.string "good")]]

def reviewedAgain : List Json :=
  [reviewed [], reviewed [rated (.string "good")], reviewed [], reviewed [rated (.int 3), rated .null]]

theorem reviewed_resampled : Resampled reviewedPosts reviewedAgain := by
  have hswap : Rearranged (reviewed [rated .null, rated (.int 3)]) (reviewed [rated (.int 3), rated .null]) :=
    .member [("Title", .string "p")] [] "Reviews" (.permuted (.swap _ _ _))
  have hinside : Resampled reviewedPosts
      [reviewed [rated (.int 3), rated .null], reviewed [], reviewed [rated (.string "good")]] :=
    .document [] _ hswap
  have hagain : Resampled reviewedPosts
      (reviewed [] :: [reviewed [rated (.int 3), rated .null], reviewed [], reviewed [rated (.string "good")]]) :=
    hinside.trans (.repeated (by simp))
  refine hagain.trans (.permuted (.cons _ ?_))
  exact List.reverse_perm [reviewed [rated (.string "good")], reviewed [], reviewed [rated (.int 3), rated .null]]

theorem reviewed_inferred :
    (∀ d ∈ reviewedPosts, ∃ members, d = .object members) ∧ Resampled reviewedPosts reviewedAgain ∧
      infer "Post" reviewedPosts = infer "Post" reviewedAgain := by
  have hobj : ∀ d ∈ reviewedPosts, ∃ members, d = .object members := by
    simp [reviewedPosts, reviewed]
  exact ⟨hobj, reviewed_resampled, infer_resampled "Post" hobj reviewed_resampled⟩

end DocQuery.Schema
