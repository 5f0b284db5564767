/-
  DocQuery.Proofs.Schema.Entries — reading an object entry by entry.

  Reading an object is sorting its members (`entries?_eq`): it gives entries in order (`ordered_of_entries?`), and
  where they stand in order, entry by entry (`entries?_ordered`).
-/

import DocQuery.Proofs.Entries
import DocQuery.Schema.Text

namespace DocQuery.Schema

variable {α β : Type}

/-- The members of an object in the order written, their values read by `read`. -/
def members? (read : Json → Option α) : Json → Option (List (String × α))
  | .object members => members.mapM fun m => (read m.2).map fun v => (m.1, v)
  | _ => none

/-- An object is read member by member, then sorted. -/
theorem entries?_eq (read : Json → Option α) (j : Json) : entries? read j = (members? read j).map sortEntries := by
  cases j with
  | object members =>
    suffices hs : ∀ acc, members.foldlM (fun acc m => (read m.2).map fun v => insertSorted m.1 v acc) acc =
        (members.mapM fun m => (read m.2).map fun v => (m.1, v)).map
          (fun entries => entries.foldl (fun acc e => insertSorted e.1 e.2 acc) acc) from hs []
    induction members with
    | nil => exact fun acc => rfl
    | cons m rest ih =>
      intro acc
      rw [List.foldlM_cons, List.mapM_cons]
      cases read m.2 with
      | none => rfl
      | some v =>
        cases hrest : rest.mapM fun m => (read m.2).map fun v => (m.1, v) <;> simp [ih, hrest]
  | _ => rfl

theorem mem_members? {read : Json → Option α} {j : Json} {entries : List (String × α)}
    (h : members? read j = some entries) : ∀ e ∈ entries, ∃ value, read value = some e.2 := by
  cases j with
  | object members =>
    simp only [members?] at h
    induction members generalizing entries with
    | nil => cases h; exact List.forall_mem_nil _
    | cons m rest ih =>
      rw [List.mapM_cons] at h
      obtain ⟨e, he, h⟩ := Option.bind_eq_some_iff.mp h
      obtain ⟨more, hmore, h⟩ := Option.bind_eq_some_iff.mp h
      obtain ⟨v, hv, rfl⟩ := Option.map_eq_some_iff.mp he
      cases h
      exact List.forall_mem_cons.mpr ⟨⟨m.2, hv⟩, ih hmore⟩
  | _ => cases h

/-- What is done to the values can be done afterwards. -/
theorem members?_map (read : Json → Option α) (g : α → β) (j : Json) :
    members? (fun j => (read j).map g) j = (members? read j).map (List.map fun e => (e.1, g e.2)) := by
  cases j with
  | object members =>
    simp only [members?]
    induction members with
    | nil => rfl
    | cons m rest ih =>
      rw [List.mapM_cons, List.mapM_cons, ih]
      cases read m.2 with
      | none => rfl
      | some v =>
        cases hrest : rest.mapM fun m => (read m.2).map fun v => (m.1, v) <;> simp
  | _ => rfl

/-- What an object is read as stands in order, each entry as some member of the object was read. -/
theorem ordered_of_entries? {read : Json → Option α} {j : Json} {entries : List (String × α)}
    (h : entries? read j = some entries) : Ordered entries ∧ ∀ e ∈ entries, ∃ value, read value = some e.2 := by
  rw [entries?_eq] at h
  obtain ⟨members, hmembers, rfl⟩ := Option.map_eq_some_iff.mp h
  exact ⟨sortEntries_ordered members, fun e he => mem_members? hmembers e (mem_sortEntries he)⟩

theorem members?_written {read : Json → Option β} {entries : List (String × α)} (write : α → Json) (told : α → β)
    (h : ∀ e ∈ entries, read (write e.2) = some (told e.2)) :
    members? read (.object (entries.map fun e => (e.1, write e.2))) = some (entries.map fun e => (e.1, told e.2)) := by
  simp only [members?]
  induction entries with
  | nil => rfl
  | cons e rest ih =>
    obtain ⟨he, hrest⟩ := List.forall_mem_cons.mp h
    simp only [List.map_cons, List.mapM_cons, he, ih hrest]
    rfl

/-- An object whose keys are in order is read entry by entry. -/
theorem entries?_ordered {read : Json → Option β} {entries : List (String × α)} (ho : Ordered entries)
    (write : α → Json) (told : α → β) (h : ∀ e ∈ entries, read (write e.2) = some (told e.2)) :
    entries? read (.object (entries.map fun e => (e.1, write e.2))) = some (entries.map fun e => (e.1, told e.2)) := by
  rw [entries?_eq, members?_written write told h, Option.map_some, sortEntries_map, sortEntries_of_ordered ho]

end DocQuery.Schema
