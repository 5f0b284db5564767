/-
  DocQuery.Proofs.Json.Reading — what holds of everything that is read.

  A reader puts values together from plain values and from numbers, by arrays and by objects. So what holds of
  these and is kept in putting together holds of every value that is read (`Closed`, `readWith?_gives`), however
  the text is written.
-/

import DocQuery.Json.Reader

namespace DocQuery.Json

/-- What holds of plain values and of the numbers that are read, and of what has only such values in it. -/
structure Closed (number : NumberText → Option Json) (p : Json → Prop) : Prop where
  null : p .null
  bool : ∀ b, p (.bool b)
  string : ∀ s, p (.string s)
  number : ∀ t j, number t = some j → p j
  array : ∀ items, (∀ j ∈ items, p j) → p (.array items)
  object : ∀ members, (∀ m ∈ members, p m.2) → p (.object members)

/-- What the reader reads has the property. -/
def Gives {α : Type} (reader : Reader α) (p : α → Prop) : Prop := ∀ s a rest, reader s = some (a, rest) → p a

/-- What holds of a first part and of all further ones holds of all. How many of these are read can hang on the text
that is left. -/
theorem Gives.cons {α : Type} {first : Reader α} {more : List Char → Reader (List α)} {p : α → Prop}
    (hfirst : Gives first p) (hmore : ∀ r, Gives (more r) fun l => ∀ a ∈ l, p a) {s rest : List Char} {l : List α}
    (hread : (do
      let (a, r) ← first s
      let (l, r) ← more r r
      return (a :: l, r)) = some (l, rest)) : ∀ a ∈ l, p a := by
  obtain ⟨⟨a, r⟩, ha, hread⟩ := Option.bind_eq_some_iff.mp hread
  obtain ⟨⟨l', r'⟩, hl, hread⟩ := Option.bind_eq_some_iff.mp hread
  cases hread
  exact List.forall_mem_cons.mpr ⟨hfirst _ _ _ ha, hmore _ _ _ _ hl⟩

section

variable {item : Reader Json} {p : Json → Prop} (h : Gives item p)

include h

theorem moreItems_gives (fuel : Nat) : Gives (moreItems item fuel) fun l => ∀ j ∈ l, p j := by
  induction fuel with
  | zero => exact fun _ _ _ h => nomatch h
  | succ fuel ih =>
    intro s l rest hread
    unfold moreItems at hread
    split at hread
    · cases hread
      exact fun _ hj => nomatch hj
    · exact h.cons (fun _ => ih) hread
    · cases hread

theorem items_gives : Gives (items item) fun l => ∀ j ∈ l, p j := by
  intro s l rest hread
  unfold items at hread
  split at hread
  · cases hread
    exact fun _ hj => nomatch hj
  · exact h.cons (fun r => moreItems_gives h (r.length + 1)) hread

end

section

variable {string : Reader (List Char)} {itemOf : String → Reader Json} {p : Json → Prop} (h : ∀ key, Gives (itemOf key) p)

include h

theorem member_gives : Gives (member string itemOf) fun m => p m.2 := by
  intro s m rest hread
  unfold member at hread
  split at hread
  · obtain ⟨⟨key, r⟩, -, hread⟩ := Option.bind_eq_some_iff.mp hread
    dsimp only at hread
    split at hread
    · obtain ⟨⟨j, r'⟩, hj, hread⟩ := Option.bind_eq_some_iff.mp hread
      cases hread
      exact h _ _ _ _ hj
    · cases hread
  · cases hread

theorem moreMembers_gives (fuel : Nat) : Gives (moreMembers string itemOf fuel) fun l => ∀ m ∈ l, p m.2 := by
  induction fuel with
  | zero => exact fun _ _ _ h => nomatch h
  | succ fuel ih =>
    intro s l rest hread
    unfold moreMembers at hread
    split at hread
    · cases hread
      exact fun _ hm => nomatch hm
    · exact (member_gives h).cons (fun _ => ih) hread
    · cases hread

theorem members_gives : Gives (members string itemOf) fun l => ∀ m ∈ l, p m.2 := by
  intro s l rest hread
  unfold members at hread
  split at hread
  · cases hread
    exact fun _ hm => nomatch hm
  · exact (member_gives h).cons (fun r => moreMembers_gives h (r.length + 1)) hread

end

section

variable {string : Reader (List Char)} {number : NumberText → Option Json} {p : Json → Prop} (h : Closed number p)

include h

theorem plainValue_gives : Gives (plainValue string number) p := by
  intro s j rest hread
  unfold plainValue at hread
  split at hread
  · cases hread
    exact h.null
  · cases hread
    exact h.bool true
  · cases hread
    exact h.bool false
  · obtain ⟨⟨t, r⟩, -, hread⟩ := Option.map_eq_some_iff.mp hread
    cases hread
    exact h.string _
  · obtain ⟨⟨t, r⟩, -, hread⟩ := Option.bind_eq_some_iff.mp hread
    obtain ⟨k, hk, hread⟩ := Option.bind_eq_some_iff.mp hread
    cases hread
    exact h.number t _ hk

theorem value_gives (depth : Nat) : Gives (value string number depth) p := by
  induction depth with
  | zero =>
    intro s j rest hread
    unfold value at hread
    split at hread
    · cases hread
    · cases hread
    · exact plainValue_gives h _ _ _ hread
  | succ depth ih =>
    intro s j rest hread
    unfold value at hread
    split at hread
    · obtain ⟨⟨l, r⟩, hl, hread⟩ := Option.map_eq_some_iff.mp hread
      cases hread
      exact h.array l (items_gives ih _ _ _ hl)
    · obtain ⟨⟨l, r⟩, hl, hread⟩ := Option.map_eq_some_iff.mp hread
      cases hread
      exact h.object l (members_gives (fun _ => ih) _ _ _ hl)
    · exact plainValue_gives h _ _ _ hread

end

/-- What is read of a text has every property that its reading's numbers have and arrays and objects keep. -/
theorem readWith?_gives {reading : Reading} {p : Json → Prop} (h : Closed reading.number p) {text : String} {j : Json}
    (hread : readWith? reading text = some j) : p j := by
  unfold readWith? whole? at hread
  split at hread
  · rename_i hvalue
    split at hread
    · cases hread
      exact value_gives h _ _ _ _ hvalue
    · cases hread
  · cases hread

end DocQuery.Json
