/-
  DocQuery.Proofs.Schema.Naming — names given to nested object types.

  A reserved name is new ignoring case (`freeName_free`): the candidates for a base are distinct
  (`candidate_injective`), and there is one more of them than there are names taken, so one of
  them is free (`exists_candidate_free`).
-/

import Mathlib.Data.List.Nodup
import Mathlib.Data.List.Perm.Subperm
import DocQuery.Proofs.Text.Fold
import DocQuery.Schema.Infer

namespace DocQuery

namespace Schema

/-- No name stands twice, ignoring case. -/
def Distinct (names : List String) : Prop := (names.map Text.lower).Nodup

theorem Distinct.nodup {names : List String} (h : Distinct names) : names.Nodup := List.Nodup.of_map _ h

theorem Distinct.perm {a b : List String} (h : Distinct a) (hp : a.Perm b) : Distinct b :=
  (hp.map Text.lower).nodup_iff.mp h

namespace Layout

theorem lower_candidate (base : String) (n : Nat) :
    Text.lower (candidate base n) = candidate (Text.lower base) n := by
  unfold candidate
  split
  · rfl
  · rw [Text.lower_append]; exact congrArg _ (Text.lower_repr (n + 1))

theorem candidate_injective {base : String} {m n : Nat} (h : candidate base m = candidate base n) : m = n := by
  -- A suffix is never empty, so the bare base differs from every other candidate.
  have hbare : ∀ k : Nat, base ≠ base ++ k.repr := by
    intro k he
    have hlen := congrArg String.length he
    have hpos := Nat.length_repr_pos (n := k)
    rw [String.length_append] at hlen
    omega
  cases m with
  | zero =>
    cases n with
    | zero => rfl
    | succ n => exact absurd h (hbare _)
  | succ m =>
    cases n with
    | zero => exact absurd h.symm (hbare _)
    | succ n =>
      have hrepr : (m + 1 + 1).repr = (n + 1 + 1).repr := (String.append_right_inj base).mp h
      have hdigits : Nat.toDigits 10 (m + 1 + 1) = Nat.toDigits 10 (n + 1 + 1) := by
        rw [← Nat.toList_repr, ← Nat.toList_repr, hrepr]
      have hvalue := congrArg (fun ds => Nat.ofDigitChars 10 ds 0) hdigits
      simp only [Nat.ofDigitChars_toDigits (b := 10) (by omega) (by omega)] at hvalue
      omega

/-- Of one candidate more than there are names, one is free. -/
theorem exists_candidate_free (l : Layout) (base : String) :
    ∃ n < l.taken.length + 1, l.isTaken (candidate base n) = false := by
  by_contra hall
  simp only [not_exists, not_and, Bool.not_eq_false] at hall
  let lowered := (List.range (l.taken.length + 1)).map fun n => Text.lower (candidate base n)
  have hnodup : lowered.Nodup := by
    refine List.Nodup.map (fun m n h => ?_) List.nodup_range
    simp only [lower_candidate] at h
    exact candidate_injective h
  have hsubset : lowered ⊆ l.taken.map Text.lower := by
    intro name hname
    obtain ⟨n, hn, rfl⟩ := List.mem_map.mp hname
    exact Text.any_sameIgnoringCase.mp (hall n (List.mem_range.mp hn))
  have hlen := hnodup.length_le_of_subset hsubset
  simp only [lowered, List.length_map, List.length_range] at hlen
  omega

theorem freeName_free (l : Layout) (base : String) : l.isTaken (l.freeName base) = false := by
  obtain ⟨n, hn, hfree⟩ := l.exists_candidate_free base
  unfold freeName
  cases hf : ((List.range (l.taken.length + 1)).map (candidate base)).find? fun name => !l.isTaken name with
  | none =>
    have htaken := List.find?_eq_none.mp hf _ (List.mem_map_of_mem (List.mem_range.mpr hn))
    simp [hfree] at htaken
  | some name => simpa using List.find?_some hf

theorem freeName_distinct {l : Layout} (h : Distinct l.taken) (base : String) :
    Distinct (l.freeName base :: l.taken) := by
  refine List.nodup_cons.mpr ⟨fun hm => ?_, h⟩
  have htaken : l.isTaken (l.freeName base) = true := Text.any_sameIgnoringCase.mpr hm
  rw [freeName_free] at htaken
  cases htaken

end Layout

end Schema

end DocQuery
