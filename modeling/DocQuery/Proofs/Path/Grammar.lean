/-
  DocQuery.Proofs.Path.Grammar — segments as they are written.

  A written segment is a name with blanks before and behind it, then possibly an indexer, and blanks again. A text is
  read as a name exactly if it is a segment of that name (`segmentName?_exactly`). A text is one segment
  only, up to one thing: where there is no indexer, the blanks behind the name can be divided anywhere
  (`Segment.unambiguous`).
-/

import DocQuery.Proofs.Path.Exact
import DocQuery.Proofs.Text.Indexer

namespace DocQuery.Path

open Text (Indexer isDecimalDigit)

structure Segment where
  front : List Char
  first : Char
  more : List Char
  gap : List Char
  indexer : Option (Indexer isDecimalDigit)
  back : List Char
  front_blank : Blanks front
  first_start : Name.isStart first = true
  more_part : ∀ c ∈ more, Name.isPart c = true
  gap_blank : Blanks gap
  back_blank : Blanks back

namespace Segment

def name (s : Segment) : String := String.ofList (s.first :: s.more)

/-- What stands behind the name. -/
def tail (s : Segment) : List Char := s.gap ++ (s.indexer.elim [] Indexer.chars ++ s.back)

def chars (s : Segment) : List Char := s.front ++ (s.first :: s.more ++ s.tail)

/-! ## Reading -/

theorem ends_tail (s : Segment) : Ends s.tail := by
  unfold tail
  cases s.indexer with
  | none => exact .bare (List.forall_mem_append.mpr ⟨s.gap_blank, s.back_blank⟩)
  | some i =>
    have h := Ends.indexed s.gap_blank i.front_blank i.digits_ne_nil i.digits_digit i.back_blank s.back_blank
    simpa [Indexer.chars, Indexer.inner] using h

theorem spells (s : Segment) : Spells s.chars s.name := by
  refine ⟨Name.identifier_iff.mpr ⟨s.first, s.more, ?_, s.first_start, s.more_part⟩, s.front, s.tail, s.front_blank,
    s.ends_tail, ?_⟩
  · exact String.toList_ofList
  · rw [name, String.toList_ofList]
    rfl

/-- Every spelling of a name is a segment of that name. -/
theorem exists_of_spells {text : List Char} {name : String} (h : Spells text name) :
    ∃ s : Segment, s.chars = text ∧ s.name = name := by
  obtain ⟨hname, front, rest, hfront, hends, rfl⟩ := h
  obtain ⟨first, more, hchars, hstart, hpart⟩ := Name.identifier_iff.mp hname
  have hwritten : String.ofList (first :: more) = name := by rw [← hchars, String.ofList_toList]
  cases hends with
  | bare hrest =>
    refine ⟨⟨front, first, more, rest, none, [], hfront, hstart, hpart, hrest, List.forall_mem_nil _⟩, ?_, hwritten⟩
    simp [chars, tail, hchars]
  | @indexed gap before digits after back hgap hbefore hne hdigits hafter hback =>
    refine ⟨⟨front, first, more, gap, some ⟨before, digits, after, hbefore, hne, hdigits, hafter⟩, back, hfront, hstart,
      hpart, hgap, hback⟩, ?_, hwritten⟩
    simp [chars, tail, hchars, Indexer.chars, Indexer.inner]

/-! ## One text, one segment -/

theorem bracket_not_mem {blanks : List Char} (h : Blanks blanks) : '[' ∉ blanks := by
  intro hm
  have hblank := h '[' hm
  revert hblank
  decide

/-- Without an indexer all that stands behind the name is blank, and an indexer is found by its brackets. -/
theorem tail_unambiguous {s t : Segment} (h : s.tail = t.tail) :
    s.indexer = t.indexer ∧ s.gap ++ s.back = t.gap ++ t.back := by
  have hbare : ∀ {u v : Segment} {i : Indexer isDecimalDigit}, u.indexer = some i → v.indexer = none → u.tail ≠ v.tail := by
    intro u v i hu hv huv
    have hm : '[' ∈ u.tail := by simp [tail, hu, Indexer.chars]
    rw [huv, tail, hv] at hm
    exact bracket_not_mem (List.forall_mem_append.mpr ⟨v.gap_blank, v.back_blank⟩) hm
  cases hs : s.indexer with
  | none =>
    cases ht : t.indexer with
    | none => exact ⟨rfl, by simpa [tail, hs, ht] using h⟩
    | some j => exact absurd h.symm (hbare ht hs)
  | some i =>
    cases ht : t.indexer with
    | none => exact absurd h (hbare hs ht)
    | some j =>
      have hopen : s.gap ++ '[' :: (i.inner ++ ']' :: s.back) = t.gap ++ '[' :: (j.inner ++ ']' :: t.back) := by
        simpa [tail, hs, ht, Indexer.chars] using h
      obtain ⟨hgap, hinside⟩ := Text.cut (bracket_not_mem s.gap_blank) (bracket_not_mem t.gap_blank) hopen
      have hclose : isDecimalDigit ']' = false := by decide
      obtain ⟨hinner, hback⟩ := Text.cut (i.close_not_mem_inner hclose) (j.close_not_mem_inner hclose) hinside
      rw [i.eq_of_inner_eq (fun _ => not_blank_of_isDecimalDigit) hinner, hgap, hback]
      exact ⟨rfl, rfl⟩

theorem unambiguous {s t : Segment} (h : s.chars = t.chars) :
    s.front = t.front ∧ s.name = t.name ∧ s.indexer = t.indexer ∧ s.gap ++ s.back = t.gap ++ t.back := by
  have hfront : ∀ u : Segment, u.chars.takeWhile Text.isBlank = u.front ∧
      u.chars.dropWhile Text.isBlank = u.first :: u.more ++ u.tail := by
    intro u
    have hfirst : ∀ c, (u.first :: u.more ++ u.tail).head? = some c → Text.isBlank c = false := by
      intro c hc
      cases hc
      exact Name.not_blank_of_isPart (Name.isPart_of_isStart u.first_start)
    exact ⟨Text.takeWhile_run u.front_blank hfirst, Text.dropWhile_run u.front_blank hfirst⟩
  have hname : ∀ u : Segment, (u.first :: u.more ++ u.tail).takeWhile Name.isPart = u.first :: u.more ∧
      (u.first :: u.more ++ u.tail).dropWhile Name.isPart = u.tail := by
    intro u
    have hpart : ∀ c ∈ u.first :: u.more, Name.isPart c = true :=
      List.forall_mem_cons.mpr ⟨Name.isPart_of_isStart u.first_start, u.more_part⟩
    exact ⟨Text.takeWhile_run hpart u.ends_tail.head, Text.dropWhile_run hpart u.ends_tail.head⟩
  have hrest : s.first :: s.more ++ s.tail = t.first :: t.more ++ t.tail := by rw [← (hfront s).2, ← (hfront t).2, h]
  have htail : s.tail = t.tail := by rw [← (hname s).2, ← (hname t).2, hrest]
  refine ⟨by rw [← (hfront s).1, ← (hfront t).1, h], ?_, tail_unambiguous htail⟩
  rw [name, name, ← (hname s).1, ← (hname t).1, hrest]

end Segment

/-- A text is read as a name exactly if it is a segment of that name. It is one segment with one name and one
indexer, or none; only the blanks behind a name without an indexer may be divided in more than one way. -/
theorem segmentName?_exactly (text : List Char) :
    (∀ name, segmentName? text = some name ↔ ∃ s : Segment, s.chars = text ∧ s.name = name) ∧
    ∀ s t : Segment, s.chars = text → t.chars = text →
      s.front = t.front ∧ s.name = t.name ∧ s.indexer = t.indexer ∧ s.gap ++ s.back = t.gap ++ t.back := by
  refine ⟨fun name => ?_, fun s t hs ht => Segment.unambiguous (hs.trans ht.symm)⟩
  rw [segmentName?_eq_some_iff]
  constructor
  · exact Segment.exists_of_spells
  · rintro ⟨s, rfl, rfl⟩
    exact s.spells

instance (s : List Char) : Decidable (Blanks s) := List.decidableBAll _ s

/-- There is no indexer, and so the blanks behind the name belong to either part. -/
def title (gap back : List Char) (hgap : Blanks gap) (hback : Blanks back) : Segment :=
  ⟨['\t'], 'T', ['i', 't', 'l', 'e', '_', '2'], gap, none, back, List.all_eq_true.mp rfl, rfl, List.all_eq_true.mp rfl,
    hgap, hback⟩

/-- Arabic and Devanagari digits in the indexer, and blanks beyond ASCII. -/
def replies : Segment where
  front := ['\u00a0']
  first := '_'
  more := ['r', '7']
  gap := [' ']
  indexer := some ⟨['\u2003'], ['\u0663', '\u096a'], ['\n'], List.all_eq_true.mp rfl, List.cons_ne_nil _ _,
    List.all_eq_true.mp rfl, List.all_eq_true.mp rfl⟩
  back := ['\u3000']
  front_blank := List.all_eq_true.mp rfl
  first_start := rfl
  more_part := List.all_eq_true.mp rfl
  gap_blank := List.all_eq_true.mp rfl
  back_blank := List.all_eq_true.mp rfl

theorem title_and_replies_read :
    segmentName? "\u00a0_r7 [\u2003\u0663\u096a\n]\u3000".toList = some "_r7" ∧
      (title [] [' ', ' '] (by decide) (by decide)).chars = "\tTitle_2  ".toList ∧
      (title [' '] [' '] (by decide) (by decide)).chars = "\tTitle_2  ".toList ∧
      (title [] [' ', ' '] (by decide) (by decide)).name = (title [' '] [' '] (by decide) (by decide)).name := by
  refine ⟨((segmentName?_exactly _).1 _).mpr ⟨replies, by decide, by decide⟩, by decide, by decide, ?_⟩
  exact ((segmentName?_exactly "\tTitle_2  ".toList).2 (title [] [' ', ' '] (by decide) (by decide))
    (title [' '] [' '] (by decide) (by decide)) (by decide) (by decide)).2.1

end DocQuery.Path
