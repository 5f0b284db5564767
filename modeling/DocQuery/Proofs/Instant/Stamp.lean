/-
  DocQuery.Proofs.Instant.Stamp — the texts that are read as instants.

  Such a text is a date, a gap, a time of day with or without a fraction, and a zone (`Stamp`), and the instant
  is worked out of these parts (`stamp_of_read`). Nothing else is read.
-/

import DocQuery.Instant.Text
import DocQuery.Proofs.Decimal.Digits
import DocQuery.Proofs.Text.Cut

namespace DocQuery.Instant

open Decimal

/-- A row of `n` digits. -/
structure Figures (n : Nat) where
  chars : List Char
  length : chars.length = n
  digits : ∀ c ∈ chars, c.isDigit = true

namespace Figures

variable {n : Nat}

def value (f : Figures n) : Nat := ofDigits f.chars

theorem opening (f : Figures (n + 1)) : ∃ c r, f.chars = c :: r ∧ c.isDigit = true := by
  cases hchars : f.chars with
  | nil =>
    have hlength := f.length
    rw [hchars] at hlength
    cases hlength
  | cons c r => exact ⟨c, r, rfl, f.digits c (hchars ▸ List.mem_cons_self ..)⟩

theorem ne_nil (f : Figures (n + 1)) : f.chars ≠ [] := by
  obtain ⟨c, r, hchars, -⟩ := f.opening
  rw [hchars]
  exact List.cons_ne_nil c r

end Figures

theorem digits?_figures {n : Nat} (f : Figures n) (r : List Char) : digits? n (f.chars ++ r) = some (f.value, r) := by
  have htake : (f.chars ++ r).take n = f.chars := List.take_left' f.length
  have hdrop : (f.chars ++ r).drop n = r := List.drop_left' f.length
  have hall : f.chars.all Char.isDigit = true := List.all_eq_true.mpr f.digits
  simp [digits?, htake, hdrop, hall, f.length, Figures.value]

theorem digits?_eq_some {n v : Nat} {s r : List Char} (h : digits? n s = some (v, r)) :
    ∃ f : Figures n, s = f.chars ++ r ∧ f.value = v := by
  unfold digits? at h
  simp only [Option.ite_none_right_eq_some, Bool.and_eq_true, beq_iff_eq, List.all_eq_true, Option.some.injEq,
    Prod.mk.injEq] at h
  obtain ⟨⟨hlength, hdigits⟩, hvalue, hrest⟩ := h
  exact ⟨⟨s.take n, hlength, hdigits⟩, by rw [← hrest, List.take_append_drop], hvalue⟩

theorem char?_eq_some {c : Char} {s r : List Char} (h : char? c s = some r) : s = c :: r := by
  cases s with
  | nil => cases h
  | cons d s =>
    simp only [char?, Option.ite_none_right_eq_some, beq_iff_eq, Option.some.injEq] at h
    rw [h.1, h.2]

/-- Which time of day a clock shows: that of UTC, or one ahead of it or behind. -/
inductive Zone where
  | utc (letter : Char) (h : letter = 'Z' ∨ letter = 'z')
  | shifted (sign : Char) (h : sign = '+' ∨ isMinus sign = true) (hours minutes : Figures 2) (hhours : hours.value ≤ 23)
      (hminutes : minutes.value ≤ 59)

namespace Zone

def chars : Zone → List Char
  | utc letter _ => [letter]
  | shifted sign _ hours minutes _ _ => sign :: hours.chars ++ ':' :: minutes.chars

/-- Minutes ahead of UTC. -/
def offset : Zone → Int
  | utc _ _ => 0
  | shifted sign _ hours minutes _ _ => applySign (isMinus sign) (60 * hours.value + minutes.value)

end Zone

/-- What follows the sign of a zone. -/
theorem shift_parts {r : List Char} {negative : Bool} {offset : Int}
    (h : ((digits? 2 r).bind fun x => (char? ':' x.2).bind fun r => (digits? 2 r).bind fun y =>
      if (x.1 ≤ 23 && y.1 ≤ 59 && y.2.isEmpty) = true then some (applySign negative (60 * x.1 + y.1)) else none) =
        some offset) :
    ∃ hours minutes : Figures 2, r = hours.chars ++ ':' :: minutes.chars ∧ hours.value ≤ 23 ∧ minutes.value ≤ 59 ∧
      applySign negative (60 * hours.value + minutes.value) = offset := by
  simp only [Option.bind_eq_some_iff, Prod.exists, Option.ite_none_right_eq_some, Bool.and_eq_true, decide_eq_true_eq,
    List.isEmpty_iff, Option.some.injEq] at h
  obtain ⟨_, r₁, hhours, r₂, hcolon, _, r₃, hminutes, ⟨⟨hle, hle'⟩, hempty⟩, hoffset⟩ := h
  obtain ⟨hours, rfl, rfl⟩ := digits?_eq_some hhours
  obtain ⟨minutes, rfl, rfl⟩ := digits?_eq_some hminutes
  refine ⟨hours, minutes, ?_, hle, hle', hoffset⟩
  rw [char?_eq_some hcolon, hempty, List.append_nil]

theorem zone_of_offset? {s : List Char} {offset : Int} (h : offset? s = some offset) :
    ∃ z : Zone, s = z.chars ∧ z.offset = offset := by
  unfold offset? at h
  split at h
  · cases h
    exact ⟨.utc 'Z' (.inl rfl), rfl, rfl⟩
  · cases h
    exact ⟨.utc 'z' (.inr rfl), rfl, rfl⟩
  · rename_i c r _ _
    by_cases hplus : c = '+'
    · subst hplus
      obtain ⟨hours, minutes, rfl, hle, hle', hoffset⟩ := shift_parts h
      exact ⟨.shifted '+' (.inl rfl) hours minutes hle hle', rfl, hoffset⟩
    · have hne : (c == '+') = false := beq_eq_false_iff_ne.mpr hplus
      cases hminus : isMinus c with
      | true =>
        simp only [hne, hminus, Bool.false_eq_true, if_false, if_true] at h
        obtain ⟨hours, minutes, rfl, hle, hle', hoffset⟩ := shift_parts h
        refine ⟨.shifted c (.inr hminus) hours minutes hle hle', rfl, ?_⟩
        rw [Zone.offset, hminus, hoffset]
      | false =>
        simp only [hne, hminus, Bool.false_eq_true, if_false] at h
        cases h
  · cases h

/-- Nine digits of a fraction, with the ones that are missing as zeros. -/
def nanosOf (ds : List Char) : Nat := ofDigits (ds.take 9) * 10 ^ (9 - (ds.take 9).length)

theorem nanos_lt {ds : List Char} (h : ∀ c ∈ ds, c.isDigit = true) : nanosOf ds < 1000000000 := by
  have hlength : (ds.take 9).length ≤ 9 := List.length_take_le 9 ds
  have hdigits : ofDigits (ds.take 9) < 10 ^ (ds.take 9).length := ofDigits_lt fun c hc => h c (List.mem_of_mem_take hc)
  calc nanosOf ds < 10 ^ (ds.take 9).length * 10 ^ (9 - (ds.take 9).length) :=
        Nat.mul_lt_mul_of_pos_right hdigits (Nat.pow_pos (by omega))
    _ = 1000000000 := by rw [← Nat.pow_add, Nat.add_sub_cancel' hlength]

/-- The digits behind the point, with the point. -/
def pointed (ds : List Char) : List Char := if ds = [] then [] else '.' :: ds

theorem fraction_of_read {s r : List Char} {n : Nat} (h : fraction? s = some (n, r)) :
    ∃ ds : List Char, (∀ c ∈ ds, c.isDigit = true) ∧ n = nanosOf ds ∧ s = pointed ds ++ r := by
  unfold fraction? at h
  split at h
  · rename_i tail
    simp only [Option.ite_none_left_eq_some, List.isEmpty_iff, Option.some.injEq, Prod.mk.injEq, Nat.pow_eq] at h
    obtain ⟨hne, hn, hr⟩ := h
    refine ⟨tail.takeWhile Char.isDigit, List.all_eq_true.mp List.all_takeWhile, hn.symm, ?_⟩
    rw [pointed, if_neg hne, ← hr, List.cons_append, List.takeWhile_append_dropWhile]
  · cases h
    exact ⟨[], by simp, rfl, rfl⟩

theorem gap_of_read {s r : List Char} (h : dateTimeGap? s = some r) :
    ∃ c, (c = 'T' ∨ c = 't' ∨ c = ' ') ∧ s = c :: r := by
  unfold dateTimeGap? at h
  split at h
  · cases h
    exact ⟨'T', .inl rfl, rfl⟩
  · cases h
    exact ⟨'t', .inr (.inl rfl), rfl⟩
  · cases h
    exact ⟨' ', .inr (.inr rfl), rfl⟩
  · cases h

theorem daysIn_bounds (year : Int) (month : Nat) : 28 ≤ Date.daysIn year month ∧ Date.daysIn year month ≤ 31 := by
  unfold Date.daysIn
  split
  · split <;> omega
  · omega
  · omega
  · omega
  · omega
  · omega

theorem date_of_read {s r : List Char} {d : Date} (h : date? s = some (d, r)) :
    ∃ (year : Figures 4) (month day : Figures 2), s = year.chars ++ '-' :: (month.chars ++ '-' :: (day.chars ++ r)) ∧
      d = ⟨year.value, month.value, day.value⟩ ∧ d.valid = true := by
  simp only [date?, Option.bind_eq_bind, Option.bind_eq_some_iff, Prod.exists, Option.ite_none_right_eq_some,
    Option.some.injEq, Prod.mk.injEq] at h
  obtain ⟨_, _, hyear, _, hdash, _, _, hmonth, _, hdash', _, _, hday, hvalid, hd, hr⟩ := h
  obtain ⟨year, rfl, rfl⟩ := digits?_eq_some hyear
  obtain ⟨month, rfl, rfl⟩ := digits?_eq_some hmonth
  obtain ⟨day, rfl, rfl⟩ := digits?_eq_some hday
  refine ⟨year, month, day, ?_, hd.symm, hd ▸ hvalid⟩
  rw [char?_eq_some hdash, char?_eq_some hdash', hr]

/-- The parts of a text that is read as an instant. -/
structure Stamp where
  year : Figures 4
  month : Figures 2
  day : Figures 2
  gap : Char
  hour : Figures 2
  minute : Figures 2
  second : Figures 2
  fraction : List Char
  zone : Zone
  valid : Date.valid ⟨year.value, month.value, day.value⟩ = true
  gap_cases : gap = 'T' ∨ gap = 't' ∨ gap = ' '
  hour_le : hour.value ≤ 23
  minute_le : minute.value ≤ 59
  second_le : second.value ≤ 60
  digits : ∀ c ∈ fraction, c.isDigit = true

namespace Stamp

variable (s : Stamp)

def date : Date := ⟨s.year.value, s.month.value, s.day.value⟩

/-- The time of day and the zone. -/
def clock : List Char :=
  s.hour.chars ++ ':' :: (s.minute.chars ++ ':' :: (s.second.chars ++ (pointed s.fraction ++ s.zone.chars)))

def chars : List Char := s.year.chars ++ '-' :: (s.month.chars ++ '-' :: (s.day.chars ++ s.gap :: s.clock))

def text : String := String.ofList s.chars

def nanos : Nat := nanosOf s.fraction

/-- The instant: the second 60 is kept as a billion more nanoseconds of the second 59. -/
def instant : Instant :=
  if s.second.value = 60 then ofLocal s.date s.hour.value s.minute.value 59 (s.nanos + 1000000000) s.zone.offset
  else ofLocal s.date s.hour.value s.minute.value s.second.value s.nanos s.zone.offset

end Stamp

/-- Every text that is read is a stamp. -/
theorem stamp_of_read {t : String} {i : Instant} (h : read? t = some i) : ∃ s : Stamp, s.text = t ∧ s.instant = i := by
  simp only [read?, Option.bind_eq_bind, Option.bind_eq_some_iff, Prod.exists] at h
  obtain ⟨date, _, hdate, _, hgap, _, _, hhour, _, hcolon, _, _, hminute, _, hcolon', _, _, hsecond, nanos, _,
    hfraction, offset, hoffset, hread⟩ := h
  simp only [Option.ite_none_right_eq_some, Bool.and_eq_true, decide_eq_true_eq] at hread
  obtain ⟨⟨⟨hhour', hminute'⟩, hsecond'⟩, hinstant⟩ := hread
  obtain ⟨year, month, day, htext, rfl, hvalid⟩ := date_of_read hdate
  obtain ⟨gap, hcases, rfl⟩ := gap_of_read hgap
  obtain ⟨hour, rfl, rfl⟩ := digits?_eq_some hhour
  obtain rfl := char?_eq_some hcolon
  obtain rfl := char?_eq_some hcolon'
  obtain ⟨minute, rfl, rfl⟩ := digits?_eq_some hminute
  obtain ⟨second, rfl, rfl⟩ := digits?_eq_some hsecond
  obtain ⟨fraction, hdigits, rfl, rfl⟩ := fraction_of_read hfraction
  obtain ⟨zone, rfl, rfl⟩ := zone_of_offset? hoffset
  refine ⟨⟨year, month, day, gap, hour, minute, second, fraction, zone, hvalid, hcases, hhour', hminute', hsecond',
    hdigits⟩, ?_, ?_⟩
  · rw [← t.ofList_toList, htext]
    rfl
  · by_cases hleap : second.value = 60
    · rw [Stamp.instant, if_pos hleap]
      rw [if_pos (beq_iff_eq.mpr hleap)] at hinstant
      exact Option.some.inj hinstant
    · rw [Stamp.instant, if_neg hleap]
      rw [if_neg (mt beq_iff_eq.mp hleap)] at hinstant
      exact Option.some.inj hinstant

/-! ## Reading a stamp -/

theorem char?_cons (c : Char) (r : List Char) : char? c (c :: r) = some r := by simp [char?]

theorem minus_cases {c : Char} (h : isMinus c = true) : c = '-' ∨ c = Char.ofNat 0x2212 := by
  simpa [isMinus] using h

/-- A zone opens with a letter or a sign. -/
theorem Zone.opening (z : Zone) : ∃ c r, z.chars = c :: r ∧ c.isDigit = false ∧ c ≠ '.' := by
  cases z with
  | utc letter h =>
    refine ⟨letter, [], rfl, ?_⟩
    rcases h with rfl | rfl <;> decide
  | shifted sign h hours minutes =>
    refine ⟨sign, hours.chars ++ ':' :: minutes.chars, rfl, ?_⟩
    rcases h with rfl | h
    · decide
    · rcases minus_cases h with rfl | rfl <;> decide

theorem fraction?_pointed {ds : List Char} (h : ∀ c ∈ ds, c.isDigit = true) (z : Zone) :
    fraction? (pointed ds ++ z.chars) = some (nanosOf ds, z.chars) := by
  obtain ⟨c, r, hz, hdigit, hpoint⟩ := z.opening
  rw [hz]
  unfold pointed
  split
  · rename_i hempty
    subst hempty
    unfold fraction?
    split
    · rename_i heq
      exact absurd (List.cons.inj heq).1 hpoint
    · rfl
  · rename_i hne
    have hhead : ∀ d, (c :: r).head? = some d → d.isDigit = false := fun d hd => Option.some.inj hd ▸ hdigit
    simp only [fraction?, List.cons_append, Text.takeWhile_run h hhead, Text.dropWhile_run h hhead,
      List.isEmpty_iff, hne, if_false]
    rfl

theorem offset?_chars (z : Zone) : offset? z.chars = some z.offset := by
  cases z with
  | utc letter h => rcases h with rfl | rfl <;> rfl
  | shifted sign h hours minutes hhours hminutes =>
    have hparts : digits? 2 minutes.chars = some (minutes.value, []) := by
      simpa using digits?_figures minutes []
    show offset? (sign :: (hours.chars ++ ':' :: minutes.chars)) = some (applySign _ _)
    unfold offset?
    split
    · rename_i heq
      exact absurd (List.append_eq_nil_iff.mp (List.cons.inj heq).2).1 hours.ne_nil
    · rename_i heq
      exact absurd (List.append_eq_nil_iff.mp (List.cons.inj heq).2).1 hours.ne_nil
    · rename_i heq
      obtain ⟨rfl, rfl⟩ := List.cons.inj heq
      simp only [digits?_figures, char?_cons, hparts, hhours, hminutes, Option.bind_eq_bind, Option.bind_some]
      rcases h with rfl | h
      · rfl
      · rcases minus_cases h with rfl | rfl <;> rfl
    · rename_i heq
      cases heq

theorem dateTimeGap?_cons {c : Char} (h : c = 'T' ∨ c = 't' ∨ c = ' ') (r : List Char) :
    dateTimeGap? (c :: r) = some r := by
  rcases h with rfl | rfl | rfl <;> rfl

/-- Every stamp is read. -/
theorem read?_text (s : Stamp) : read? s.text = some s.instant := by
  have hdate : ∀ r, date? (s.year.chars ++ '-' :: (s.month.chars ++ '-' :: (s.day.chars ++ r))) = some (s.date, r) := by
    intro r
    have hvalid : s.date.valid = true := s.valid
    simp only [date?, digits?_figures, char?_cons, Option.bind_eq_bind, Option.bind_some]
    exact if_pos hvalid
  rw [Stamp.text, read?, String.toList_ofList, Stamp.chars, Stamp.clock]
  simp only [hdate, dateTimeGap?_cons s.gap_cases, digits?_figures, char?_cons, fraction?_pointed s.digits,
    offset?_chars, s.hour_le, s.minute_le, s.second_le, decide_true, Bool.and_self, if_true, Option.bind_eq_bind,
    Option.bind_some, beq_iff_eq]
  unfold Stamp.instant Stamp.nanos
  split <;> rfl

end DocQuery.Instant
