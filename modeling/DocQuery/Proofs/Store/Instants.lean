/-
  DocQuery.Proofs.Store.Instants — looking for a stored text that names an instant.

  What is asked for is read as an instant and written in UTC with milliseconds, what is left of the fraction cut
  off. What is stored is read by the query engine, which knows fewer forms and rounds to milliseconds
  (`columnText?_readable`, `columnText?_unread`). Both sides show the same text where less than half a millisecond
  is left over, and in the last millisecond of a second (`Stamp.Steady`). Where more is left over the engine shows
  a later text, and so it does in the year before the year 0, which it writes with a digit less (`Stamp.Late`).
  Where it does not know the form there is nothing to compare. Between steady and late are the fractions that
  doubles cannot tell from half a millisecond, and those of more than 307 digits.

  Proved:
  - `query_instant`: a text that is read as an instant is found by itself, or by its instant, exactly through
    `=`, `>=` and `<=` if it is steady, through `<>`, `>` and `>=` if it is late, and not at all if the engine
    does not know its form.

  As built a late text is not equal to itself: `raised_missed`.
-/

import DocQuery.Proofs.Instant.Written
import DocQuery.Proofs.Store.Seconds
import DocQuery.Proofs.Store.Unjoined
import DocQuery.Proofs.Text.Fold

namespace DocQuery

open DocQuery.Path Statement

/-! ## What the engine reads of a text -/

namespace Timestamp

open Instant

theorem two?_figures {limit : Nat} {f : Figures 2} (h : f.value ≤ limit) (r : List Char) :
    two? limit (f.chars ++ r) = some (f.value, r) := by
  simp [two?, digits?_figures, h]

theorem two?_beyond {limit : Nat} {f : Figures 2} (h : limit < f.value) (r : List Char) :
    two? limit (f.chars ++ r) = none := by
  simp [two?, digits?_figures, h]

/-- The engine reads the same date. -/
theorem date?_stamp (s : Stamp) (r : List Char) :
    date? (s.year.chars ++ '-' :: (s.month.chars ++ '-' :: (s.day.chars ++ r))) = some (s.date, r) := by
  obtain ⟨⟨hmonth, hmonth'⟩, hday, hday'⟩ := valid_iff.mp s.valid
  have hlast := (daysIn_bounds s.year.value s.month.value).2
  obtain ⟨c, digits, hyear, hdigit⟩ := s.year.opening
  have hsign : c ≠ '-' := by
    rintro rfl
    cases hdigit
  have hread := digits?_figures s.year ('-' :: (s.month.chars ++ '-' :: (s.day.chars ++ r)))
  have hbounds : (decide (s.month.value ≥ 1) && decide (s.day.value ≥ 1)) = true := by simp [hmonth, hday]
  rw [hyear, List.cons_append] at hread ⊢
  unfold date?
  split
  rename_i negative rest heq
  split at heq
  · rename_i hc
    exact absurd (List.cons.inj hc).1 hsign
  · cases heq
    simp only [hread, char?_cons, two?_figures hmonth', two?_figures (hday'.trans hlast), Option.bind_eq_bind,
      Option.bind_some, hbounds, if_true]
    rfl

theorem carryDay_stamp (s : Stamp) : carryDay s.date = s.date := if_pos (valid_iff.mp s.valid).2.2

theorem digit_not_space {c : Char} (h : c.isDigit = true) : Cell.isSpace c = false := by
  obtain ⟨hlow, -⟩ := Decimal.isDigit_code h
  have hblank : c ≠ ' ' := by
    rintro rfl
    exact absurd hlow (by decide)
  have hcontrol : ¬ c ≤ '\r' := by
    intro hle
    have hcode : c.toNat ≤ 13 := hle
    omega
  simp [Cell.isSpace, hblank, hcontrol]

theorem digit_not_gap {c : Char} (h : c.isDigit = true) : isDateGap c = false := by
  have hletter : c ≠ 'T' := by
    rintro rfl
    cases h
  simp [isDateGap, digit_not_space h, hletter]

/-- What separates date and time is passed over, unless it is a small letter. -/
theorem gap_passed {s : Stamp} (h : s.gap ≠ 't') : (s.gap :: s.clock).dropWhile isDateGap = s.clock := by
  obtain ⟨c, r, hhour, hdigit⟩ := s.hour.opening
  have hgap : isDateGap s.gap = true := by
    rcases s.gap_cases with hcase | hcase | hcase
    · rw [hcase]
      rfl
    · exact absurd hcase h
    · rw [hcase]
      rfl
  rw [List.dropWhile_cons_of_pos hgap, Stamp.clock, hhour]
  exact List.dropWhile_cons_of_neg (by simp [digit_not_gap hdigit])

theorem gap_stays {s : Stamp} (h : s.gap = 't') : (s.gap :: s.clock).dropWhile isDateGap = 't' :: s.clock := by
  rw [h]
  rfl

end Timestamp

/-! ## Zones -/

/-- A zone the engine knows: its sign is plain, and it is at most fourteen hours away. -/
def Instant.Zone.Near : Instant.Zone → Prop
  | .utc _ _ => True
  | .shifted sign _ hours _ _ _ => (sign = '+' ∨ sign = '-') ∧ hours.value ≤ 14

namespace Timestamp

open Instant

theorem zone_opens_dark (z : Zone) : z.chars.dropWhile Cell.isSpace = z.chars := by
  cases z with
  | utc letter h => rcases h with rfl | rfl <;> rfl
  | shifted sign h hours minutes =>
    rcases h with rfl | h
    · rfl
    · rcases minus_cases h with rfl | rfl <;> rfl

theorem zone?_near {z : Zone} (h : z.Near) : zone? z.chars = some z.offset := by
  unfold zone?
  rw [zone_opens_dark]
  cases z with
  | utc letter hletter => rcases hletter with rfl | rfl <;> rfl
  | shifted sign hsign hours minutes hhours hminutes =>
    have hparts : two? 59 minutes.chars = some (minutes.value, []) := by
      simpa using two?_figures hminutes []
    obtain ⟨hplain, hnear⟩ := h
    have hend : atEnd [] = true := rfl
    simp only [Zone.chars, List.cons_append, Zone.offset]
    rcases hplain with rfl | rfl <;> simp [two?_figures hnear, char?_cons, hparts, hend, isMinus]

theorem zone?_far {z : Zone} (h : ¬ z.Near) : zone? z.chars = none := by
  unfold zone?
  rw [zone_opens_dark]
  cases z with
  | utc letter hletter => exact absurd trivial h
  | shifted sign hsign hours minutes hhours hminutes =>
    simp only [Zone.chars, List.cons_append]
    by_cases hplain : sign = '+' ∨ sign = '-'
    · have hfar : 14 < hours.value := Nat.lt_of_not_le fun hnear => h ⟨hplain, hnear⟩
      rcases hplain with rfl | rfl <;> simp [two?_beyond hfar]
    · rcases hsign with rfl | hsign
      · exact absurd (.inl rfl) hplain
      · rcases minus_cases hsign with rfl | rfl
        · exact absurd (.inr rfl) hplain
        · rfl

/-! ## Seconds -/

/-- The seconds as the engine reads them. -/
def secondsOf (s : Stamp) : Float :=
  if s.fraction = [] then Float.ofNat s.second.value else Float.ofNat s.second.value + fractionOf s.fraction

theorem seconds?_stamp {s : Stamp} (h : s.second.value ≤ 59) :
    seconds? (s.second.chars ++ (pointed s.fraction ++ s.zone.chars)) = some (secondsOf s, s.zone.chars) := by
  obtain ⟨c, r, hz, hdigit, hpoint⟩ := s.zone.opening
  simp only [seconds?, two?_figures h, Option.bind_eq_bind, Option.bind_some]
  rw [hz]
  unfold pointed secondsOf
  by_cases hempty : s.fraction = []
  · rw [if_pos hempty, if_pos hempty, List.nil_append]
    split
    · rename_i heq
      exact absurd (List.cons.inj heq).1 hpoint
    · rfl
  · have hhead : ∀ d, (c :: r).head? = some d → d.isDigit = false := fun d hd => Option.some.inj hd ▸ hdigit
    rw [if_neg hempty, if_neg hempty]
    simp [Text.takeWhile_run s.digits hhead, Text.dropWhile_run s.digits hhead, hempty]

theorem seconds?_leap {s : Stamp} (h : 59 < s.second.value) (r : List Char) :
    seconds? (s.second.chars ++ r) = none := by
  simp [seconds?, two?_beyond h]

theorem secondsOf_reads {s : Stamp} (h : s.second.value ≤ 59) (hlength : s.fraction.length ≤ 307) :
    Reads (secondsOf s) s.second.value s.fraction := by
  unfold secondsOf
  split
  · rename_i hempty
    rw [hempty]
    exact whole_reads h
  · exact seconds_is h s.digits hlength

/-! ## Times of day -/

/-- The time of day in UTC, unless the year there has five digits. -/
def utc? (s : Stamp) : Option String :=
  if s.instant.date.year ≤ 9999 then
    some (shown s.instant.date s.instant.hour s.instant.minute (milliseconds s.zone.offset (secondsOf s)))
  else none

/-- The date in UTC and the minute of the day there. -/
def moved (s : Stamp) : Date × Nat := shift s.date (60 * s.hour.value + s.minute.value) s.zone.offset

theorem instant_date (s : Stamp) : s.instant.date = (moved s).1 := by
  unfold Stamp.instant ofLocal
  split <;> rfl

theorem instant_hour (s : Stamp) : s.instant.hour = (moved s).2 / 60 := by
  unfold Stamp.instant ofLocal
  split <;> rfl

theorem instant_minute (s : Stamp) : s.instant.minute = (moved s).2 % 60 := by
  unfold Stamp.instant ofLocal
  split <;> rfl

/-- Without an offset nothing is moved. -/
theorem moved_utc {s : Stamp} (h : s.zone.offset = 0) : moved s = (s.date, 60 * s.hour.value + s.minute.value) := by
  have hhour := s.hour_le
  have hminute := s.minute_le
  unfold moved shift
  rw [h, if_neg (by omega), if_pos (by omega)]
  exact congrArg (Prod.mk s.date) (by omega)

theorem shift_year (d : Date) (minutes : Nat) (offset : Int) : d.year - 1 ≤ (shift d minutes offset).1.year := by
  have hprevious : d.year - 1 ≤ d.previous.year := by
    unfold Date.previous
    split
    · exact Int.sub_le_self _ (by omega)
    · split
      · exact Int.sub_le_self _ (by omega)
      · exact le_refl _
  have hnext : d.year ≤ d.next.year := by
    unfold Date.next
    split
    · exact le_refl _
    · split
      · exact le_refl _
      · show d.year ≤ d.year + 1
        omega
  unfold shift
  simp only
  split
  · exact hprevious
  · split
    · exact Int.sub_le_self _ (by omega)
    · exact (Int.sub_le_self _ (by omega)).trans hnext

theorem moved_year (s : Stamp) : -1 ≤ (moved s).1.year := by
  have hzero : 0 ≤ s.date.year := Int.natCast_nonneg _
  have hshift := shift_year s.date (60 * s.hour.value + s.minute.value) s.zone.offset
  unfold moved
  omega

/-- From the year -1 on, time is counted up to the year 9999. -/
theorem isCounted_iff {d : Date} (h : -1 ≤ d.year) (minutes : Nat) : isCounted d minutes = true ↔ d.year ≤ 9999 := by
  have hlate : d.year > -4713 := by omega
  simp [isCounted, hlate]

/-- The time of day that a stamp shows. -/
def timeOf (s : Stamp) : TimeOfDay := ⟨s.hour.value, s.minute.value, secondsOf s, s.zone.offset⟩

theorem writtenText?_stamp (s : Stamp) : writtenText? (some s.date) (timeOf s) = utc? s := by
  have hcounted := isCounted_iff (moved_year s) (moved s).2
  have hmoved : shift (carryDay s.date) (60 * (timeOf s).hour + (timeOf s).minute) (timeOf s).offset = moved s := by
    rw [carryDay_stamp]
    rfl
  unfold writtenText? utc?
  simp only [Option.getD_some, hmoved, instant_date, instant_hour, instant_minute]
  by_cases hyear : (moved s).1.year ≤ 9999
  · rw [if_pos hyear, hcounted.mpr hyear]
    by_cases hoffset : s.zone.offset = 0
    · have hhour := s.hour_le
      have hminute := s.minute_le
      have hhours : (60 * s.hour.value + s.minute.value) / 60 = s.hour.value := by omega
      have hminutes : (60 * s.hour.value + s.minute.value) % 60 = s.minute.value := by omega
      have hdate : ((some s.date).filter fun d => d.day ≤ 28).getD s.date = s.date := by
        cases hday : decide (s.date.day ≤ 28) <;> simp [Option.filter, hday]
      simp [timeOf, hoffset, moved_utc hoffset, hhours, hminutes, hdate]
    · simp [timeOf, hoffset]
  · rw [if_neg hyear, Bool.eq_false_of_not_eq_true (mt hcounted.mp hyear)]
    rfl

theorem time?_near {s : Stamp} (hsecond : s.second.value ≤ 59) (hzone : s.zone.Near) :
    time? s.clock = some (timeOf s) := by
  have hhour : s.hour.value ≤ 24 := s.hour_le.trans (by omega)
  simp only [time?, Stamp.clock, two?_figures hhour, two?_figures s.minute_le, char?_cons, seconds?_stamp hsecond,
    zone?_near hzone, Option.bind_eq_bind, Option.bind_some]
  rfl

theorem time?_far {s : Stamp} (hsecond : s.second.value ≤ 59) (hzone : ¬ s.zone.Near) : time? s.clock = none := by
  have hhour : s.hour.value ≤ 24 := s.hour_le.trans (by omega)
  simp only [time?, Stamp.clock, two?_figures hhour, two?_figures s.minute_le, char?_cons, seconds?_stamp hsecond,
    zone?_far hzone, Option.bind_eq_bind, Option.bind_some]
  rfl

theorem time?_leap {s : Stamp} (hsecond : 59 < s.second.value) : time? s.clock = none := by
  have hhour : s.hour.value ≤ 24 := s.hour_le.trans (by omega)
  simp only [time?, Stamp.clock, two?_figures hhour, two?_figures s.minute_le, char?_cons, seconds?_leap hsecond,
    Option.bind_eq_bind, Option.bind_some]
  rfl

/-! ## What opens with a year

Four digits and a hyphen open a date. They open no time of day, no number and no word. -/

section years

variable (year : Figures 4) (r : List Char)

theorem time?_year : time? (year.chars ++ '-' :: r) = none := by
  obtain ⟨chars, hlength, hdigits⟩ := year
  obtain ⟨a, b, c, d, rfl⟩ := List.length_eq_four.mp hlength
  have hdigit : c.isDigit = true := hdigits c (by simp)
  have hcolon : c ≠ ':' := by
    rintro rfl
    cases hdigit
  let hour : Figures 2 := ⟨[a, b], rfl, fun x hx => hdigits x (List.mem_append_left [c, d] hx)⟩
  have hread : digits? 2 (a :: b :: c :: d :: '-' :: r) = some (hour.value, c :: d :: '-' :: r) :=
    digits?_figures hour _
  simp only [List.cons_append, List.nil_append, time?, two?, hread, Option.bind_eq_bind, Option.bind_some]
  by_cases hlimit : hour.value ≤ 24
  · simp [hlimit, char?, hcolon]
  · simp [hlimit]

theorem numeral_year : Decimal.Numeral.read? (Cell.trimSpaces (year.chars ++ '-' :: r)) = none := by
  obtain ⟨c, digits, hyear, hdigit⟩ := year.opening
  have hfront : (year.chars ++ '-' :: r).dropWhile Cell.isSpace = year.chars ++ '-' :: r := by
    rw [hyear]
    exact List.dropWhile_cons_of_neg (by simp [digit_not_space hdigit])
  obtain ⟨r', htrim⟩ : ∃ r', Cell.trimSpaces (year.chars ++ '-' :: r) = year.chars ++ '-' :: r' := by
    have hhyphen : Cell.isSpace '-' = false := rfl
    rw [Cell.trimSpaces, hfront, List.reverse_append, List.reverse_cons, List.append_assoc, List.dropWhile_append]
    split
    · exact ⟨[], by simp [hhyphen]⟩
    · exact ⟨(r.reverse.dropWhile Cell.isSpace).reverse, by simp⟩
  have hsigned : Decimal.signed (year.chars ++ '-' :: r') = (false, year.chars ++ '-' :: r') := by
    rw [hyear]
    exact Decimal.signed_digit hdigit _
  have hnone : ∀ d, ('-' :: r').head? = some d → d.isDigit = false := fun d hd => Option.some.inj hd ▸ rfl
  have hmantissa : Decimal.Numeral.mantissa (year.chars ++ '-' :: r') = (year.chars, [], '-' :: r') := by
    unfold Decimal.Numeral.mantissa
    rw [Text.takeWhile_run year.digits hnone, Text.dropWhile_run year.digits hnone]
    rfl
  rw [htrim]
  unfold Decimal.Numeral.read?
  simp only [hsigned, hmantissa, ite_eq_left_iff]
  exact fun _ => rfl

theorem counted?_year : counted? (year.chars ++ '-' :: r) = none := by
  have hmem : '-' ∈ (String.ofList (year.chars ++ '-' :: r)).toList := by simp
  have hword : ∀ word : String, '-' ∉ (Text.lower word).toList →
      Text.sameIgnoringCase (String.ofList (year.chars ++ '-' :: r)) word = false := fun word hnone =>
    Text.not_sameIgnoringCase_of_mem hmem hnone
  have hnow := hword "now" (by decide)
  have hsubsec := hword "subsec" (by decide)
  have hsubsecond := hword "subsecond" (by decide)
  simp only [counted?, hnow, hsubsec, hsubsecond, numeral_year year r, Bool.or_self, Bool.false_eq_true, if_false]

end years

end Timestamp

/-! ## Texts the engine can read -/

/-- The forms the engine knows. -/
structure Instant.Stamp.Readable (s : Instant.Stamp) : Prop where
  gap : s.gap ≠ 't'
  second : s.second.value ≤ 59
  zone : s.zone.Near
  year : s.instant.date.year ≤ 9999

namespace Timestamp

open Instant

theorem dated?_stamp (s : Stamp) :
    dated? s.chars = if s.gap = 't' then none else (time? s.clock).map (.written (some s.date)) := by
  obtain ⟨c, r, hhour, -⟩ := s.hour.opening
  rw [dated?, Stamp.chars, date?_stamp]
  simp only [Option.bind_eq_bind, Option.bind_some]
  by_cases hgap : s.gap = 't'
  · rw [if_pos hgap, gap_stays hgap]
    simp [time?, two?, digits?]
  · rw [if_neg hgap, gap_passed hgap]
    have hmore : s.clock.isEmpty = false := by
      rw [Stamp.clock, hhour]
      rfl
    rw [hmore]
    cases time? s.clock <;> rfl

/-- No character of a stamp ends the text. -/
theorem stamp_whole (s : Stamp) : s.chars.takeWhile (· != Char.ofNat 0) = s.chars := by
  have hfigures : ∀ {n : Nat} (f : Figures n), Char.ofNat 0 ∉ f.chars := fun f hmem => nomatch f.digits _ hmem
  have hfraction : Char.ofNat 0 ∉ pointed s.fraction := by
    unfold pointed
    split
    · exact List.not_mem_nil
    · rw [List.mem_cons, not_or]
      exact ⟨by decide, fun hmem => nomatch s.digits _ hmem⟩
  have hzone : Char.ofNat 0 ∉ s.zone.chars := by
    cases s.zone with
    | utc letter h => rcases h with rfl | rfl <;> decide
    | shifted sign h hours minutes =>
      have hsign : Char.ofNat 0 ≠ sign := by
        rintro rfl
        exact absurd h (by decide)
      simp [Zone.chars, hsign, hfigures]
  have hgap : Char.ofNat 0 ≠ s.gap := by
    rcases s.gap_cases with h | h | h <;> rw [h] <;> decide
  apply Text.takeWhile_unmarked
  simp [Stamp.chars, Stamp.clock, hfigures, hfraction, hzone, hgap]

theorem columnText?_stamp (now : Nat) (s : Stamp) :
    columnText? now s.text = if s.gap = 't' then none else (time? s.clock).bind (writtenText? (some s.date)) := by
  have hread : read? s.text = dated? s.chars := by
    rw [read?, Stamp.text, String.toList_ofList]
    simp only [stamp_whole]
    rw [Stamp.chars, time?_year, counted?_year]
    cases dated? _ <;> rfl
  rw [columnText?, hread, dated?_stamp]
  by_cases hgap : s.gap = 't'
  · rw [if_pos hgap, if_pos hgap]
    rfl
  · rw [if_neg hgap, if_neg hgap]
    cases time? s.clock <;> rfl

theorem columnText?_readable {s : Stamp} (h : s.Readable) (now : Nat) : columnText? now s.text =
    some (shown s.instant.date s.instant.hour s.instant.minute (milliseconds s.zone.offset (secondsOf s))) := by
  rw [columnText?_stamp, if_neg h.gap, time?_near h.second h.zone, Option.bind_some, writtenText?_stamp]
  exact if_pos h.year

theorem columnText?_unread {s : Stamp} (h : ¬ s.Readable) (now : Nat) : columnText? now s.text = none := by
  rw [columnText?_stamp]
  by_cases hgap : s.gap = 't'
  · exact if_pos hgap
  rw [if_neg hgap]
  by_cases hsecond : s.second.value ≤ 59
  · by_cases hzone : s.zone.Near
    · rw [time?_near hsecond hzone, Option.bind_some, writtenText?_stamp]
      exact if_neg fun hyear => h ⟨hgap, hsecond, hzone, hyear⟩
    · rw [time?_far hsecond hzone]
      rfl
  · rw [time?_leap (not_le.mp hsecond)]
    rfl

/-! ## Shown texts -/

/-- Padded numbers are in the order of the numbers. -/
theorem padded_lt {width m n : Nat} (hwidth : 0 < width) (hn : n < 10 ^ width) (h : m < n) :
    padded width m < padded width n := by
  apply Decimal.lt_of_ofDigits_lt (padded_digits width m) (padded_digits width n)
  · rw [length_padded hwidth (h.trans hn), length_padded hwidth hn]
  · rwa [ofDigits_padded, ofDigits_padded]

/-- A date and a time of day with milliseconds. -/
def face (i : Instant) (second ms : Nat) : List Char :=
  Instant.dateText i.date ++ ' ' :: padded 2 i.hour ++ ':' :: padded 2 i.minute ++ ':' :: padded 2 second ++
    '.' :: padded 3 ms

theorem shown_face {i : Instant} {second ms : Nat} (hyear : 0 ≤ i.date.year) (hyear' : i.date.year ≤ 9999)
    (hms : ms < 1000) : shown i.date i.hour i.minute (1000 * second + ms) = String.ofList (face i second ms) := by
  have hseconds : (1000 * second + ms) / 1000 = second := by omega
  have hrest : (1000 * second + ms) % 1000 = ms := by omega
  have hdate : dateText i.date = Instant.dateText i.date := by
    have hnegative := not_lt.mpr hyear
    simp only [dateText, Instant.dateText, yearText, Instant.yearText, if_neg hnegative, if_pos hyear']
  simp [shown, face, hdate, hseconds, hrest]

theorem columnText_face {s : Stamp} (h : s.second.value ≤ 59) :
    s.instant.columnText = String.ofList (face s.instant s.second.value (nanosOf s.fraction / 1000000)) := by
  have hleap : s.second.value ≠ 60 := by omega
  have hnanos := nanos_lt s.digits
  have hinstant : s.instant.nanos = nanosOf s.fraction ∧ s.instant.second = s.second.value := by
    rw [Stamp.instant, if_neg hleap]
    exact ⟨rfl, rfl⟩
  have hcarry : nanosOf s.fraction / 1000000000 = 0 := by omega
  have hwhole : nanosOf s.fraction % 1000000000 = nanosOf s.fraction := by omega
  simp [Instant.columnText, timeText, shownSecond, face, hinstant, hcarry, hwhole]

/-- A later millisecond is a later text. -/
theorem face_lt (i : Instant) (second : Nat) {ms ms' : Nat} (hms' : ms' < 1000) (h : ms < ms') :
    String.ofList (face i second ms) < String.ofList (face i second ms') := by
  rw [String.lt_iff_toList_lt, String.toList_ofList, String.toList_ofList]
  exact List.append_left_lt (List.cons_lt_cons_self.mpr (padded_lt (by omega) hms' h))

/-- The year before the year 0 is shown later than it is asked for: with a zero less. -/
theorem shown_before_zero {i : Instant} (h : i.date.year = -1) (ms : Nat) :
    i.columnText < shown i.date i.hour i.minute ms := by
  have hpadded : padded 4 1 = ['0', '0', '0', '1'] ∧ padded 3 1 = ['0', '0', '1'] := by decide +kernel
  rw [String.lt_iff_toList_lt, Instant.columnText, shown, String.toList_ofList, String.toList_ofList]
  simp only [Instant.dateText, dateText, Instant.yearText, yearText, h, show (-1 : Int) < 0 by decide, if_true,
    show (-1 : Int).natAbs = 1 by decide, hpadded, List.cons_append, List.cons_lt_cons_self]
  exact List.Lex.rel (by decide)

end Timestamp

namespace Instant.Stamp

variable (s : Stamp)

/-- The engine shows what is asked for. -/
structure Steady : Prop where
  readable : s.Readable
  year : 0 ≤ s.instant.date.year
  length : s.fraction.length ≤ 307
  kept : Timestamp.Kept s.fraction

/-- The engine shows something later. -/
structure Late : Prop where
  readable : s.Readable
  later : s.instant.date.year < 0 ∨ s.fraction.length ≤ 307 ∧ Timestamp.Raised s.fraction

variable {s}

theorem Steady.shown (h : s.Steady) (now : Nat) : Timestamp.columnText? now s.text = some s.instant.columnText := by
  have hms : nanosOf s.fraction / 1000000 < 1000 := by
    have := nanos_lt s.digits
    omega
  have hreads := Timestamp.secondsOf_reads h.readable.second h.length
  rw [Timestamp.columnText?_readable h.readable, Timestamp.columnText_face h.readable.second,
    Timestamp.milliseconds_kept hreads h.readable.second s.digits h.kept, Timestamp.floor_part s.digits,
    Timestamp.shown_face h.year h.readable.year hms]

theorem Late.shown (h : s.Late) (now : Nat) :
    ∃ later, Timestamp.columnText? now s.text = some later ∧ s.instant.columnText < later := by
  refine ⟨_, Timestamp.columnText?_readable h.readable now, ?_⟩
  by_cases hyear : s.instant.date.year < 0
  · have hleast := Timestamp.moved_year s
    rw [← Timestamp.instant_date] at hleast
    exact Timestamp.shown_before_zero (by omega) _
  · obtain ⟨hlength, hraised⟩ := h.later.resolve_left hyear
    have hlast := Timestamp.floor_raised hraised
    have hreads := Timestamp.secondsOf_reads h.readable.second hlength
    rw [Timestamp.floor_part s.digits] at hlast
    rw [Timestamp.columnText_face h.readable.second, Timestamp.milliseconds_raised hreads h.readable.second hraised,
      Timestamp.floor_part s.digits, Timestamp.shown_face (not_lt.mp hyear) h.readable.year (by omega)]
    exact Timestamp.face_lt _ _ (by omega) (Nat.lt_succ_self _)

end Instant.Stamp

namespace Statement

variable {schema : Schema} {field : String} {r : ResolvedPath} {u : Value} {t : String} {i : Instant} {store : Store}
  {table : Table} {relation : Store.Relation}

theorem compareTexts_self (s : String) : Cell.compareTexts s s = .eq := by
  rw [compareTexts_eq, if_neg (lt_irrefl s), if_pos rfl]

theorem compareTexts_gt {s t : String} (h : t < s) : Cell.compareTexts s t = .gt := by
  rw [compareTexts_eq, if_neg (lt_asymm h), if_neg h.ne']

theorem asInstant_text (h : Instant.read? t = some i) : asInstant (.text t) = .instant i := by
  simp [asInstant, h]

theorem asInstant_not_null (hu : asInstant u = .instant i) : u.isNull = false := by
  cases u with
  | null => cases hu
  | _ => rfl

/-- A comparison with an instant is answered by the texts that the engine shows in this order to it. -/
theorem compared_rows (hfield : target? schema field = .ok (.path r)) (hplain : r.arrays = [])
    (htype : r.terminal.element = .scalar .datetime) (hkind : r.terminal.kind ≠ .valueArray)
    (hu : asInstant u = .instant i) (hrelation : store.relation table = .ok relation)
    (hrows : ∀ row ∈ relation.rows, ∃ doc, Json.readWith? .stored row.document = some doc) (c : Comparison) :
    ∃ compiled rows, select schema .sqlite table (some (.unary field (.comparison c) u)) .none .all = .ok compiled ∧
      store.query compiled = .ok rows ∧ ∀ row ∈ relation.rows, ∀ doc t,
        Json.readWith? .stored row.document = some doc → Json.follow r.names doc = some (.string t) →
          (row ∈ rows ↔ ∃ shown, Timestamp.columnText? store.clock t = some shown ∧
            c.admits (Cell.compareTexts shown i.columnText) = true) := by
  have hcoerce : coerce u .datetime = .instant i := hu
  have hbound := comparison_bound hfield htype (asInstant_not_null hu) hkind c
  rw [hcoerce] at hbound
  obtain ⟨rows, hquery, hmem⟩ :=
    query_compare (target?_unjoined hfield hplain) hrelation hrows c .datetime (.instant i)
  refine ⟨_, rows, select_of_bound hbound .sqlite table .all, hquery, ?_⟩
  intro row hrow doc t hdoc ht
  rw [hmem row hrow doc hdoc]
  have hcell : typed store.clock .datetime (cellAt r doc) =
      ((Timestamp.columnText? store.clock t).map Cell.text).getD .null := by
    rw [cellAt, ht]
    rfl
  rw [hcell]
  cases Timestamp.columnText? store.clock t with
  | none => simp [Cell.compares, Cell.isNull]
  | some shown => simp [Cell.compares, Cell.isNull, Cell.ofValue, opposite, Cell.order]

/-- A text that is read as an instant is looked for by itself, or by another name of its instant. The comparisons
that find it are those that hold of equals if the engine shows it as it is asked for, those that hold of the later
if it shows it later, and none if it does not know the form. -/
theorem query_instant (hfield : target? schema field = .ok (.path r)) (hplain : r.arrays = [])
    (htype : r.terminal.element = .scalar .datetime) (hkind : r.terminal.kind ≠ .valueArray)
    (hread : Instant.read? t = some i) (hu : asInstant u = .instant i) (hrelation : store.relation table = .ok relation)
    (hrows : ∀ row ∈ relation.rows, ∃ doc, Json.readWith? .stored row.document = some doc) (c : Comparison) :
    (∃ s : Instant.Stamp, s.text = t) ∧ ∃ compiled rows,
      select schema .sqlite table (some (.unary field (.comparison c) u)) .none .all = .ok compiled ∧
      store.query compiled = .ok rows ∧ ∀ row ∈ relation.rows, ∀ doc,
        Json.readWith? .stored row.document = some doc → Json.follow r.names doc = some (.string t) →
          ∀ s : Instant.Stamp, s.text = t →
            (s.Steady → (row ∈ rows ↔ c = .equalTo ∨ c = .greaterOrEqualTo ∨ c = .lessOrEqualTo)) ∧
            (s.Late → (row ∈ rows ↔ c = .notEqualTo ∨ c = .greaterThan ∨ c = .greaterOrEqualTo)) ∧
            (¬ s.Readable → row ∉ rows) := by
  obtain ⟨s, hs, -⟩ := Instant.stamp_of_read hread
  obtain ⟨compiled, rows, hselect, hquery, hmem⟩ := compared_rows hfield hplain htype hkind hu hrelation hrows c
  refine ⟨⟨s, hs⟩, compiled, rows, hselect, hquery, ?_⟩
  intro row hrow doc hdoc ht s hs
  obtain rfl : s.instant = i := by
    have hreads := Instant.read?_text s
    rw [hs, hread] at hreads
    exact (Option.some.inj hreads).symm
  have hfound := hmem row hrow doc t hdoc ht
  rw [← hs] at hfound
  refine ⟨?_, ?_, ?_⟩
  · intro hsteady
    rw [hfound, hsteady.shown store.clock]
    cases c <;> simp [compareTexts_self, Comparison.admits]
  · intro hlate
    obtain ⟨later, hshown, hlt⟩ := hlate.shown store.clock
    rw [hfound, hshown]
    cases c <;> simp [compareTexts_gt hlt, Comparison.admits]
  · intro hunread
    rw [hfound, Timestamp.columnText?_unread hunread store.clock]
    simp

/-! ## Posts with dates -/

/-- Posts with a date. -/
def dated : Schema := ⟨"Post", [⟨"Post", [⟨"At", .scalar .datetime⟩]⟩]⟩

def dateOfPost : ResolvedPath := ⟨[], ⟨"At", .scalar, .scalar .datetime⟩⟩

def datedPost (t : String) : Json := .object [("At", .string t)]

theorem dated_at : target? dated "At" = .ok (.path dateOfPost) := by rfl

/-- The first of January of 2024, half past one. -/
def newYear (fraction : List Char) (h : ∀ c ∈ fraction, c.isDigit = true) (zone : Instant.Zone) : Instant.Stamp where
  year := ⟨['2', '0', '2', '4'], rfl, by simp⟩
  month := ⟨['0', '1'], rfl, by simp⟩
  day := ⟨['0', '1'], rfl, by simp⟩
  gap := 'T'
  hour := ⟨['0', '1'], rfl, by simp⟩
  minute := ⟨['3', '0'], rfl, by simp⟩
  second := ⟨['0', '0'], rfl, by simp⟩
  fraction := fraction
  zone := zone
  valid := rfl
  gap_cases := .inl rfl
  hour_le := by decide
  minute_le := by decide
  second_le := by decide
  digits := h

/-- Two hours ahead of UTC. -/
def ahead : Instant.Zone :=
  .shifted '+' (.inl rfl) ⟨['0', '2'], rfl, by simp⟩ ⟨['0', '0'], rfl, by simp⟩ (by decide) (by decide)

/-- Still in the old year of UTC, with milliseconds. -/
def evening : Instant.Stamp := newYear ['1', '2', '3'] (by simp) ahead

/-- More than half a millisecond is left over. -/
def raised : Instant.Stamp := newYear ['1', '2', '3', '6'] (by simp) (.utc 'Z' (.inl rfl))

theorem evening_text : evening.text = "2024-01-01T01:30:00.123+02:00" := by decide +kernel

theorem raised_text : raised.text = "2024-01-01T01:30:00.1236Z" := by decide +kernel

theorem evening_steady : evening.Steady where
  readable := ⟨by decide, by decide, ⟨.inl rfl, by decide⟩, by decide⟩
  year := by decide
  length := by decide
  kept := Timestamp.kept_of_length_le (by decide)

theorem raised_late : raised.Late where
  readable := ⟨by decide, by decide, trivial, by decide⟩
  later := by
    right
    have hdigits : Decimal.ofDigits raised.fraction = 1236 := by decide
    have hlength : raised.fraction.length = 4 := rfl
    have hms : Instant.nanosOf raised.fraction / 1000000 = 123 := by decide
    refine ⟨by decide, ?_, ?_⟩
    · norm_num [Timestamp.part, hdigits, hlength, Timestamp.stop]
    · rw [Timestamp.leftover, Timestamp.floor_part raised.digits, hms]
      norm_num [Timestamp.part, hdigits, hlength]

/-- A post is found by its date, through another zone. -/
theorem evening_found : ∃ compiled rows,
    select dated .sqlite posts (some (.unary "At" (.comparison .equalTo) (.text "2024-01-01T01:30:00.123+02:00")))
      .none .all = .ok compiled ∧
    (storeOf [rowOf 1 (datedPost "2024-01-01T01:30:00.123+02:00")]).query compiled = .ok rows ∧
    rowOf 1 (datedPost "2024-01-01T01:30:00.123+02:00") ∈ rows := by
  rw [← evening_text]
  have hdoc : Json.readWith? .stored (rowOf 1 (datedPost evening.text)).document = some (datedPost evening.text) := by
    rw [evening_text]
    rfl
  have hread := Instant.read?_text evening
  obtain ⟨-, compiled, rows, hselect, hquery, hmem⟩ := query_instant dated_at rfl rfl (by decide) hread
    (asInstant_text hread) (storeOf_relation [rowOf 1 (datedPost evening.text)])
    (fun row hrow => ⟨_, List.mem_singleton.mp hrow ▸ hdoc⟩) .equalTo
  have hfound := hmem _ (List.mem_singleton.mpr rfl) _ hdoc rfl evening rfl
  exact ⟨compiled, rows, hselect, hquery, (hfound.1 evening_steady).mpr (.inl rfl)⟩

/-- A post is not found by its own date where the engine shows a later millisecond. -/
theorem raised_missed : dated.Built ∧ Instant.read? "2024-01-01T01:30:00.1236Z" = some raised.instant ∧
    target? dated "At" = .ok (.path dateOfPost) ∧ dateOfPost.arrays = [] ∧
    Json.readWith? .stored (rowOf 1 (datedPost "2024-01-01T01:30:00.1236Z")).document =
      some (datedPost "2024-01-01T01:30:00.1236Z") ∧
    ∃ compiled rows,
    select dated .sqlite posts (some (.unary "At" (.comparison .equalTo) (.text "2024-01-01T01:30:00.1236Z")))
      .none .all = .ok compiled ∧
    (storeOf [rowOf 1 (datedPost "2024-01-01T01:30:00.1236Z")]).query compiled = .ok rows ∧
    rowOf 1 (datedPost "2024-01-01T01:30:00.1236Z") ∉ rows := by
  rw [← raised_text]
  have hdoc : Json.readWith? .stored (rowOf 1 (datedPost raised.text)).document = some (datedPost raised.text) := by
    rw [raised_text]
    rfl
  have hread := Instant.read?_text raised
  obtain ⟨compiled, rows, hselect, hquery, hmem⟩ := compared_rows dated_at rfl rfl (by decide) (asInstant_text hread)
    (storeOf_relation [rowOf 1 (datedPost raised.text)]) (fun row hrow => ⟨_, List.mem_singleton.mp hrow ▸ hdoc⟩)
    .equalTo
  refine ⟨⟨"Post", dated.types, by decide +kernel⟩, hread, dated_at, rfl, hdoc, compiled, rows, hselect, hquery, ?_⟩
  obtain ⟨later, hshown, hlt⟩ := raised_late.shown (storeOf [rowOf 1 (datedPost raised.text)]).clock
  rw [hmem _ (List.mem_singleton.mpr rfl) _ _ hdoc rfl, hshown]
  intro h
  obtain ⟨shown, hsame, hadmits⟩ := h
  obtain rfl := Option.some.inj hsame
  rw [compareTexts_gt hlt] at hadmits
  cases hadmits

end Statement

end DocQuery
