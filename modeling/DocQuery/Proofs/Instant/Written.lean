/-
  DocQuery.Proofs.Instant.Written — instants and the texts that are written for them.

  A clock shows an hour, a minute and a second of a day, and in a leap second a billion nanoseconds and more
  (`Valid`). A text has a place for leap seconds at the end of a minute only (`Timely`), and no other instant is read
  off a text (`valid_of_read`). In the years 0 to 9999 the text written for a timely instant is a stamp in UTC, with
  as many digits behind the point as are needed, and it is read as that instant (`read?_text_of_valid`).
-/

import DocQuery.Proofs.Instant.Stamp

namespace DocQuery.Instant

open Decimal

/-! ## Padded numbers -/

theorem padded_digits (width n : Nat) : ∀ c ∈ padded width n, c.isDigit = true := by
  intro c hc
  rcases List.mem_append.mp hc with hzero | hdigit
  · rw [List.eq_of_mem_replicate hzero]
    rfl
  · exact digits_isDigit n c hdigit

theorem length_padded {width n : Nat} (hwidth : 0 < width) (h : n < 10 ^ width) : (padded width n).length = width := by
  have hfits := (Nat.length_toDigits_le_iff (b := 10) (by omega) hwidth).mpr h
  rw [padded, List.length_append, List.length_replicate]
  omega

theorem ofDigits_padded (width n : Nat) : ofDigits (padded width n) = n := by
  have hzeros : ∀ m : Nat, ofDigits (List.replicate m '0') = 0 := by
    intro m
    induction m with
    | zero => rfl
    | succ m ih =>
      have hzero : digitValue '0' = 0 := rfl
      rw [List.replicate_succ, ofDigits_cons, ih, hzero, Nat.zero_mul]
  rw [padded, ofDigits_append, hzeros, ofDigits_toDigits, Nat.zero_mul, Nat.zero_add]

/-- A number in a row of digits of its own width. -/
def figures (width n : Nat) (hwidth : 0 < width) (h : n < 10 ^ width) : Figures width :=
  ⟨padded width n, length_padded hwidth h, padded_digits width n⟩

theorem figures_value {width n : Nat} (hwidth : 0 < width) (h : n < 10 ^ width) :
    (figures width n hwidth h).value = n :=
  ofDigits_padded width n

/-! ## Fractions -/

theorem nanosOf_padded {k n : Nat} (hk : 0 < k) (hk' : k ≤ 9) (h : n < 10 ^ k) :
    nanosOf (padded k n) = n * 10 ^ (9 - k) := by
  have hlength := length_padded hk h
  have htake : (padded k n).take 9 = padded k n := List.take_of_length_le (by omega)
  rw [nanosOf, htake, hlength, ofDigits_padded]

/-- A fraction is written with digits that denote it. -/
theorem fractionText_read {n : Nat} (h : n < 1000000000) :
    ∃ ds, (∀ c ∈ ds, c.isDigit = true) ∧ fractionText n = pointed ds ∧ nanosOf ds = n := by
  have hpadded : ∀ k m : Nat, 0 < k → k ≤ 9 → m < 10 ^ k → m * 10 ^ (9 - k) = n → fractionText n = '.' :: padded k m →
      ∃ ds, (∀ c ∈ ds, c.isDigit = true) ∧ fractionText n = pointed ds ∧ nanosOf ds = n := by
    intro k m hk hk' hm hn htext
    have hne : padded k m ≠ [] := List.ne_nil_of_length_pos (by rw [length_padded hk hm]; exact hk)
    refine ⟨padded k m, padded_digits k m, ?_, ?_⟩
    · rw [htext, pointed, if_neg hne]
    · rw [nanosOf_padded hk hk' hm, hn]
  by_cases hzero : n = 0
  · subst hzero
    exact ⟨[], by simp, rfl, rfl⟩
  by_cases hmilli : n % 1000000 = 0
  · exact hpadded 3 (n / 1000000) (by omega) (by omega) (by omega) (by omega) (by simp [fractionText, hzero, hmilli])
  by_cases hmicro : n % 1000 = 0
  · exact hpadded 6 (n / 1000) (by omega) (by omega) (by omega) (by omega)
      (by simp [fractionText, hzero, hmilli, hmicro])
  · exact hpadded 9 n (by omega) (by omega) (by omega) (by omega) (by simp [fractionText, hzero, hmilli, hmicro])

/-! ## Instants -/

/-- What a clock and a calendar can show. -/
structure Valid (t : Instant) : Prop where
  date : t.date.valid = true
  hour : t.hour ≤ 23
  minute : t.minute ≤ 59
  second : t.second ≤ 59
  nanos : t.nanos < 2000000000

/-- A leap second follows the last second of a minute. -/
def Timely (t : Instant) : Prop := 1000000000 ≤ t.nanos → t.second = 59

instance (t : Instant) : Decidable t.Timely :=
  inferInstanceAs (Decidable (1000000000 ≤ t.nanos → t.second = 59))

theorem ofLocal_utc {date : Date} {hour minute second nanos : Nat} (hhour : hour ≤ 23) (hminute : minute ≤ 59) :
    ofLocal date hour minute second nanos 0 = ⟨date, hour, minute, second, nanos⟩ := by
  have hshift : shift date (60 * hour + minute) 0 = (date, 60 * hour + minute) := by
    have hminutes : (((60 * hour + minute : Nat) : Int) - 0).toNat = 60 * hour + minute := by
      rw [Int.sub_zero, Int.toNat_natCast]
    unfold shift
    simp only
    rw [if_neg (by omega), if_pos (by omega), hminutes]
  have hquotient : (60 * hour + minute) / 60 = hour := by omega
  have hremainder : (60 * hour + minute) % 60 = minute := by omega
  unfold ofLocal
  simp only [hshift, hquotient, hremainder]

/-- The zone that is written is no hours and no minutes ahead. -/
theorem exists_written_zone : ∃ z : Zone, z.chars = ['+', '0', '0', ':', '0', '0'] ∧ z.offset = 0 :=
  let noughts : Figures 2 := ⟨['0', '0'], rfl, List.all_eq_true.mp rfl⟩
  ⟨.shifted '+' (.inl rfl) noughts noughts (by decide) (by decide), rfl, rfl⟩

/-- The text of an instant is a stamp of the parts that it shows. -/
theorem stamp_of_valid {t : Instant} (h : t.Valid) (hleap : t.Timely) (hyear : 0 ≤ t.date.year)
    (hyear' : t.date.year ≤ 9999) : ∃ s : Stamp, s.text = t.text ∧ s.instant = t := by
  obtain ⟨hdate, hhour, hminute, hsecond, hnanos⟩ := h
  have hvalid := hdate
  simp only [Date.valid, Bool.and_eq_true, decide_eq_true_eq] at hvalid
  obtain ⟨⟨⟨-, hmonth⟩, -⟩, hday⟩ := hvalid
  have hday31 : t.date.day ≤ 31 := Nat.le_trans hday (daysIn_bounds _ _).2
  have hshown : t.shownSecond ≤ 60 := by
    unfold shownSecond
    omega
  have hyear4 : t.date.year.natAbs < 10 ^ 4 := by omega
  have hyearCast : (t.date.year.natAbs : Int) = t.date.year := by omega
  obtain ⟨ds, hdigits, hfraction, hds⟩ := fractionText_read (n := t.nanos % 1000000000) (Nat.mod_lt _ (by decide))
  obtain ⟨zone, hchars, hoffset⟩ := exists_written_zone
  have hwidth : 0 < 2 := by decide
  refine ⟨⟨figures 4 t.date.year.natAbs (by decide) hyear4, figures 2 t.date.month hwidth (by omega),
    figures 2 t.date.day hwidth (by omega), 'T', figures 2 t.hour hwidth (by omega), figures 2 t.minute hwidth (by omega),
    figures 2 t.shownSecond hwidth (by omega), ds, zone, ?_, .inl rfl, ?_, ?_, ?_, hdigits⟩, ?_, ?_⟩
  · rw [figures_value, figures_value, figures_value, hyearCast]
    exact hdate
  · rwa [figures_value]
  · rwa [figures_value]
  · rwa [figures_value]
  · have hyearText : yearText t.date.year = padded 4 t.date.year.natAbs := by
      rw [yearText, if_neg (by omega), if_pos hyear']
    simp only [Stamp.text, Stamp.chars, Stamp.clock, text, rfc3339, dateText, timeText, hyearText, hfraction, hchars,
      List.append_assoc, List.cons_append]
    rfl
  · have hdateEq : (⟨(t.date.year.natAbs : Int), t.date.month, t.date.day⟩ : Date) = t.date := by rw [hyearCast]
    unfold Stamp.instant Stamp.date Stamp.nanos
    simp only [figures_value, hdateEq, hds, hoffset]
    rw [ofLocal_utc hhour hminute, ofLocal_utc hhour hminute]
    unfold shownSecond
    by_cases hlong : 1000000000 ≤ t.nanos
    · have hfiftyNine := hleap hlong
      rw [if_pos (by omega)]
      have hnanosEq : t.nanos % 1000000000 + 1000000000 = t.nanos := by omega
      rw [hnanosEq, ← hfiftyNine]
    · have hsecondEq : t.second + t.nanos / 1000000000 = t.second := by omega
      rw [hsecondEq, if_neg (by omega), Nat.mod_eq_of_lt (by omega)]

theorem read?_text_of_valid {t : Instant} (h : t.Valid) (hleap : t.Timely) (hyear : 0 ≤ t.date.year)
    (hyear' : t.date.year ≤ 9999) : read? t.text = some t := by
  obtain ⟨s, htext, hinstant⟩ := stamp_of_valid h hleap hyear hyear'
  rw [← htext, Instant.read?_text s, hinstant]

/-! ## What is read -/

theorem valid_iff {d : Date} :
    d.valid = true ↔ (1 ≤ d.month ∧ d.month ≤ 12) ∧ 1 ≤ d.day ∧ d.day ≤ Date.daysIn d.year d.month := by
  simp only [Date.valid, Bool.and_eq_true, decide_eq_true_eq, and_assoc]

theorem daysIn_pos (year : Int) (month : Nat) : 1 ≤ Date.daysIn year month :=
  Nat.le_trans (by decide) (daysIn_bounds year month).1

theorem valid_next {d : Date} (h : d.valid = true) : d.next.valid = true := by
  obtain ⟨⟨hmonth, hmonth'⟩, -, -⟩ := valid_iff.mp h
  have hyear : 1 ≤ 12 := by decide
  unfold Date.next
  by_cases hday : d.day < Date.daysIn d.year d.month
  · rw [if_pos hday]
    exact valid_iff.mpr ⟨⟨hmonth, hmonth'⟩, Nat.le_add_left 1 d.day, hday⟩
  · rw [if_neg hday]
    by_cases hlast : d.month < 12
    · rw [if_pos hlast]
      exact valid_iff.mpr ⟨⟨Nat.le_add_left 1 d.month, hlast⟩, Nat.le_refl 1, daysIn_pos _ _⟩
    · rw [if_neg hlast]
      exact valid_iff.mpr ⟨⟨Nat.le_refl 1, hyear⟩, Nat.le_refl 1, daysIn_pos _ _⟩

theorem valid_previous {d : Date} (h : d.valid = true) : d.previous.valid = true := by
  obtain ⟨⟨hmonth, hmonth'⟩, -, hlast⟩ := valid_iff.mp h
  have hyear : 1 ≤ 12 := by decide
  unfold Date.previous
  by_cases hday : 1 < d.day
  · rw [if_pos hday]
    exact valid_iff.mpr ⟨⟨hmonth, hmonth'⟩, Nat.le_sub_one_of_lt hday, Nat.le_trans (Nat.sub_le _ _) hlast⟩
  · rw [if_neg hday]
    by_cases hjanuary : 1 < d.month
    · rw [if_pos hjanuary]
      exact valid_iff.mpr ⟨⟨Nat.le_sub_one_of_lt hjanuary, Nat.le_trans (Nat.sub_le _ _) hmonth'⟩,
        daysIn_pos _ _, Nat.le_refl _⟩
    · rw [if_neg hjanuary]
      exact valid_iff.mpr ⟨⟨hyear, Nat.le_refl 12⟩, Nat.le_add_left 1 30, Nat.le_refl 31⟩

/-- Less than a day ahead or behind, a clock shows a minute of the same day or of one beside it. -/
theorem valid_shift {date : Date} {minutes : Nat} {offset : Int} (hdate : date.valid = true) (hminutes : minutes < 1440)
    (hoffset : offset.natAbs < 1440) :
    (shift date minutes offset).1.valid = true ∧ (shift date minutes offset).2 < 1440 := by
  unfold shift
  simp only
  by_cases hbefore : (minutes : Int) - offset < 0
  · rw [if_pos hbefore]
    exact ⟨valid_previous hdate, by simp only; omega⟩
  · rw [if_neg hbefore]
    by_cases hsame : (minutes : Int) - offset < 1440
    · rw [if_pos hsame]
      exact ⟨hdate, by simp only; omega⟩
    · rw [if_neg hsame]
      exact ⟨valid_next hdate, by simp only; omega⟩

theorem Zone.natAbs_offset (z : Zone) : z.offset.natAbs < 1440 := by
  cases z with
  | utc letter h => exact Nat.zero_lt_succ 1439
  | shifted sign h hours minutes hhours hminutes =>
    unfold Zone.offset applySign
    split <;> omega

theorem valid_ofLocal {date : Date} {hour minute second nanos : Nat} {offset : Int} (hdate : date.valid = true)
    (hhour : hour ≤ 23) (hminute : minute ≤ 59) (hsecond : second ≤ 59) (hnanos : nanos < 2000000000)
    (hoffset : offset.natAbs < 1440) : (ofLocal date hour minute second nanos offset).Valid := by
  have hwithin : 60 * hour + minute < 1440 := by omega
  obtain ⟨hshifted, hminutes⟩ := valid_shift hdate hwithin hoffset
  exact ⟨hshifted, by simp only [ofLocal]; omega, by simp only [ofLocal]; omega, hsecond, hnanos⟩

/-- No text is read as anything that a clock cannot show, or as a leap second within a minute. -/
theorem valid_of_read {text : String} {t : Instant} (h : read? text = some t) : t.Valid ∧ t.Timely := by
  obtain ⟨s, -, rfl⟩ := stamp_of_read h
  have hnanos : s.nanos < 1000000000 := nanos_lt s.digits
  unfold Stamp.instant
  by_cases hleap : s.second.value = 60
  · rw [if_pos hleap]
    exact ⟨valid_ofLocal s.valid s.hour_le s.minute_le (Nat.le_refl 59) (by omega) s.zone.natAbs_offset, fun _ => rfl⟩
  · rw [if_neg hleap]
    have hsecond := s.second_le
    refine ⟨valid_ofLocal s.valid s.hour_le s.minute_le (by omega) (by omega) s.zone.natAbs_offset, fun hlong => ?_⟩
    exact absurd (show 1000000000 ≤ s.nanos from hlong) (by omega)

end DocQuery.Instant
