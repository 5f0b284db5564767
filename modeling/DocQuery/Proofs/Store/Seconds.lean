/-
  DocQuery.Proofs.Store.Seconds — seconds as the query engine works them out.

  The engine reads the digits behind the point into a double, stops at 0.999, adds the whole seconds and counts
  thousandths, a half going up. Up to 307 digits all of this is exact to within a picosecond, so the
  milliseconds are those of the text where less than half of one is left over (`milliseconds_kept`), and one
  more where more than half of one is (`milliseconds_raised`); the last millisecond of a second is kept either way.
-/

import DocQuery.Proofs.Double.Arithmetic
import DocQuery.Proofs.Instant.Stamp
import DocQuery.Store.Timestamp

namespace DocQuery.Timestamp

open Decimal Double Instant

/-! ## The digits behind the point -/

/-- The part of a second that the digits behind the point denote. -/
def part (ds : List Char) : ℚ := ofDigits ds / 10 ^ ds.length

theorem part_nonneg (ds : List Char) : 0 ≤ part ds := by
  unfold part
  positivity

theorem part_lt_one {ds : List Char} (h : ∀ c ∈ ds, c.isDigit = true) : part ds < 1 := by
  unfold part
  rw [div_lt_one (by positivity)]
  exact_mod_cast ofDigits_lt h

/-- One more digit: a multiplication and a sum, each off by a little. -/
theorem appendDigit_about {state : Float × Float} {n scale : Nat} {ε : ℚ} {c : Char} (hc : digitValue c < 10)
    (hn : About ε state.1 n) (hscale : About ε state.2 scale) (hroom : 10 * n + 9 ≤ 10 ^ 307)
    (hroom' : 10 * scale ≤ 10 ^ 307) (hε : 3 * ulp ≤ ε) (hε' : ε ≤ 1 / 12) :
    About (ε + 4 * ulp) (appendDigit state c).1 (10 * n + digitValue c : Nat) ∧
      About (ε + 4 * ulp) (appendDigit state c).2 (10 * scale : Nat) := by
  have hulp := ulp_pos
  have htiny : ulp ≤ 1 / 100 := by norm_num [ulp]
  have hten : ∀ {y : Float} {m : Nat}, About ε y m → 10 * m ≤ 10 ^ 307 →
      About (ε + 2 * ulp) (y * 10.0) (10 * m : Nat) := by
    intro y m hy hm
    have hroomy : Roomy ((m : ℚ) * 10) := by
      have := roomy_natCast hm
      rwa [Nat.mul_comm, Nat.cast_mul] at this
    have := hy.mul ten_is (by positivity) hroomy (by linarith) (by linarith)
    rwa [Nat.mul_comm, Nat.cast_mul]
  constructor
  · have hdigit : About (ε + 2 * ulp) (Float.ofNat (digitValue c)) (digitValue c) :=
      (ofNat_about (by omega)).mono (by positivity) (by linarith)
    have hroomy := roomy_natCast (n := 10 * n + digitValue c) (by omega)
    rw [Nat.cast_add] at hroomy ⊢
    have hsum := (hten hn (by omega)).add hdigit (by positivity) (by positivity) hroomy (by linarith) (by linarith)
    exact hsum.mono (by positivity) (by linarith)
  · exact (hten hscale hroom').mono (by positivity) (by linarith)

/-- The digits and their power of ten, read into doubles. -/
theorem digits_about {ds : List Char} (h : ∀ c ∈ ds, c.isDigit = true) (hlength : ds.length ≤ 307) :
    About (4 * (ds.length + 1) * ulp) (ds.foldl appendDigit (0.0, 1.0)).1 (ofDigits ds) ∧
      About (4 * (ds.length + 1) * ulp) (ds.foldl appendDigit (0.0, 1.0)).2 (10 ^ ds.length : Nat) := by
  induction ds using List.reverseRecOn with
  | nil =>
    have hε : 0 ≤ 4 * (([] : List Char).length + 1) * ulp := by norm_num [ulp]
    refine ⟨?_, ?_⟩
    · simpa [ofDigits] using zero_is.about hε
    · simpa using one_is.about hε
  | append_singleton ds c ih =>
    rw [List.length_append, List.length_singleton] at hlength
    have hlt := ofDigits_lt fun d hd => h d (List.mem_append_left [c] hd)
    have hdigit := digitValue_lt (h c (by simp))
    obtain ⟨hvalue, hscale⟩ := ih (fun d hd => h d (List.mem_append_left [c] hd)) (by omega)
    have hlength' : (ds.length : ℚ) ≤ 306 := by exact_mod_cast (by omega : ds.length ≤ 306)
    have hpower : 10 * 10 ^ ds.length ≤ 10 ^ 307 := by
      have hpowers := Nat.pow_le_pow_right (n := 10) (by decide) hlength
      rwa [Nat.pow_succ'] at hpowers
    have hroom : 10 * ofDigits ds + 9 ≤ 10 ^ 307 := le_trans (by omega) hpower
    have hleast : 3 * ulp ≤ 4 * (ds.length + 1) * ulp := mul_le_mul_of_nonneg_right (by linarith) ulp_pos.le
    have hmost : 4 * (ds.length + 1) * ulp ≤ 1 / 12 := by
      refine le_trans (mul_le_mul_of_nonneg_right (by linarith : _ ≤ (1228 : ℚ)) ulp_pos.le) ?_
      norm_num [ulp]
    have hmore := appendDigit_about hdigit hvalue hscale hroom hpower hleast hmost
    have hε : 4 * (ds.length + 1) * ulp + 4 * ulp = 4 * ((ds.length + 1 : Nat) + 1) * ulp := by
      push_cast
      ring
    rw [hε, ← Nat.pow_succ'] at hmore
    rw [List.foldl_append, List.length_append, List.length_singleton, ofDigits_concat]
    exact hmore

theorem roomy_part {ds : List Char} (h : ∀ c ∈ ds, c.isDigit = true) (hlength : ds.length ≤ 307) : Roomy (part ds) := by
  have hreach := thousand_le_reach
  constructor
  · intro hpos
    unfold part at hpos ⊢
    have hone : (1 : ℚ) ≤ ofDigits ds := by
      by_contra hnone
      have hzero : ofDigits ds = 0 := by
        by_contra hne
        exact hnone (by exact_mod_cast Nat.one_le_iff_ne_zero.mpr hne)
      simp [hzero] at hpos
    have hpowers : (10 : ℚ) ^ ds.length ≤ reach := pow_le_pow_right₀ (by norm_num) hlength
    exact div_le_div₀ (by positivity) hone (by positivity) hpowers
  · have := part_lt_one h
    linarith

/-- The quotient of digits and power, before it is stopped. -/
theorem quotient_about {ds : List Char} (h : ∀ c ∈ ds, c.isDigit = true) (hlength : ds.length ≤ 307) :
    About (3698 * ulp) ((ds.foldl appendDigit (0.0, 1.0)).1 / (ds.foldl appendDigit (0.0, 1.0)).2) (part ds) := by
  obtain ⟨hvalue, hscale⟩ := digits_about h hlength
  have hulp := ulp_pos
  have hlength' : (ds.length : ℚ) ≤ 307 := by exact_mod_cast hlength
  have hε : 4 * (ds.length + 1) * ulp ≤ 1232 * ulp := mul_le_mul_of_nonneg_right (by linarith) hulp.le
  have hquotient := (hvalue.mono (by positivity) hε).div (hscale.mono (by positivity) hε) (by positivity)
    (by positivity) (by simpa [part] using roomy_part h hlength) (by positivity) (by norm_num [ulp])
  rw [Nat.cast_pow] at hquotient
  exact hquotient.mono (part_nonneg ds) (by linarith)

/-- The greatest part of a second that the engine reads. -/
def stop : ℚ := 999 / 1000

theorem stop_about : About ulp 0.999 stop := by
  have h : (0.999 : Float).toModel.unpack = .finite .positive 8998192055486251 (-53) (by decide) := rfl
  refine ⟨_, .of_parts h (by decide) rfl, ?_, ?_⟩ <;> norm_num [stop, ulp]

/-- The part of a second that the engine reads. -/
def stopped (ds : List Char) : ℚ := min (part ds) stop

theorem stopped_nonneg (ds : List Char) : 0 ≤ stopped ds := le_min (part_nonneg ds) (by norm_num [stop])

theorem stopped_le (ds : List Char) : stopped ds ≤ stop := min_le_right _ _

/-- The fraction as the engine reads it. -/
theorem fractionOf_about {ds : List Char} (h : ∀ c ∈ ds, c.isDigit = true) (hlength : ds.length ≤ 307) :
    About (3698 * ulp) (fractionOf ds) (stopped ds) := by
  have hulp := ulp_pos
  obtain ⟨x, hx, hwithin⟩ := quotient_about h hlength
  obtain ⟨top, htop, hwithin'⟩ := stop_about.mono (by norm_num [stop]) (by linarith : ulp ≤ 3698 * ulp)
  refine ⟨min x top, ?_, hwithin.min hwithin' (by norm_num [ulp])⟩
  unfold fractionOf
  simp only
  split
  · rename_i hgt
    rwa [min_eq_right ((htop.lt_iff hx).mp hgt).le]
  · rename_i hle
    have hge := not_lt.mp fun hlt => hle ((htop.lt_iff hx).mpr hlt)
    rwa [min_eq_left hge]

/-! ## Seconds -/

theorem roomy_stopped {whole : Nat} {ds : List Char} (hwhole : whole ≤ 59) (h : ∀ c ∈ ds, c.isDigit = true)
    (hlength : ds.length ≤ 307) : Roomy (whole + stopped ds) := by
  have hnonneg := stopped_nonneg ds
  have hreach := thousand_le_reach
  have hreach' := inv_reach_le
  constructor
  · intro hpos
    by_cases hzero : whole = 0
    · subst hzero
      rw [Nat.cast_zero, zero_add] at hpos ⊢
      refine le_min ((roomy_part h hlength).low (lt_of_lt_of_le hpos (min_le_left _ _))) ?_
      exact hreach'.trans (by norm_num [stop])
    · have : (1 : ℚ) ≤ whole := by exact_mod_cast Nat.one_le_iff_ne_zero.mpr hzero
      linarith
  · have hwhole' : (whole : ℚ) ≤ 59 := by exact_mod_cast hwhole
    have hstop : stopped ds ≤ 1 := (stopped_le ds).trans (by norm_num [stop])
    linarith

/-- Seconds with a fraction. -/
theorem seconds_is {whole : Nat} {ds : List Char} (hwhole : whole ≤ 59) (h : ∀ c ∈ ds, c.isDigit = true)
    (hlength : ds.length ≤ 307) :
    ∃ w, Is (Float.ofNat whole + fractionOf ds) w ∧ |w - (whole + stopped ds)| ≤ 3940 * ulp := by
  have hulp := ulp_pos
  have hulp' : ulp ≤ 1 / 10000 := by norm_num [ulp]
  have hwhole' : (whole : ℚ) ≤ 59 := by exact_mod_cast hwhole
  have hstop : stopped ds ≤ 1 := (stopped_le ds).trans (by norm_num [stop])
  obtain ⟨a, ha, hwithin⟩ := ofNat_about (n := whole) (by omega)
  obtain ⟨b, hb, hwithin'⟩ := fractionOf_about h hlength
  have hsum := (hwithin.mono (by positivity) (by linarith : 3 * ulp ≤ 3698 * ulp)).add hwithin'
  have hrange := hsum.inRange (roomy_stopped hwhole h hlength) (add_nonneg (by positivity) (stopped_nonneg ds))
    (by norm_num [ulp])
  obtain ⟨z, hz, hrounded⟩ := ha.add hb hrange
  have ha' := abs_le.mp (hwithin.abs_sub_le (by positivity) hwhole')
  have hb' := abs_le.mp (hwithin'.abs_sub_le (by positivity) hstop)
  have hz' := abs_le.mp (hrounded.abs_sub_le hulp.le (by linarith : a + b ≤ 61))
  refine ⟨z, hz, abs_le.mpr ⟨?_, ?_⟩⟩ <;> linarith

/-! ## Thousandths -/

/-- Thousandths of a double, a half going up. -/
theorem thousandths_is {x : Float} {v : ℚ} (hx : Is x v) : thousandths x = ⌊1000 * v + 1 / 2⌋₊ := by
  have hvalue := Worth.ofFloat hx
  unfold thousandths
  rw [← hvalue]
  generalize Binary.ofFloat x = b
  simp only [Nat.pow_eq, ge_iff_le]
  split
  · rename_i hq
    have hwhole : 1000 * ((b.m : ℚ) * 2 ^ b.q) = (1000 * b.m * 2 ^ b.q.natAbs : Nat) := by
      have hpower : (2 : ℚ) ^ b.q = 2 ^ b.q.natAbs := by
        rw [← zpow_natCast, Int.natAbs_of_nonneg hq]
      push_cast
      rw [hpower]
      ring
    rw [hwhole, add_comm, Nat.floor_add_natCast (by norm_num), Nat.floor_eq_zero.mpr (by norm_num), Nat.zero_add]
  · rename_i hq
    have hquotient : 1000 * ((b.m : ℚ) * 2 ^ b.q) + 1 / 2 =
        ((2000 * b.m + 2 ^ b.q.natAbs : Nat) : ℚ) / (2 * 2 ^ b.q.natAbs : Nat) := by
      have hpower : (2 : ℚ) ^ b.q = (2 ^ b.q.natAbs)⁻¹ := by
        rw [← zpow_natCast, ← zpow_neg]
        congr 1
        omega
      push_cast
      rw [hpower]
      field_simp
      ring
    rw [hquotient, Nat.floor_div_natCast, Nat.floor_natCast]

/-- Milliseconds, whether they are shown at once or a zone has to be subtracted first. -/
theorem milliseconds_is (offset : Int) {x : Float} {v : ℚ} (hx : Is x v) (hv : v ≤ 61) :
    ∃ y, |y - (1000 * v + 1 / 2)| ≤ 125000 * ulp ∧ milliseconds offset x = ⌊y⌋₊ := by
  have hulp := ulp_pos
  have hulp' : ulp ≤ 1 / 1000000 := by norm_num [ulp]
  have hnonneg := hx.nonneg
  unfold milliseconds
  split
  · exact ⟨1000 * v + 1 / 2, by simpa using hulp.le, thousandths_is hx⟩
  · have hrange : InRange (v * 1000) := by
      intro hpos
      have hleast := hx.least (by linarith)
      have hdouble : (2 : ℚ) ^ (-1021 : Int) = 2 ^ (-1022 : Int) * 2 := by
        rw [← zpow_add_one₀ (by norm_num)]
        norm_num
      refine ⟨?_, (ordinary_between (v := 61000) (by norm_num) (by norm_num)).high.trans_le' (by linarith)⟩
      rw [hdouble]
      exact mul_le_mul hleast (by norm_num) (by norm_num) hnonneg
    obtain ⟨p, hp, hwithin⟩ := hx.mul thousand_is hrange
    have hp' := abs_le.mp (hwithin.abs_sub_le hulp.le (by linarith : v * 1000 ≤ 61000))
    have := hp.nonneg
    obtain ⟨y, hy, hwithin'⟩ := hp.add half_is fun _ => ordinary_between (by linarith) (by linarith)
    have hy' := abs_le.mp (hwithin'.abs_sub_le hulp.le (by linarith : p + 1 / 2 ≤ 61002))
    refine ⟨y, abs_le.mpr ⟨?_, ?_⟩, hy.floor ?_⟩ <;> linarith

/-- The double is the whole seconds and what is read of the part, to within a picosecond. -/
def Reads (x : Float) (whole : Nat) (ds : List Char) : Prop :=
  ∃ w, Is x w ∧ |w - (whole + stopped ds)| ≤ 3940 * ulp

theorem milliseconds_close {x : Float} {whole : Nat} {ds : List Char} (h : Reads x whole ds) (hwhole : whole ≤ 59)
    (offset : Int) :
    ∃ y, |y - (1000 * (whole + stopped ds) + 1 / 2)| < 1 / 10 ^ 9 ∧ milliseconds offset x = ⌊y⌋₊ := by
  obtain ⟨w, hw, hclose⟩ := h
  have hwhole' : (whole : ℚ) ≤ 59 := by exact_mod_cast hwhole
  have hstop : stopped ds ≤ 1 := (stopped_le ds).trans (by norm_num [stop])
  have hulp : 4065000 * ulp < 1 / 10 ^ 9 := by norm_num [ulp]
  have hulp' := ulp_pos
  have hclose := abs_le.mp hclose
  obtain ⟨y, hy, hfloor⟩ := milliseconds_is offset hw (by norm_num at hulp; linarith)
  have hy := abs_le.mp hy
  refine ⟨y, abs_lt.mpr ⟨?_, ?_⟩, hfloor⟩ <;> linarith

/-- What is left of the part of a second after its milliseconds. -/
def leftover (ds : List Char) : ℚ := 1000 * part ds - ⌊1000 * part ds⌋₊

/-- Less than half a millisecond is left over, or nothing that counts. -/
def Kept (ds : List Char) : Prop := stop ≤ part ds ∨ leftover ds + 1 / 10 ^ 9 ≤ 1 / 2

/-- More than half a millisecond is left over, and it counts. -/
def Raised (ds : List Char) : Prop := part ds < stop ∧ 1 / 2 + 1 / 10 ^ 9 ≤ leftover ds

theorem floor_last {ds : List Char} (hds : ∀ c ∈ ds, c.isDigit = true) (h : stop ≤ part ds) :
    ⌊1000 * part ds⌋₊ = 999 := by
  have hpart := part_lt_one hds
  unfold stop at h
  rw [Nat.floor_eq_iff (by linarith)]
  constructor
  · norm_num
    linarith
  · norm_num
    linarith

/-- There is room for one millisecond more. -/
theorem floor_raised {ds : List Char} (h : Raised ds) : ⌊1000 * part ds⌋₊ < 999 := by
  have hstop := h.1
  unfold stop at hstop
  rw [Nat.floor_lt (mul_nonneg (by norm_num) (part_nonneg ds))]
  push_cast
  linarith

/-- Of milliseconds alone nothing is left over. -/
theorem kept_of_length_le {ds : List Char} (h : ds.length ≤ 3) : Kept ds := by
  have hexact : 1000 * part ds = (ofDigits ds * 10 ^ (3 - ds.length) : Nat) := by
    have hthousand : (1000 : ℚ) = 10 ^ ds.length * 10 ^ (3 - ds.length) := by
      rw [← pow_add, Nat.add_sub_cancel' h]
      norm_num
    unfold part
    push_cast
    rw [hthousand]
    field_simp
  right
  unfold leftover
  rw [hexact, Nat.floor_natCast]
  norm_num

/-- The milliseconds are those of the text. -/
theorem milliseconds_kept {x : Float} {whole : Nat} {ds : List Char} (h : Reads x whole ds) (hwhole : whole ≤ 59)
    (hds : ∀ c ∈ ds, c.isDigit = true) (hkept : Kept ds) (offset : Int) :
    milliseconds offset x = 1000 * whole + ⌊1000 * part ds⌋₊ := by
  obtain ⟨y, hy, hfloor⟩ := milliseconds_close h hwhole offset
  have hy := abs_lt.mp hy
  have hstopped : (⌊1000 * part ds⌋₊ : ℚ) ≤ 1000 * stopped ds ∧
      1000 * stopped ds + 1 / 10 ^ 9 ≤ ⌊1000 * part ds⌋₊ + 1 / 2 := by
    unfold stopped
    by_cases hlast : stop ≤ part ds
    · rw [min_eq_right hlast, floor_last hds hlast]
      norm_num [stop]
    · rw [min_eq_left (not_le.mp hlast).le]
      have hleft := hkept.resolve_left hlast
      have hbelow := Nat.floor_le (mul_nonneg (by norm_num : (0 : ℚ) ≤ 1000) (part_nonneg ds))
      unfold leftover at hleft
      constructor <;> linarith
  have hnonneg : (0 : ℚ) ≤ 1000 * whole + ⌊1000 * part ds⌋₊ := by positivity
  rw [hfloor, Nat.floor_eq_iff (by linarith)]
  push_cast
  constructor <;> linarith

/-- The milliseconds are one more than those of the text. -/
theorem milliseconds_raised {x : Float} {whole : Nat} {ds : List Char} (h : Reads x whole ds) (hwhole : whole ≤ 59)
    (hraised : Raised ds) (offset : Int) : milliseconds offset x = 1000 * whole + (⌊1000 * part ds⌋₊ + 1) := by
  obtain ⟨y, hy, hfloor⟩ := milliseconds_close h hwhole offset
  obtain ⟨hstop, hleft⟩ := hraised
  have hy := abs_lt.mp hy
  have habove := Nat.lt_floor_add_one (1000 * part ds)
  have hnonneg : (0 : ℚ) ≤ 1000 * whole + ⌊1000 * part ds⌋₊ := by positivity
  unfold stopped at hy
  rw [min_eq_left hstop.le] at hy
  unfold leftover at hleft
  rw [hfloor, Nat.floor_eq_iff (by linarith)]
  push_cast
  constructor <;> linarith

theorem whole_reads {whole : Nat} (hwhole : whole ≤ 59) : Reads (Float.ofNat whole) whole [] := by
  have hulp := ulp_pos
  have hwhole' : (whole : ℚ) ≤ 59 := by exact_mod_cast hwhole
  have hstopped : stopped [] = 0 := by norm_num [stopped, part, ofDigits, stop]
  obtain ⟨w, hw, hwithin⟩ := ofNat_about (n := whole) (by omega)
  have := abs_le.mp (hwithin.abs_sub_le (by positivity) hwhole')
  refine ⟨w, hw, abs_le.mpr ?_⟩
  rw [hstopped]
  constructor <;> linarith

/-! ## Nanoseconds -/

theorem nanos_bounds {ds : List Char} (h : ∀ c ∈ ds, c.isDigit = true) :
    (nanosOf ds : ℚ) ≤ 10 ^ 9 * part ds ∧ 10 ^ 9 * part ds < nanosOf ds + 1 := by
  by_cases hlength : ds.length ≤ 9
  · have hexact : 10 ^ 9 * part ds = nanosOf ds := by
      unfold part nanosOf
      rw [List.take_of_length_le hlength]
      push_cast
      rw [pow_sub₀ _ (by norm_num) hlength]
      field_simp
    rw [hexact]
    exact ⟨le_refl _, lt_add_one _⟩
  · have hkept : (ds.take 9).length = 9 := List.length_take_of_le (by omega)
    have hrest : ofDigits (ds.drop 9) < 10 ^ (ds.drop 9).length := ofDigits_lt fun c hc => h c (List.mem_of_mem_drop hc)
    have hvalue : 10 ^ 9 * part ds = nanosOf ds + (ofDigits (ds.drop 9) : ℚ) / 10 ^ (ds.drop 9).length := by
      unfold part nanosOf
      rw [hkept, ← List.take_append_drop 9 ds, ofDigits_append, List.length_append, List.take_append_drop, hkept]
      push_cast
      rw [pow_add]
      field_simp
    have hbelow : (ofDigits (ds.drop 9) : ℚ) / 10 ^ (ds.drop 9).length < 1 := by
      rw [div_lt_one (by positivity)]
      exact_mod_cast hrest
    rw [hvalue]
    exact ⟨le_add_of_nonneg_right (by positivity), by linarith⟩

theorem floor_part {ds : List Char} (h : ∀ c ∈ ds, c.isDigit = true) : ⌊1000 * part ds⌋₊ = nanosOf ds / 1000000 := by
  obtain ⟨hlow, hhigh⟩ := nanos_bounds h
  have hfloor : 1000000 * (nanosOf ds / 1000000) ≤ nanosOf ds := Nat.mul_div_le _ _
  have hceil : nanosOf ds + 1 ≤ 1000000 * (nanosOf ds / 1000000 + 1) := by omega
  generalize nanosOf ds / 1000000 = ms at hfloor hceil
  have hfloor : (1000000 : ℚ) * ms ≤ nanosOf ds := by exact_mod_cast hfloor
  have hceil : (nanosOf ds : ℚ) + 1 ≤ 1000000 * (ms + 1) := by exact_mod_cast hceil
  rw [Nat.floor_eq_iff (mul_nonneg (by norm_num) (part_nonneg ds))]
  constructor <;> linarith

end DocQuery.Timestamp
