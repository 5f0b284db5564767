/-
  DocQuery.Proofs.Value.Equality — which values count as equal.

  Values are equal when they are the same, both undefined, or numbers, one a double at least, that differ by less
  than the tolerance (`beq_iff`). So equality has no direction, and every value is equal to itself unless it is an
  infinite double. It is handed on from value to value except where a tolerance is used twice: in a row of small
  numbers whose ends are too far apart, and around a double that two large integers are both rounded to (`Drift`).
  Queries, parameters and compiled queries inherit all of this, constant by constant (`equality_up_to_drift`).
-/

import DocQuery.Proofs.Double.Integers

namespace DocQuery.Value

open Double (tolerance)

def isFloat : Value → Bool
  | .float _ => true
  | _ => false

/-- The number that a value is compared as. -/
def number : Value → Option ℚ
  | .integer n => Double.number (nearest n)
  | .float x => Double.number x
  | _ => none

/-- The values that count as equal. -/
inductive Same : Value → Value → Prop
  | itself {a : Value} (h : a.isFloat = false) : Same a a
  | undefined {x y : Float} (hx : x.isNaN = true) (hy : y.isNaN = true) : Same (.float x) (.float y)
  | close {a b : Value} {p q : ℚ} (h : a.isFloat = true ∨ b.isFloat = true) (ha : a.number = some p)
      (hb : b.number = some q) (hclose : |p - q| < tolerance) : Same a b

/-- Values that are no doubles are compared exactly. -/
theorem beq_exact {a b : Value} (ha : a.isFloat = false) (hb : b.isFloat = false) : beq a b = true ↔ a = b := by
  cases a with
  | float x => cases ha
  | _ =>
    cases b with
    | float y => cases hb
    | _ => simp [beq]

theorem same_of_beq {a b : Value} (h : beq a b = true) : Same a b := by
  by_cases hexact : a.isFloat = false ∧ b.isFloat = false
  · obtain rfl := (beq_exact hexact.1 hexact.2).mp h
    exact .itself hexact.1
  · cases a with
    | integer m =>
      cases b with
      | float x =>
        obtain ⟨p, q, hp, hq, hclose⟩ := Double.closeTo_iff.mp h
        exact .close (.inr rfl) hp hq hclose
      | _ => exact absurd ⟨rfl, rfl⟩ hexact
    | float x =>
      cases b with
      | integer n =>
        obtain ⟨p, q, hp, hq, hclose⟩ := Double.closeTo_iff.mp h
        exact .close (.inl rfl) hq hp (by rwa [abs_sub_comm])
      | float y =>
        rcases Bool.or_eq_true_iff.mp h with hnan | hclose
        · obtain ⟨hx, hy⟩ := Bool.and_eq_true_iff.mp hnan
          exact .undefined hx hy
        · obtain ⟨p, q, hp, hq, hclose⟩ := Double.closeTo_iff.mp hclose
          exact .close (.inl rfl) hp hq hclose
      | _ => cases h
    | _ =>
      cases b with
      | float y => cases h
      | _ => exact absurd ⟨rfl, rfl⟩ hexact

theorem beq_of_close {a b : Value} {p q : ℚ} (h : a.isFloat = true ∨ b.isFloat = true) (ha : a.number = some p)
    (hb : b.number = some q) (hclose : |p - q| < tolerance) : beq a b = true := by
  cases a with
  | integer m =>
    cases b with
    | integer n => exact absurd h (by simp [isFloat])
    | float y => exact Double.closeTo_iff.mpr ⟨p, q, ha, hb, hclose⟩
    | _ => cases hb
  | float x =>
    cases b with
    | integer n => exact Double.closeTo_iff.mpr ⟨q, p, hb, ha, by rwa [abs_sub_comm]⟩
    | float y => exact Bool.or_eq_true_iff.mpr (.inr (Double.closeTo_iff.mpr ⟨p, q, ha, hb, hclose⟩))
    | _ => cases hb
  | _ => cases ha

theorem beq_iff {a b : Value} : (a == b) = true ↔ Same a b := by
  constructor
  · exact same_of_beq
  · intro h
    show beq a b = true
    cases h with
    | itself h => exact (beq_exact h h).mpr rfl
    | undefined hx hy => exact Bool.or_eq_true_iff.mpr (.inl (Bool.and_eq_true_iff.mpr ⟨hx, hy⟩))
    | close h ha hb hclose => exact beq_of_close h ha hb hclose

/-! ## One value with itself, and two either way round -/

/-- No infinite double. -/
def Bounded : Value → Prop
  | .float x => x.isInf = false
  | _ => True

theorem Same.symm {a b : Value} (h : Same a b) : Same b a := by
  cases h with
  | itself h => exact .itself h
  | undefined hx hy => exact .undefined hy hx
  | close h ha hb hclose => exact .close h.symm hb ha (by rwa [abs_sub_comm])

theorem tolerance_pos : 0 < tolerance := by norm_num [tolerance]

theorem Same.refl {a : Value} (h : a.Bounded) : Same a a := by
  cases a with
  | float x =>
    cases hx : Double.number x with
    | none =>
      have hnan := Double.isNaN_of_number hx h
      exact .undefined hnan hnan
    | some p => exact .close (.inl rfl) hx hx (by simpa using tolerance_pos)
  | _ => exact .itself rfl

/-! ## Three values in a row -/

/-- The rows of three values that equality is not handed on through. -/
inductive Drift : Value → Value → Value → Prop
  /-- Small numbers, the outer ones too far apart. -/
  | spread {a b c : Value} {p q r : ℚ} (h : a.isFloat = true ∨ c.isFloat = true) (ha : a.number = some p)
      (hb : b.number = some q) (hc : c.number = some r) (hp : |p| ≤ 1) (hq : |q| ≤ 1) (hr : |r| ≤ 1)
      (hfar : tolerance ≤ |p - r|) : Drift a b c
  /-- Integers that both are rounded to the double between them. -/
  | rounding {m n : Int64} {x : Float} {q : ℚ} (hne : m ≠ n) (hm : 2 ^ 53 ≤ m.toInt.natAbs)
      (hn : 2 ^ 53 ≤ n.toInt.natAbs) (hmq : (integer m).number = some q) (hx : (float x).number = some q)
      (hnq : (integer n).number = some q) : Drift (.integer m) (.float x) (.integer n)

theorem Same.not_drift {a b c : Value} (h : Same a c) : ¬ Drift a b c := by
  intro hdrift
  cases hdrift with
  | spread hfloat ha hb hc hp hq hr hfar =>
    cases h with
    | itself h =>
      rw [h] at hfloat
      simp at hfloat
    | undefined hx hy =>
      cases (Double.number_of_isNaN hx).symm.trans ha
    | close h ha' hc' hclose =>
      rw [ha] at ha'
      rw [hc] at hc'
      cases ha'
      cases hc'
      exact absurd hclose (not_lt.mpr hfar)
  | rounding hne =>
    cases h with
    | itself h => exact hne rfl
    | close h => simp [isFloat] at h

/-- An integer that a different double is close to would be small, and is not if it is rounded. -/
theorem eq_of_close_large {n : Int64} {x : Float} {p q : ℚ} (hn : (integer n).number = some p)
    (hx : (float x).number = some q) (hclose : |p - q| < tolerance) (hlarge : 2 ^ 53 ≤ n.toInt.natAbs) : p = q := by
  by_contra hne
  have hsmall := Double.small_of_close hn hx hne hclose
  obtain ⟨k, hk, -, hsize⟩ := Double.nearest_number n
  obtain rfl : p = k := Option.some.inj (hn.symm.trans hk)
  have hsmall : |k| ≤ 1 := by exact_mod_cast hsmall
  have hsize := hsize hlarge
  rw [Int.abs_eq_natAbs] at hsmall
  omega

/-- Two integers that one double is close to are the same or both rounded to it. -/
theorem same_or_drift_of_integers {m n : Int64} {x : Float} {p q r : ℚ} (hm : (integer m).number = some p)
    (hx : (float x).number = some q) (hn : (integer n).number = some r) (hpq : |p - q| < tolerance)
    (hqr : |q - r| < tolerance) : Same (.integer m) (.integer n) ∨ Drift (.integer m) (.float x) (.integer n) := by
  by_cases hne : m = n
  · rw [hne]
    exact .inl (.itself rfl)
  obtain ⟨k, hk, hexact, hlarge⟩ := Double.nearest_number m
  obtain ⟨l, hl, hexact', hlarge'⟩ := Double.nearest_number n
  obtain rfl : p = k := Option.some.inj (hm.symm.trans hk)
  obtain rfl : r = l := Option.some.inj (hn.symm.trans hl)
  have hkl : k = l := by
    have hfew : tolerance < 1 / 2 := by norm_num [tolerance]
    have hdistance : |(k : ℚ) - l| < 1 := by linarith [abs_sub_le (k : ℚ) q l]
    have hdistance : |k - l| < 1 := by exact_mod_cast hdistance
    have := Int.abs_lt_one_iff.mp hdistance
    omega
  have hsizes : 2 ^ 53 ≤ m.toInt.natAbs ∧ 2 ^ 53 ≤ n.toInt.natAbs := by
    have hvalues : m.toInt ≠ n.toInt := fun h => hne (Int64.toInt_inj.mp h)
    omega
  have hround := eq_of_close_large hm hx hpq hsizes.1
  have hround' := eq_of_close_large hn hx (by rwa [abs_sub_comm]) hsizes.2
  exact .inr (.rounding hne hsizes.1 hsizes.2 (hround ▸ hm) hx (hround' ▸ hn))

theorem double_of_number {a : Value} {p : ℚ} (h : a.number = some p) : ∃ x, Double.number x = some p := by
  cases a with
  | integer n => exact ⟨nearest n, h⟩
  | float x => exact ⟨x, h⟩
  | _ => cases h

theorem integer_of_number {a : Value} {p : ℚ} (h : a.number = some p) (hfloat : ¬ a.isFloat = true) :
    ∃ n, a = .integer n := by
  cases a with
  | integer n => exact ⟨n, rfl⟩
  | float x => exact absurd rfl hfloat
  | _ => cases h

theorem same_or_drift_of_close {a b c : Value} {p q r : ℚ} (h : a.isFloat = true ∨ b.isFloat = true)
    (ha : a.number = some p) (hb : b.number = some q) (hc : c.number = some r) (hpq : |p - q| < tolerance)
    (hqr : |q - r| < tolerance) : Same a c ∨ Drift a b c := by
  by_cases hfloat : a.isFloat = true ∨ c.isFloat = true
  · by_cases hpr : |p - r| < tolerance
    · exact .inl (.close hfloat ha hc hpr)
    · have hpq' : p ≠ q := by
        rintro rfl
        exact hpr hqr
      have hqr' : q ≠ r := by
        rintro rfl
        exact hpr hpq
      obtain ⟨x, hx⟩ := double_of_number ha
      obtain ⟨y, hy⟩ := double_of_number hb
      obtain ⟨z, hz⟩ := double_of_number hc
      have hp := Double.small_of_close hx hy hpq' hpq
      have hq := Double.small_of_close hy hz hqr' hqr
      have hr := Double.small_of_close hz hy hqr'.symm (by rwa [abs_sub_comm])
      exact .inr (.spread hfloat ha hb hc hp hq hr (not_lt.mp hpr))
  · rw [not_or] at hfloat
    obtain ⟨m, rfl⟩ := integer_of_number ha hfloat.1
    obtain ⟨n, rfl⟩ := integer_of_number hc hfloat.2
    cases b with
    | float x => exact same_or_drift_of_integers ha hb hc hpq hqr
    | _ => simp [isFloat] at h

theorem Same.trans {a b c : Value} (h : Same a b) (h' : Same b c) : Same a c ∨ Drift a b c := by
  cases h with
  | itself => exact .inl h'
  | undefined hx hy =>
    cases h' with
    | itself h => cases h
    | undefined hx' hy' => exact .inl (.undefined hx hy')
    | close h' hb hc hclose => cases (Double.number_of_isNaN hy).symm.trans hb
  | close h ha hb hclose =>
    cases h' with
    | itself => exact .inl (.close h ha hb hclose)
    | undefined hx hy => cases (Double.number_of_isNaN hx).symm.trans hb
    | close h' hb' hc hclose' =>
      cases hb.symm.trans hb'
      exact same_or_drift_of_close h ha hb hc hclose hclose'

theorem Same.trans_iff {a b c : Value} (h : Same a b) (h' : Same b c) : Same a c ↔ ¬ Drift a b c :=
  ⟨Same.not_drift, (h.trans h').resolve_right⟩

/-! ## Values of larger things -/

/-- Three rows of values that drift at one place. -/
inductive Drifts : List Value → List Value → List Value → Prop
  | here {a b c : Value} {k l m : List Value} (h : Drift a b c) : Drifts (a :: k) (b :: l) (c :: m)
  | there {a b c : Value} {k l m : List Value} (h : Drifts k l m) : Drifts (a :: k) (b :: l) (c :: m)

theorem forall₂_same_trans_iff {k l m : List Value} (h : List.Forall₂ Same k l) (h' : List.Forall₂ Same l m) :
    List.Forall₂ Same k m ↔ ¬ Drifts k l m := by
  induction h generalizing m with
  | nil =>
    cases h'
    exact iff_of_true .nil nofun
  | @cons a b k l hab hkl ih =>
    cases h' with
    | @cons _ c _ m hbc hlm =>
      rw [List.forall₂_cons, hab.trans_iff hbc, ih hlm]
      constructor
      · intro ⟨hhere, hthere⟩ hdrifts
        cases hdrifts with
        | here h => exact hhere h
        | there h => exact hthere h
      · intro hnone
        exact ⟨fun h => hnone (.here h), fun h => hnone (.there h)⟩

/-- An equality that inherits the laws of the equality of values: the things that it compares hold `values`. -/
structure Inherited {α : Type} [BEq α] (values : α → List Value) : Prop where
  refl : ∀ a, (∀ v ∈ values a, v.Bounded) → (a == a) = true
  symm : ∀ a b : α, (a == b) = (b == a)
  trans : ∀ a b c : α, (a == b) = true → (b == c) = true →
    ((a == c) = true ↔ ¬ Drifts (values a) (values b) (values c))

/-- Things that are compared by a part that has to be the same and by their values inherit the laws. -/
theorem inherited_of_frame {α β : Type} [BEq α] {values : α → List Value} (frame : α → β)
    (h : ∀ a b : α, (a == b) = true ↔ frame a = frame b ∧ List.Forall₂ Same (values a) (values b)) :
    Inherited values where
  refl a hbounded := (h a a).mpr ⟨rfl, List.forall₂_same.mpr fun v hv => .refl (hbounded v hv)⟩
  symm a b := by
    have hflip : ∀ k l, List.Forall₂ Same k l → List.Forall₂ Same l k :=
      fun k l hkl => (hkl.imp fun _ _ => Same.symm).flip
    rw [Bool.eq_iff_iff, h, h, eq_comm]
    exact and_congr_right fun _ => ⟨hflip _ _, hflip _ _⟩
  trans a b c hab hbc := by
    obtain ⟨hframe, hvalues⟩ := (h a b).mp hab
    obtain ⟨hframe', hvalues'⟩ := (h b c).mp hbc
    rw [h, forall₂_same_trans_iff hvalues hvalues']
    exact and_iff_right (hframe.trans hframe')

theorem inherited_value : Inherited fun v : Value => [v] :=
  inherited_of_frame (fun _ => ()) fun a b => by simp [beq_iff]

/-- A row of three doubles, and one with integers beyond 53 bits, that equality is not handed on through. -/
theorem equality_not_transitive :
    ((float 0.0 == float 1.5e-16) = true ∧ (float 1.5e-16 == float 3e-16) = true ∧ (float 0.0 == float 3e-16) = false) ∧
      (integer 9007199254740993 == float 9007199254740992.0) = true ∧
        (float 9007199254740992.0 == integer 9007199254740992) = true ∧
          (integer 9007199254740993 == integer 9007199254740992) = false := by
  decide +kernel

end DocQuery.Value
