/-
  DocQuery.Proofs.Value.Literal — the literals that stand for values.

  Null, an integer, a boolean, a guid and an instant of the years 0 to 9999 (`Legible`) are read back from their
  text, whatever blanks stand around it, and a literal that is none of the recognised forms is a text as it
  stands (`ofLiteral_display`). The forms are tried in a fixed order. Instants and guids have too many hyphens for
  a number (`ofLiteral_of_hyphens`), and a guid has none where an instant has its first. A leap second within a
  minute is not legible: its text is that of the second after it, and no literal is read as it
  (`hidden_leap_second`).
-/

import DocQuery.Proofs.Decimal.Numerals
import DocQuery.Proofs.Guid
import DocQuery.Proofs.Instant.Written
import DocQuery.Proofs.Name
import DocQuery.Proofs.Text.Trim
import DocQuery.Value.Literal

namespace DocQuery.Value

open Text (isBlank)

/-- The values whose text tells them from all others. An instant has a year of four digits, and a leap second is
the last of its minute. -/
inductive Legible : Value → Prop
  | null : Legible .null
  | integer (n : Int64) : Legible (.integer n)
  | boolean (b : Bool) : Legible (.boolean b)
  | guid (g : Guid) : Legible (.guid g)
  | instant {t : Instant} (h : t.Valid) (hleap : t.Timely) (hyear : 0 ≤ t.date.year) (hyear' : t.date.year ≤ 9999) :
    Legible (.instant t)

/-! ## Forms that a text does not have -/

section
variable {s name : String} {c : Char}

theorem ne_of_mem (h : c ∈ s.toList) (hc : c ∉ name.toList) : (s == name) = false := by
  rw [beq_eq_false_iff_ne]
  intro he
  rw [he] at h
  exact hc h

theorem null?_eq_none (h : c ∈ s.toList) (hc : c.toLower ∉ ['n', 'u', 'l', 'l']) : null? s = none := by
  have hlower : (Text.lower "null").toList = ['n', 'u', 'l', 'l'] := by decide
  simp only [null?, Text.not_sameIgnoringCase_of_mem h (hlower ▸ hc), Bool.false_eq_true, if_false]

theorem boolean?_eq_none (h : c ∈ s.toList) (htrue : c ∉ ['t', 'r', 'u', 'e']) (hfalse : c ∉ ['f', 'a', 'l', 's', 'e']) :
    boolean? s = none := by
  have hne : (s == "true") = false := ne_of_mem h htrue
  have hne' : (s == "false") = false := ne_of_mem h hfalse
  simp only [boolean?, hne, hne', Bool.false_eq_true, if_false]

end

/-- Behind a first character that is no sign, two hyphens leave only instants and guids. -/
theorem ofLiteral_of_hyphens {text s : String} (htrim : Text.trim text = s)
    (hs : Decimal.signed s.toList = (false, s.toList)) (h : 2 ≤ s.toList.count '-') :
    ofLiteral text = (instant? s <|> guid? s).getD (.text text) := by
  have hmem : '-' ∈ s.toList := List.count_pos_iff.mp (by omega)
  have hnull : null? s = none := null?_eq_none hmem (by decide)
  have hboolean : boolean? s = none := boolean?_eq_none hmem (by decide) (by decide)
  obtain ⟨hinteger, hfloat⟩ := Decimal.no_number_of_hyphens hs h
  have hinteger' : integer? s = none := by rw [integer?, hinteger, Option.map_none]
  have hfloat' : finiteFloat? s = none := by rw [finiteFloat?, hfloat, Option.filter_none, Option.map_none]
  unfold ofLiteral
  simp only [htrim, hnull, hinteger', hfloat', hboolean]
  rfl

/-! ## Values as they are written -/

/-- A text that no blank opens or closes. -/
def Tight (s : List Char) : Prop :=
  (∀ c, s.head? = some c → isBlank c = false) ∧ ∀ c, s.getLast? = some c → isBlank c = false

theorem trim_around {before s after : String} (hbefore : ∀ c ∈ before.toList, isBlank c = true)
    (hafter : ∀ c ∈ after.toList, isBlank c = true) (hs : Tight s.toList) : Text.trim (before ++ s ++ after) = s := by
  rw [Text.trim, String.toList_append, String.toList_append, List.append_assoc,
    Text.trimChars_between hbefore hafter hs.1 hs.2, String.ofList_toList]

theorem tight_of_forall {s : List Char} (h : ∀ c ∈ s, isBlank c = false) : Tight s :=
  ⟨fun c hc => h c (List.mem_of_mem_head? hc), fun c hc => h c (List.mem_of_mem_getLast? hc)⟩

theorem tight_of_any {s : List Char} (h : s.any isBlank = false) : Tight s :=
  tight_of_forall fun c hc => by simpa using List.any_eq_false.mp h c hc

theorem tight_integer (n : Int) : Tight (toString n).toList := by
  refine tight_of_forall fun c hc => ?_
  rw [Decimal.toList_toString] at hc
  rcases List.mem_append.mp hc with hsign | hdigit
  · split at hsign
    · rw [List.mem_singleton.mp hsign]
      decide
    · cases hsign
  · exact Name.not_blank_of_isDigit (Decimal.digits_isDigit _ c hdigit)

theorem tight_guid (g : Guid) : Tight g.text.toList := by
  have hdigit : ∀ d, isBlank (Guid.hexChar d) = false := by decide
  refine tight_of_forall fun c hc => ?_
  rcases Guid.mem_text hc with rfl | ⟨d, rfl⟩
  · decide
  · exact hdigit d

/-- The parts of the text of an instant that matter here: the first digit, two hyphens and the last nought. -/
theorem instant_text {t : Instant} (h : t.Valid) (hleap : t.Timely) (hyear : 0 ≤ t.date.year)
    (hyear' : t.date.year ≤ 9999) : (∃ c, t.text.toList.head? = some c ∧ c.isDigit = true) ∧
      2 ≤ t.text.toList.count '-' ∧ t.text.toList.getLast? = some '0' := by
  obtain ⟨s, htext, -⟩ := Instant.stamp_of_valid h hleap hyear hyear'
  obtain ⟨c, r, hchars, hdigit⟩ := s.year.opening
  have htoList : t.text.toList = s.chars := by rw [← htext, Instant.Stamp.text, String.toList_ofList]
  refine ⟨⟨c, ?_, hdigit⟩, ?_, ?_⟩
  · rw [htoList, Instant.Stamp.chars, hchars, List.cons_append, List.head?_cons]
  · simp only [htoList, Instant.Stamp.chars, List.count_append, List.count_cons_self]
    omega
  · rw [Instant.text, Instant.rfc3339, String.toList_ofList, List.getLast?_append]
    rfl

theorem tight_instant {t : Instant} (h : t.Valid) (hleap : t.Timely) (hyear : 0 ≤ t.date.year)
    (hyear' : t.date.year ≤ 9999) : Tight t.text.toList := by
  obtain ⟨⟨c, hhead, hdigit⟩, -, hlast⟩ := instant_text h hleap hyear hyear'
  constructor
  · intro d hd
    rw [hhead] at hd
    cases hd
    exact Name.not_blank_of_isDigit hdigit
  · intro d hd
    rw [hlast] at hd
    cases hd
    decide

theorem tight_display {v : Value} (hv : Legible v) : Tight v.display.toList := by
  cases hv with
  | null => exact tight_of_any (by decide)
  | integer n => exact tight_integer n.toInt
  | boolean b =>
    cases b with
    | false => exact tight_of_any (by decide)
    | true => exact tight_of_any (by decide)
  | guid g => exact tight_guid g
  | instant h hleap hyear hyear' => exact tight_instant h hleap hyear hyear'

/-! ## Values as they are read -/

theorem ofLiteral_integer {text : String} {n : Int64} (htrim : Text.trim text = toString n.toInt) :
    ofLiteral text = .integer n := by
  obtain ⟨d, r, hdigits, hd, -⟩ := Decimal.toDigits_cons n.toInt.natAbs
  have hmem : d ∈ (toString n.toInt).toList := by
    rw [Decimal.toList_toString, hdigits]
    exact List.mem_append_right _ (List.mem_cons_self ..)
  have hnull : null? (toString n.toInt) = none := by
    refine null?_eq_none hmem ?_
    rw [Text.toLower_digit hd]
    intro hname
    simp only [List.mem_cons, List.not_mem_nil, or_false] at hname
    rcases hname with rfl | rfl | rfl | rfl <;> exact absurd hd (by decide)
  have hinteger : integer? (toString n.toInt) = some (.integer n) := by
    rw [integer?, Decimal.int64?_text, Option.map_some]
  unfold ofLiteral
  simp only [htrim, hnull, hinteger]
  rfl

theorem ofLiteral_boolean {text : String} {b : Bool} (htrim : Text.trim text = (boolean b).display) :
    ofLiteral text = .boolean b := by
  unfold ofLiteral
  rw [htrim]
  cases b with
  | false => rfl
  | true => rfl

theorem signed_guid (g : Guid) : Decimal.signed g.text.toList = (false, g.text.toList) := by
  have hsign : ∀ d, Guid.hexChar d ≠ '-' ∧ Guid.hexChar d ≠ '+' := by decide
  obtain ⟨d, hhead⟩ := g.text_head
  unfold Decimal.signed
  split
  · rename_i heq
    rw [heq] at hhead
    exact absurd (Option.some.inj hhead).symm (hsign d).1
  · rename_i heq
    rw [heq] at hhead
    exact absurd (Option.some.inj hhead).symm (hsign d).2
  · rfl

/-- Where an instant has the hyphen behind its year, a guid has a digit. -/
theorem instant?_guid (g : Guid) : Instant.read? g.text = none := by
  by_contra hread
  obtain ⟨i, hi⟩ := Option.ne_none_iff_exists'.mp hread
  obtain ⟨s, htext, -⟩ := Instant.stamp_of_read hi
  obtain ⟨d, hfifth⟩ := g.text_fifth
  have hhyphen : g.text.toList[4]? = some '-' := by
    rw [← htext, Instant.Stamp.text, String.toList_ofList, Instant.Stamp.chars,
      List.getElem?_append_right (Nat.le_of_eq s.year.length), s.year.length]
    rfl
  have hne : ∀ d, Guid.hexChar d ≠ '-' := by decide
  rw [hfifth] at hhyphen
  exact hne d (Option.some.inj hhyphen)

theorem ofLiteral_guid {text : String} {g : Guid} (htrim : Text.trim text = g.text) : ofLiteral text = .guid g := by
  rw [ofLiteral_of_hyphens htrim (signed_guid g) g.count_hyphen, instant?, instant?_guid, guid?, g.read?_text]
  rfl

theorem ofLiteral_instant {text : String} {t : Instant} (h : t.Valid) (hleap : t.Timely) (hyear : 0 ≤ t.date.year)
    (hyear' : t.date.year ≤ 9999) (htrim : Text.trim text = t.text) : ofLiteral text = .instant t := by
  obtain ⟨⟨c, hhead, hdigit⟩, hhyphens, -⟩ := instant_text h hleap hyear hyear'
  have hsigned : Decimal.signed t.text.toList = (false, t.text.toList) := by
    rw [List.eq_cons_of_mem_head? hhead]
    exact Decimal.signed_digit hdigit _
  rw [ofLiteral_of_hyphens htrim hsigned hhyphens, instant?,
    Instant.read?_text_of_valid h hleap hyear hyear']
  rfl

theorem ofLiteral_legible {text : String} {v : Value} (hv : Legible v) (htrim : Text.trim text = v.display) :
    ofLiteral text = v := by
  cases hv with
  | null =>
    unfold ofLiteral
    rw [htrim]
    rfl
  | integer n => exact ofLiteral_integer htrim
  | boolean b => exact ofLiteral_boolean htrim
  | guid g => exact ofLiteral_guid htrim
  | instant h hleap hyear hyear' => exact ofLiteral_instant h hleap hyear hyear' htrim

/-! ## Texts -/

/-- An instant among the values is one that can be read off a text. -/
def Readable (v : Value) : Prop := ∀ t, v = .instant t → t.Valid ∧ t.Timely

/-- What is recognised, if anything is, is no text, and can be read off one. -/
def Recognised (o : Option Value) : Prop := ∀ v, o = some v → v.asText? = none ∧ v.Readable

theorem Recognised.orElse {o o' : Option Value} (h : Recognised o) (h' : Recognised o') : Recognised (o <|> o') := by
  cases o with
  | none => exact h'
  | some v => exact h

theorem recognised_map {α : Type} {f : α → Value} {o : Option α}
    (hf : ∀ a, o = some a → (f a).asText? = none ∧ (f a).Readable) : Recognised (o.map f) := by
  intro v hv
  obtain ⟨a, ha, rfl⟩ := Option.map_eq_some_iff.mp hv
  exact hf a ha

theorem recognised_null? (t : String) : Recognised (null? t) := by
  intro v hv
  unfold null? at hv
  split at hv
  · cases hv
    exact ⟨rfl, nofun⟩
  · cases hv

theorem recognised_boolean? (t : String) : Recognised (boolean? t) := by
  intro v hv
  unfold boolean? at hv
  split at hv
  · cases hv
    exact ⟨rfl, nofun⟩
  · split at hv
    · cases hv
      exact ⟨rfl, nofun⟩
    · cases hv

theorem recognised_instant? (t : String) : Recognised (instant? t) :=
  recognised_map fun _ hi => ⟨rfl, fun _ e => Value.instant.inj e ▸ Instant.valid_of_read hi⟩

/-- A literal is what is recognised, or a text as it stands. -/
theorem ofLiteral_cases (text : String) : ∃ o, Recognised o ∧ ofLiteral text = o.getD (.text text) := by
  unfold ofLiteral
  refine ⟨_, ?_, rfl⟩
  refine (recognised_null? _).orElse ?_
  refine (recognised_map (f := Value.integer) fun _ _ => ⟨rfl, nofun⟩).orElse ?_
  refine (recognised_map (f := Value.float) fun _ _ => ⟨rfl, nofun⟩).orElse ?_
  refine (recognised_boolean? _).orElse ?_
  refine (recognised_instant? _).orElse ?_
  exact recognised_map (f := Value.guid) fun _ _ => ⟨rfl, nofun⟩

theorem eq_of_ofLiteral {text s : String} (h : ofLiteral text = .text s) : s = text := by
  obtain ⟨o, ho, hliteral⟩ := ofLiteral_cases text
  rw [hliteral] at h
  cases o with
  | none =>
    cases h
    rfl
  | some v =>
    have hv := (ho v rfl).1
    rw [show v = .text s from h] at hv
    cases hv

theorem readable_ofLiteral (text : String) : (ofLiteral text).Readable := by
  obtain ⟨o, ho, hliteral⟩ := ofLiteral_cases text
  rw [hliteral]
  cases o with
  | none => exact nofun
  | some v => exact (ho v rfl).2

/-! ## Literals -/

/-- The text of a legible value denotes it, with any blanks around it. No literal denotes an instant that a text has
no place for, and nothing is taken from a literal that is a text. -/
theorem ofLiteral_display :
    (∀ v, Legible v → ∀ before after : String, (∀ c ∈ before.toList, isBlank c = true) →
      (∀ c ∈ after.toList, isBlank c = true) → ofLiteral (before ++ v.display ++ after) = v) ∧
    (∀ text t, ofLiteral text = .instant t → t.Valid ∧ t.Timely) ∧
    ∀ text s, ofLiteral text = .text s → s = text := by
  refine ⟨?_, fun text => readable_ofLiteral text, fun text s => eq_of_ofLiteral⟩
  intro v hv before after hbefore hafter
  exact ofLiteral_legible hv (trim_around hbefore hafter (tight_display hv))

/-- A leap second between blanks, and a text that only begins like a number. -/
theorem leap_second_and_text :
    ofLiteral ("\t" ++ (instant ⟨⟨2016, 12, 31⟩, 23, 59, 59, 1500000000⟩).display ++ " \n") =
      .instant ⟨⟨2016, 12, 31⟩, 23, 59, 59, 1500000000⟩ ∧ ofLiteral " 12 items" = .text " 12 items" := by
  constructor
  · have hvalid : Instant.Valid ⟨⟨2016, 12, 31⟩, 23, 59, 59, 1500000000⟩ :=
      ⟨by decide, by decide, by decide, by decide, by decide⟩
    have hbefore : "\t".toList.all isBlank = true := by decide
    have hafter : " \n".toList.all isBlank = true := by decide
    exact ofLiteral_display.1 _ (.instant hvalid (by decide) (by decide) (by decide)) "\t" " \n"
      (List.all_eq_true.mp hbefore) (List.all_eq_true.mp hafter)
  · obtain ⟨s, hs⟩ : ∃ s, ofLiteral " 12 items" = .text s := ⟨_, rfl⟩
    rw [hs, ofLiteral_display.2.2 _ s hs]

/-- A third of a second into a leap second within a minute, the text is that of the next second, and so is what it
denotes. -/
theorem hidden_leap_second : Instant.Valid ⟨⟨2015, 6, 30⟩, 23, 56, 4, 1333333333⟩ ∧
    (instant ⟨⟨2015, 6, 30⟩, 23, 56, 4, 1333333333⟩).display = "2015-06-30T23:56:05.333333333+00:00" ∧
    ofLiteral "2015-06-30T23:56:05.333333333+00:00" = .instant ⟨⟨2015, 6, 30⟩, 23, 56, 5, 333333333⟩ ∧
    ¬ ∀ t : Instant, t.Valid → 0 ≤ t.date.year → t.date.year ≤ 9999 → ofLiteral (instant t).display = .instant t := by
  have hvalid : Instant.Valid ⟨⟨2015, 6, 30⟩, 23, 56, 4, 1333333333⟩ :=
    ⟨by decide, by decide, by decide, by decide, by decide⟩
  have hdisplay : (instant ⟨⟨2015, 6, 30⟩, 23, 56, 4, 1333333333⟩).display = "2015-06-30T23:56:05.333333333+00:00" := by
    decide +kernel
  have hread : ofLiteral "2015-06-30T23:56:05.333333333+00:00" = .instant ⟨⟨2015, 6, 30⟩, 23, 56, 5, 333333333⟩ := by
    rfl
  refine ⟨hvalid, hdisplay, hread, fun hall => ?_⟩
  have hsame := hall _ hvalid (by decide) (by decide)
  rw [hdisplay, hread] at hsame
  cases hsame

end DocQuery.Value
