/-
  DocQuery.Proofs.Json.RoundTrip — what is read where a value is written.

  Whatever follows a value's compact text, so long as it does not go on with a number, reading the text
  gives the value as it is reread and leaves what follows (`value_told`): the same, but numbers are what
  their texts are read as, and nothing is read beyond the reading's depth. Strings come first: a reader that
  reads every escape as the character it stands for (`Unescapes`) reads back what is written
  (`Unescapes.escaped`). Items and members are read one after
  another (`items_told`, `members_told`). So a value is read back exactly when it is not nested too
  deep and each of its numbers is read back (`read?_compact_iff`).
-/

import DocQuery.Proofs.Json.Numbers

namespace DocQuery.Json

/-! ## Strings -/

theorem hexValue?_hexDigit {n : Nat} (h : n < 16) : hexValue? (hexDigit n) = some n := by
  have check : ∀ n : Fin 16, hexValue? (hexDigit n.val) = some n.val := by decide +kernel
  exact check ⟨n, h⟩

/-- The reader reads each character where it is written, escaped or not, and stops at the closing quote. -/
structure Unescapes (string : Reader (List Char)) : Prop where
  close : ∀ s, string ('"' :: s) = some ([], s)
  plain : ∀ c s, 0x20 ≤ c.toNat → c ≠ '"' → c ≠ '\\' → string (c :: s) = (string s).map fun (t, r) => (c :: t, r)
  short : ∀ c e s, c ≠ 'u' → plainEscape? c = some e →
    string ('\\' :: c :: s) = (string s).map fun (t, r) => (e :: t, r)
  control : ∀ n s, n < 0x20 → string ('\\' :: 'u' :: '0' :: '0' :: hexDigit (n / 16) :: hexDigit (n % 16) :: s) =
    (string s).map fun (t, r) => (Char.ofNat n :: t, r)

theorem not_control {c : Char} (h : 0x20 ≤ c.toNat) (hb : c ≠ '\\') : (c.toNat < 0x20 || c == '\\') = false := by
  simp only [Bool.or_eq_false_iff, decide_eq_false_iff_not, beq_eq_false_iff_ne]
  exact ⟨by omega, hb⟩

theorem hexUnit?_control {n : Nat} (h : n < 0x20) : hexUnit? '0' '0' (hexDigit (n / 16)) (hexDigit (n % 16)) = some n := by
  have hzero : hexValue? '0' = some 0 := rfl
  simp only [hexUnit?, hzero, hexValue?_hexDigit (n := n / 16) (by omega), hexValue?_hexDigit (n := n % 16) (by omega),
    bind, Option.bind, pure]
  congr 1
  omega

theorem stringText_unescapes : Unescapes stringText where
  close s := by
    rw [stringText.eq_def]
    rfl
  plain c s h hq hb := by
    rw [stringText.eq_def]
    split
    case h_1 heq => cases heq
    case h_2 heq => exact absurd (List.cons.inj heq).1 hq
    case h_3 heq => exact absurd (List.cons.inj heq).1 hb
    case h_4 heq => exact absurd (List.cons.inj heq).1 hb
    case h_5 heq =>
      obtain ⟨rfl, rfl⟩ := List.cons.inj heq
      rw [not_control h hb]
      rfl
  short c e s hu he := by
    rw [stringText.eq_def]
    split
    case h_1 heq => cases heq
    case h_2 heq => cases heq
    case h_3 heq => exact absurd (List.cons.inj (List.cons.inj heq).2).1 hu
    case h_4 heq =>
      obtain ⟨rfl, rfl⟩ := List.cons.inj (List.cons.inj heq).2
      rw [he]
    case h_5 hescape heq =>
      obtain ⟨rfl, rfl⟩ := List.cons.inj heq
      exact absurd rfl (hescape c s rfl)
  control n s h := by
    have hhigh : isHighSurrogate n = false := by simp [isHighSurrogate]; omega
    have hlow : isLowSurrogate n = false := by simp [isLowSurrogate]; omega
    rw [stringText]
    simp only [hexUnit?_control h, hhigh, hlow, Bool.false_eq_true, if_false]

theorem looseText_unescapes : Unescapes looseText where
  close s := by
    rw [looseText.eq_def]
    rfl
  plain c s h hq hb := by
    rw [looseText.eq_def]
    split
    case h_1 heq => cases heq
    case h_2 heq => exact absurd (List.cons.inj heq).1 hq
    case h_3 heq => exact absurd (List.cons.inj heq).1 hb
    case h_4 heq => exact absurd (List.cons.inj heq).1 hb
    case h_5 heq =>
      obtain ⟨rfl, rfl⟩ := List.cons.inj heq
      rw [not_control h hb]
      rfl
  short c e s hu he := by
    rw [looseText.eq_def]
    split
    case h_1 heq => cases heq
    case h_2 heq => cases heq
    case h_3 heq => exact absurd (List.cons.inj (List.cons.inj heq).2).1 hu
    case h_4 heq =>
      obtain ⟨rfl, rfl⟩ := List.cons.inj (List.cons.inj heq).2
      rw [he]
    case h_5 hescape heq =>
      obtain ⟨rfl, rfl⟩ := List.cons.inj heq
      exact absurd rfl (hescape c s rfl)
  control n s h := by
    rw [looseText]
    simp only [hexUnit?_control h]

section

variable {string : Reader (List Char)} (hstring : Unescapes string)

include hstring

/-- An escaped character is read back as the character. -/
theorem Unescapes.escapeChar (c : Char) (s : List Char) :
    string (escapeChar c ++ s) = (string s).map fun (t, r) => (c :: t, r) := by
  unfold Json.escapeChar
  split
  · exact hstring.short '"' '"' s (by decide) rfl
  · exact hstring.short '\\' '\\' s (by decide) rfl
  · exact hstring.short 'n' '\n' s (by decide) rfl
  · exact hstring.short 'r' '\r' s (by decide) rfl
  · exact hstring.short 't' '\t' s (by decide) rfl
  rename_i hquote hslash _ _ _
  by_cases hback : c.toNat = 8
  · obtain rfl : c = Char.ofNat 8 := by rw [← hback, Char.ofNat_toNat]
    exact hstring.short 'b' _ s (by decide) rfl
  by_cases hfeed : c.toNat = 12
  · obtain rfl : c = Char.ofNat 12 := by rw [← hfeed, Char.ofNat_toNat]
    exact hstring.short 'f' _ s (by decide) rfl
  simp only [beq_iff_eq, hback, hfeed, if_false]
  by_cases hcontrol : c.toNat < 0x20
  · rw [if_pos hcontrol]
    have h := hstring.control c.toNat s hcontrol
    rwa [Char.ofNat_toNat] at h
  · rw [if_neg hcontrol]
    exact hstring.plain c s (by omega) hquote hslash

theorem Unescapes.escaped (s rest : List Char) : string (s.flatMap Json.escapeChar ++ '"' :: rest) = some (s, rest) := by
  induction s with
  | nil => exact hstring.close rest
  | cons c more ih => rw [List.flatMap_cons, List.append_assoc, hstring.escapeChar, ih]; rfl

end

theorem toList_quoted (s : String) : (quoted s).toList = '"' :: (s.toList.flatMap escapeChar ++ ['"']) := by
  rw [quoted, String.toList_ofList]; rfl

/-! ## Values -/

/-- What is read where a number's text stands alone. -/
def alone (number : NumberText → Option Json) (text : String) : Option Json :=
  (plainValue stringText number text.toList).map (·.1)

mutual

/-- What is read where the value is written. -/
def reread (number : NumberText → Option Json) : Nat → Json → Option Json
  | _, .int n => alone number (intText n)
  | _, .float x => alone number (floatText x)
  | 0, .array _ => none
  | depth + 1, .array items => (rereadItems number depth items).map .array
  | 0, .object _ => none
  | depth + 1, .object members => (rereadMembers number depth members).map .object
  | _, j => some j

def rereadItems (number : NumberText → Option Json) (depth : Nat) : List Json → Option (List Json)
  | [] => some []
  | j :: rest => (reread number depth j).bind fun k => (rereadItems number depth rest).map (k :: ·)

def rereadMembers (number : NumberText → Option Json) (depth : Nat) :
    List (String × Json) → Option (List (String × Json))
  | [] => some []
  | (key, j) :: rest =>
    (reread number depth j).bind fun k => (rereadMembers number depth rest).map ((key, k) :: ·)

end

/-- A value's text starts with one of these. -/
def isOpening (c : Char) : Bool := c.isDigit || ['-', 'n', 't', 'f', '"', '[', '\x7b'].contains c

theorem Parts.Sound.chars_opening {p : Parts} (h : p.Sound) :
    ∃ c r, p.chars = c :: r ∧ (c = '-' ∨ c.isDigit = true) := by
  obtain ⟨d, r, hwhole, hd⟩ := h.whole.cons
  unfold Parts.chars
  cases p.negative with
  | true => exact ⟨'-', _, rfl, .inl rfl⟩
  | false => exact ⟨d, _, by rw [hwhole]; rfl, .inr hd⟩

theorem isOpening_number {c : Char} (h : c = '-' ∨ c.isDigit = true) : isOpening c = true := by
  rcases h with rfl | h
  · decide
  · simp [isOpening, h]

theorem compact_opening (j : Json) : ∃ c r, j.compact.toList = c :: r ∧ isOpening c = true := by
  cases j with
  | null => exact ⟨'n', _, rfl, by decide⟩
  | bool b => cases b <;> exact ⟨_, _, rfl, by decide⟩
  | int n =>
    obtain ⟨c, r, hc, hopen⟩ := (intParts_sound n).chars_opening
    exact ⟨c, r, (intText_parts n).trans hc, isOpening_number hopen⟩
  | float x =>
    rw [compact]
    rcases floatText_parts x with h | ⟨p, hp, h⟩
    · exact ⟨'n', _, by rw [h]; rfl, by decide⟩
    · obtain ⟨c, r, hc, hopen⟩ := hp.chars_opening
      exact ⟨c, r, h.trans hc, isOpening_number hopen⟩
  | string s => exact ⟨'"', _, toList_quoted s, by decide⟩
  | array items => exact ⟨'[', _, by simp only [compact, String.toList_append]; rfl, by decide⟩
  | object members => exact ⟨'\x7b', _, by simp only [compact, String.toList_append]; rfl, by decide⟩

theorem skipGap_of_not {c : Char} (h : isGap c = false) (s : List Char) : skipGap (c :: s) = c :: s := by
  rw [skipGap, List.dropWhile_cons_of_neg (by simp [h])]

theorem isGap_of_isDigit {c : Char} (h : c.isDigit = true) : isGap c = false := by
  have hne := fun d => ne_of_isDigit (d := d) h
  simp [isGap, hne ' ' (by decide), hne '\t' (by decide), hne '\n' (by decide), hne '\r' (by decide)]

theorem isOpening_cases {c : Char} (h : isOpening c = true) : isGap c = false ∧ c ≠ ']' ∧ c ≠ '\x7d' := by
  rcases Bool.or_eq_true_iff.mp h with h | h
  · exact ⟨isGap_of_isDigit h, ne_of_isDigit h (by decide), ne_of_isDigit h (by decide)⟩
  have hmem := List.contains_iff_mem.mp h
  simp only [List.mem_cons, List.not_mem_nil, or_false] at hmem
  rcases hmem with rfl | rfl | rfl | rfl | rfl | rfl | rfl <;> exact ⟨by decide, by decide, by decide⟩

/-! ## Items and members -/

/-- The reader takes the value's text for `k` and leaves what follows it. -/
def Told (item : Reader Json) (j : Json) (k : Option Json) : Prop :=
  ∀ rest, Ends rest → item (j.compact.toList ++ rest) = k.map fun k => (k, rest)

theorem toList_separated (t : String) (texts : List String) :
    (String.intercalate "," (t :: texts)).toList = t.toList ++ texts.flatMap fun u => ',' :: u.toList := by
  induction texts generalizing t with
  | nil => simp
  | cons u rest ih =>
    have h := ih u
    simp only [String.toList_intercalate, List.map_cons] at h ⊢
    rw [List.intercalate_cons_cons, h]
    simp

theorem compactItems_eq (items : List Json) : compactItems items = items.map compact := by
  induction items with
  | nil => rfl
  | cons j rest ih => rw [compactItems, ih, List.map_cons]

theorem compactMembers_eq (members : List (String × Json)) :
    compactMembers members = members.map fun m => quoted m.1 ++ ":" ++ m.2.compact := by
  induction members with
  | nil => rfl
  | cons m rest ih => rw [compactMembers, ih, List.map_cons]

theorem ends_of_head {c : Char} (h : c ∈ [',', ']', '\x7d']) (s : List Char) : Ends (c :: s) := by
  intro x hx
  obtain rfl := Option.some.inj hx
  simp only [List.mem_cons, List.not_mem_nil, or_false] at h
  rcases h with rfl | rfl | rfl <;> exact ⟨by decide, by decide, by decide, by decide⟩

/-- What follows an item: the next one, or the bracket. -/
theorem ends_separated {α : Type} (l : List α) (f : α → List Char) (close : Char)
    (h : close ∈ [',', ']', '\x7d']) (rest : List Char) : Ends ((l.flatMap fun a => ',' :: f a) ++ close :: rest) := by
  cases l with
  | nil => exact ends_of_head h rest
  | cons a more => exact ends_of_head (by decide) _

variable {string : Reader (List Char)} {item : Reader Json} {itemOf : String → Reader Json}
  {number : NumberText → Option Json} {depth : Nat}

theorem moreItems_told {l : List Json} (h : ∀ j ∈ l, Told item j (reread number depth j)) {fuel : Nat}
    (hf : l.length < fuel) (rest : List Char) :
    moreItems item fuel ((l.flatMap fun j => ',' :: j.compact.toList) ++ ']' :: rest) =
      (rereadItems number depth l).map fun l => (l, rest) := by
  induction l generalizing fuel with
  | nil =>
    obtain ⟨n, rfl⟩ : ∃ n, fuel = n + 1 := ⟨fuel - 1, by simp at hf; omega⟩
    rfl
  | cons j more ih =>
    obtain ⟨n, rfl⟩ : ∃ n, fuel = n + 1 := ⟨fuel - 1, by simp at hf; omega⟩
    have hmore := ih (fun k hk => h k (List.mem_cons_of_mem _ hk)) (show more.length < n by simpa using hf)
    have hj := h j (List.mem_cons_self ..) _ (ends_separated more (fun k => k.compact.toList) ']' (by decide) rest)
    rw [List.flatMap_cons, List.cons_append, List.cons_append, List.append_assoc, moreItems,
      skipGap_of_not (by decide), rereadItems]
    simp only [hj, bind]
    cases reread number depth j with
    | none => rfl
    | some k =>
      simp only [Option.map_some, Option.bind_some, hmore]
      cases rereadItems number depth more <;> rfl

/-- There are no more items than commas before them. -/
theorem length_le_separated {α : Type} (l : List α) (f : α → List Char) (rest : List Char) :
    l.length < ((l.flatMap fun a => ',' :: f a) ++ rest).length + 1 := by
  induction l with
  | nil => simp
  | cons a more ih =>
    simp only [List.flatMap_cons, List.cons_append, List.length_cons, List.length_append] at ih ⊢
    omega

theorem items_cons {c : Char} (hgap : isGap c = false) (hclose : c ≠ ']') (s : List Char) :
    items item (c :: s) = (item (c :: s)).bind fun (j, r) =>
      (moreItems item (r.length + 1) r).bind fun (rest, r) => some (j :: rest, r) := by
  rw [items, skipGap_of_not hgap]
  split
  · rename_i heq; exact absurd (List.cons.inj heq).1 hclose
  · rfl

/-- Items written one after another are read one after another. -/
theorem items_told {l : List Json} (h : ∀ j ∈ l, Told item j (reread number depth j)) (rest : List Char) :
    items item ((String.intercalate "," (compactItems l)).toList ++ ']' :: rest) =
      (rereadItems number depth l).map fun l => (l, rest) := by
  cases l with
  | nil => rfl
  | cons j more =>
    obtain ⟨c, r, hc, hopen⟩ := compact_opening j
    obtain ⟨hgap, hclose, -⟩ := isOpening_cases hopen
    have htext : (String.intercalate "," (compactItems (j :: more))).toList ++ ']' :: rest =
        j.compact.toList ++ ((more.flatMap fun k => ',' :: k.compact.toList) ++ ']' :: rest) := by
      rw [compactItems_eq, List.map_cons, toList_separated, List.flatMap_map, List.append_assoc]
    have hj := h j (List.mem_cons_self ..) _ (ends_separated more (fun k => k.compact.toList) ']' (by decide) rest)
    have hmore := moreItems_told (fun k hk => h k (List.mem_cons_of_mem _ hk))
      (length_le_separated more (fun k => k.compact.toList) (']' :: rest)) rest
    rw [htext, rereadItems]
    rw [hc, List.cons_append] at hj ⊢
    rw [items_cons hgap hclose, hj]
    cases reread number depth j with
    | none => rfl
    | some k =>
      simp only [Option.map_some, Option.bind_some, hmore]
      cases rereadItems number depth more <;> rfl

/-- A member's text after what stands before it. -/
def memberText (m : String × Json) : List Char := (quoted m.1 ++ ":" ++ m.2.compact).toList

theorem member_told (hstring : Unescapes string) {m : String × Json} {k : Option Json} (h : Told (itemOf m.1) m.2 k)
    {rest : List Char} (hr : Ends rest) : member string itemOf (memberText m ++ rest) = k.map fun k => ((m.1, k), rest) := by
  have htext : memberText m ++ rest =
      '"' :: (m.1.toList.flatMap escapeChar ++ '"' :: ':' :: (m.2.compact.toList ++ rest)) := by
    simp only [memberText, String.toList_append, toList_quoted, List.cons_append, List.append_assoc]
    rfl
  rw [htext, member, skipGap_of_not (by decide)]
  simp only [hstring.escaped, skipGap_of_not (c := ':') (by decide), String.ofList_toList, h rest hr, bind, Option.bind]
  cases k <;> rfl

theorem moreMembers_told (hstring : Unescapes string) {l : List (String × Json)}
    (h : ∀ m ∈ l, Told (itemOf m.1) m.2 (reread number depth m.2)) {fuel : Nat} (hf : l.length < fuel)
    (rest : List Char) : moreMembers string itemOf fuel ((l.flatMap fun m => ',' :: memberText m) ++ '\x7d' :: rest) =
      (rereadMembers number depth l).map fun l => (l, rest) := by
  induction l generalizing fuel with
  | nil =>
    obtain ⟨n, rfl⟩ : ∃ n, fuel = n + 1 := ⟨fuel - 1, by simp at hf; omega⟩
    rfl
  | cons m more ih =>
    obtain ⟨n, rfl⟩ : ∃ n, fuel = n + 1 := ⟨fuel - 1, by simp at hf; omega⟩
    have hmore := ih (fun k hk => h k (List.mem_cons_of_mem _ hk)) (show more.length < n by simpa using hf)
    have hm := member_told hstring (h m (List.mem_cons_self ..)) (ends_separated more memberText '\x7d' (by decide) rest)
    rw [List.flatMap_cons, List.cons_append, List.cons_append, List.append_assoc, moreMembers,
      skipGap_of_not (by decide), rereadMembers]
    simp only [hm, bind]
    cases reread number depth m.2 with
    | none => rfl
    | some k =>
      simp only [Option.map_some, Option.bind_some, hmore]
      cases rereadMembers number depth more <;> rfl

theorem members_cons {c : Char} (hgap : isGap c = false) (hclose : c ≠ '\x7d') (s : List Char) :
    members string itemOf (c :: s) = (member string itemOf (c :: s)).bind fun (m, r) =>
      (moreMembers string itemOf (r.length + 1) r).bind fun (rest, r) => some (m :: rest, r) := by
  rw [members, skipGap_of_not hgap]
  split
  · rename_i heq; exact absurd (List.cons.inj heq).1 hclose
  · rfl

/-- Members written one after another are read one after another. -/
theorem members_told (hstring : Unescapes string) {l : List (String × Json)}
    (h : ∀ m ∈ l, Told (itemOf m.1) m.2 (reread number depth m.2)) (rest : List Char) :
    members string itemOf ((String.intercalate "," (compactMembers l)).toList ++ '\x7d' :: rest) =
      (rereadMembers number depth l).map fun l => (l, rest) := by
  cases l with
  | nil => rfl
  | cons m more =>
    have htext : (String.intercalate "," (compactMembers (m :: more))).toList ++ '\x7d' :: rest =
        memberText m ++ ((more.flatMap fun k => ',' :: memberText k) ++ '\x7d' :: rest) := by
      rw [compactMembers_eq, List.map_cons, toList_separated, List.flatMap_map, List.append_assoc]
      rfl
    have hm := member_told hstring (h m (List.mem_cons_self ..)) (ends_separated more memberText '\x7d' (by decide) rest)
    have hmore := moreMembers_told hstring (fun k hk => h k (List.mem_cons_of_mem _ hk))
      (length_le_separated more memberText ('\x7d' :: rest)) rest
    -- A member starts with the quote of its key.
    obtain ⟨r, hr⟩ : ∃ r, memberText m = '"' :: r :=
      ⟨_, by simp only [memberText, String.toList_append, toList_quoted, List.cons_append]; rfl⟩
    rw [htext, rereadMembers]
    rw [hr, List.cons_append] at hm ⊢
    rw [members_cons (by decide) (by decide), hm]
    cases reread number depth m.2 with
    | none => rfl
    | some k =>
      simp only [Option.map_some, Option.bind_some, hmore]
      cases rereadMembers number depth more <;> rfl

/-! ## Whole values -/

theorem value_plain (string : Reader (List Char)) (number : NumberText → Option Json) (depth : Nat) {c : Char} (hgap : isGap c = false)
    (harray : c ≠ '[') (hobject : c ≠ '\x7b') (s : List Char) :
    value string number depth (c :: s) = plainValue string number (c :: s) := by
  cases depth with
  | zero =>
    rw [value, skipGap_of_not hgap]
    split
    · rename_i heq; exact absurd (List.cons.inj heq).1 harray
    · rename_i heq; exact absurd (List.cons.inj heq).1 hobject
    · rfl
  | succ d =>
    rw [value, skipGap_of_not hgap]
    split
    · rename_i heq; exact absurd (List.cons.inj heq).1 harray
    · rename_i heq; exact absurd (List.cons.inj heq).1 hobject
    · rfl

/-- A text that opens like a number is read as one. -/
theorem plainValue_number {c : Char} (h : c = '-' ∨ c.isDigit = true) (s : List Char) :
    plainValue string number (c :: s) = (numberText (c :: s)).bind fun (t, r) => (number t).map fun j => (j, r) := by
  have hne : ∀ d, d.isDigit = false → d ≠ '-' → c ≠ d := by
    intro d hd hminus
    rcases h with rfl | h
    · exact hminus.symm
    · exact ne_of_isDigit h hd
  unfold plainValue
  split
  · rename_i heq; exact absurd (List.cons.inj heq).1 (hne 'n' (by decide) (by decide))
  · rename_i heq; exact absurd (List.cons.inj heq).1 (hne 't' (by decide) (by decide))
  · rename_i heq; exact absurd (List.cons.inj heq).1 (hne 'f' (by decide) (by decide))
  · rename_i heq; exact absurd (List.cons.inj heq).1 (hne '"' (by decide) (by decide))
  · cases numberText (c :: s) with
    | none => rfl
    | some t =>
      simp only [bind, Option.bind_some]
      cases number t.1 <;> rfl

theorem plainValue_parts {p : Parts} (hp : p.Sound) {rest : List Char} (hr : Ends rest) :
    plainValue string number (p.chars ++ rest) = (number p.number).map fun j => (j, rest) := by
  obtain ⟨c, r, hc, hopen⟩ := hp.chars_opening
  have hnumber := numberText_parts hp hr
  rw [hc, List.cons_append] at hnumber ⊢
  rw [plainValue_number hopen, hnumber, Option.bind_some]

theorem alone_parts {p : Parts} (hp : p.Sound) {text : String} (h : text.toList = p.chars) :
    alone number text = number p.number := by
  have hplain : plainValue stringText number (p.chars ++ []) = _ := plainValue_parts hp ends_nil
  rw [List.append_nil] at hplain
  rw [alone, h, hplain, Option.map_map]
  cases number p.number <;> rfl

theorem value_parts {p : Parts} (hp : p.Sound) {j : Json} (h : j.compact.toList = p.chars) :
    Told (value string number depth) j (alone number j.compact) := by
  intro rest hr
  rw [alone_parts hp h, h, ← plainValue_parts hp hr]
  obtain ⟨c, r, hc, hopen⟩ := hp.chars_opening
  rw [hc, List.cons_append]
  have hbracket : c ≠ '[' ∧ c ≠ '\x7b' := by
    rcases hopen with rfl | hopen
    · exact ⟨by decide, by decide⟩
    · exact ⟨ne_of_isDigit hopen (by decide), ne_of_isDigit hopen (by decide)⟩
  exact value_plain string number depth (isOpening_cases (isOpening_number hopen)).1 hbracket.1 hbracket.2 _

theorem value_float (x : Float) : Told (value string number depth) (.float x) (alone number (floatText x)) := by
  rcases floatText_parts x with h | ⟨p, hp, h⟩
  · intro rest _
    rw [compact, h]
    exact value_plain string number depth (by decide) (by decide) (by decide) _
  · exact value_parts hp h

theorem value_string (hstring : Unescapes string) (s : String) : Told (value string number depth) (.string s) (some (.string s)) := by
  intro rest _
  have htext : (Json.string s).compact.toList ++ rest = '"' :: (s.toList.flatMap escapeChar ++ '"' :: rest) := by
    rw [compact, toList_quoted, List.cons_append, List.append_assoc]; rfl
  rw [htext, value_plain string number depth (by decide) (by decide) (by decide), plainValue, hstring.escaped]
  simp only [Option.map_some, String.ofList_toList]

theorem value_array {l : List Json} (h : ∀ j ∈ l, Told (value string number depth) j (reread number depth j)) :
    Told (value string number (depth + 1)) (.array l) (reread number (depth + 1) (.array l)) := by
  intro rest _
  have htext : (Json.array l).compact.toList ++ rest =
      '[' :: ((String.intercalate "," (compactItems l)).toList ++ ']' :: rest) := by
    simp only [compact, String.toList_append, List.append_assoc]; rfl
  rw [htext, value, skipGap_of_not (by decide), reread]
  simp only [items_told h rest, Option.map_map]
  rfl

theorem value_object (hstring : Unescapes string) {l : List (String × Json)}
    (h : ∀ m ∈ l, Told (value string number depth) m.2 (reread number depth m.2)) :
    Told (value string number (depth + 1)) (.object l) (reread number (depth + 1) (.object l)) := by
  intro rest _
  have htext : (Json.object l).compact.toList ++ rest =
      '\x7b' :: ((String.intercalate "," (compactMembers l)).toList ++ '\x7d' :: rest) := by
    simp only [compact, String.toList_append, List.append_assoc]; rfl
  have hmembers : members string (fun _ => value string number depth) _ = _ := members_told hstring h rest
  rw [htext, value, skipGap_of_not (by decide), reread]
  simp only [hmembers, Option.map_map]
  rfl

/-- Beyond the depth no array or object is read. -/
theorem value_nested {j : Json} {c : Char} (h : c = '[' ∨ c = '\x7b') {r : List Char}
    (hj : j.compact.toList = c :: r) :
    Told (value string number 0) j none := by
  intro rest _
  rw [hj, List.cons_append]
  rcases h with rfl | rfl
  · rw [value, skipGap_of_not (by decide)]
    rfl
  · rw [value, skipGap_of_not (by decide)]
    rfl

mutual

/-- A value's text is read as the value is reread. -/
theorem value_told (hstring : Unescapes string) (number : NumberText → Option Json) : (j : Json) → (depth : Nat) →
    Told (value string number depth) j (reread number depth j)
  | .null, _ => fun _ _ => value_plain string number _ (by decide) (by decide) (by decide) _
  | .bool true, _ => fun _ _ => value_plain string number _ (by decide) (by decide) (by decide) _
  | .bool false, _ => fun _ _ => value_plain string number _ (by decide) (by decide) (by decide) _
  | .int n, _ => value_parts (intParts_sound n) (intText_parts n)
  | .float x, _ => value_float x
  | .string s, _ => value_string hstring s
  | .array _, 0 => value_nested (.inl rfl) (by simp only [compact, String.toList_append]; rfl)
  | .array items, depth + 1 => value_array (items_values hstring number items depth)
  | .object _, 0 => value_nested (.inr rfl) (by simp only [compact, String.toList_append]; rfl)
  | .object members, depth + 1 => value_object hstring (members_values hstring number members depth)

theorem items_values (hstring : Unescapes string) (number : NumberText → Option Json) : (l : List Json) → (depth : Nat) →
    ∀ j ∈ l, Told (value string number depth) j (reread number depth j)
  | [], _ => fun _ hj => nomatch hj
  | j :: rest, depth => by
    intro k hk
    rcases List.mem_cons.mp hk with same | hk
    · exact same ▸ value_told hstring number j depth
    · exact items_values hstring number rest depth k hk

theorem members_values (hstring : Unescapes string) (number : NumberText → Option Json) : (l : List (String × Json)) → (depth : Nat) →
    ∀ m ∈ l, Told (value string number depth) m.2 (reread number depth m.2)
  | [], _ => fun _ hm => nomatch hm
  | (key, j) :: rest, depth => by
    intro m hm
    rcases List.mem_cons.mp hm with same | hm
    · exact same ▸ value_told hstring number j depth
    · exact members_values hstring number rest depth m hm

end

/-- Reading a value's text is rereading the value. -/
theorem readWith?_eq (reading : Reading) (j : Json) :
    readWith? reading j.compact = reread reading.number reading.depth j := by
  have h := value_told stringText_unescapes reading.number j reading.depth [] ends_nil
  rw [List.append_nil] at h
  rw [readWith?, whole?, h]
  cases reread reading.number reading.depth j <;> rfl

/-! ## Values that are read back -/

mutual

/-- The numbers in the value. -/
def numbers : Json → List Json
  | .int n => [.int n]
  | .float x => [.float x]
  | .array items => numbersOfItems items
  | .object members => numbersOfMembers members
  | _ => []

def numbersOfItems : List Json → List Json
  | [] => []
  | j :: rest => j.numbers ++ numbersOfItems rest

def numbersOfMembers : List (String × Json) → List Json
  | [] => []
  | (_, j) :: rest => j.numbers ++ numbersOfMembers rest

end

mutual

/-- A value is reread as itself if it is not nested too deep and its numbers are. -/
theorem reread_eq_self_iff (number : NumberText → Option Json) : (j : Json) → (depth : Nat) →
    (reread number depth j = some j ↔ j.depth ≤ depth ∧ ∀ k ∈ j.numbers, alone number k.compact = some k)
  | .null, _ => by simp [reread, Json.depth, numbers]
  | .bool _, _ => by simp [reread, Json.depth, numbers]
  | .string _, _ => by simp [reread, Json.depth, numbers]
  | .int n, _ => by simp [reread, Json.depth, numbers, compact]
  | .float x, _ => by simp [reread, Json.depth, numbers, compact]
  | .array _, 0 => by simp [reread, Json.depth]
  | .array items, depth + 1 => by
    have hitems := rereadItems_eq_self_iff number items depth
    simp [reread, Json.depth, numbers, hitems]
  | .object _, 0 => by simp [reread, Json.depth]
  | .object members, depth + 1 => by
    have hmembers := rereadMembers_eq_self_iff number members depth
    simp [reread, Json.depth, numbers, hmembers]

theorem rereadItems_eq_self_iff (number : NumberText → Option Json) : (l : List Json) → (depth : Nat) →
    (rereadItems number depth l = some l ↔
      itemsDepth l ≤ depth ∧ ∀ k ∈ numbersOfItems l, alone number k.compact = some k)
  | [], _ => by simp [rereadItems, itemsDepth, numbersOfItems]
  | j :: rest, depth => by
    have hsplit : rereadItems number depth (j :: rest) = some (j :: rest) ↔
        reread number depth j = some j ∧ rereadItems number depth rest = some rest := by
      simp [rereadItems, Option.bind_eq_some_iff]
    rw [hsplit, reread_eq_self_iff number j depth, rereadItems_eq_self_iff number rest depth, itemsDepth,
      Nat.max_le, numbersOfItems, List.forall_mem_append, and_and_and_comm]

theorem rereadMembers_eq_self_iff (number : NumberText → Option Json) : (l : List (String × Json)) →
    (depth : Nat) → (rereadMembers number depth l = some l ↔
      membersDepth l ≤ depth ∧ ∀ k ∈ numbersOfMembers l, alone number k.compact = some k)
  | [], _ => by simp [rereadMembers, membersDepth, numbersOfMembers]
  | (key, j) :: rest, depth => by
    have hsplit : rereadMembers number depth ((key, j) :: rest) = some ((key, j) :: rest) ↔
        reread number depth j = some j ∧ rereadMembers number depth rest = some rest := by
      simp [rereadMembers, Option.bind_eq_some_iff]
    rw [hsplit, reread_eq_self_iff number j depth, rereadMembers_eq_self_iff number rest depth, membersDepth,
      Nat.max_le, numbersOfMembers, List.forall_mem_append, and_and_and_comm]

end

/-! ## Values without numbers -/

mutual

/-- Nowhere in the value is there a number. -/
def numberless : Json → Bool
  | .int _ => false
  | .float _ => false
  | .array items => numberlessItems items
  | .object members => numberlessMembers members
  | _ => true

def numberlessItems : List Json → Bool
  | [] => true
  | j :: rest => j.numberless && numberlessItems rest

def numberlessMembers : List (String × Json) → Bool
  | [] => true
  | (_, j) :: rest => j.numberless && numberlessMembers rest

end

theorem numberlessMembers_iff {members : List (String × Json)} :
    numberlessMembers members = true ↔ ∀ m ∈ members, m.2.numberless = true := by
  induction members with
  | nil => simp [numberlessMembers]
  | cons m rest ih => rw [numberlessMembers, Bool.and_eq_true, ih, List.forall_mem_cons]

theorem membersDepth_le_iff {members : List (String × Json)} {n : Nat} :
    membersDepth members ≤ n ↔ ∀ m ∈ members, m.2.depth ≤ n := by
  induction members with
  | nil => simp [membersDepth]
  | cons m rest ih => rw [membersDepth, Nat.max_le, ih, List.forall_mem_cons]

mutual

theorem numbers_of_numberless : (j : Json) → j.numberless = true → j.numbers = []
  | .null, _ => rfl
  | .bool _, _ => rfl
  | .string _, _ => rfl
  | .array items, h => numbersOfItems_of_numberless items h
  | .object members, h => numbersOfMembers_of_numberless members h

theorem numbersOfItems_of_numberless : (l : List Json) → numberlessItems l = true → numbersOfItems l = []
  | [], _ => rfl
  | j :: rest, h => by
    obtain ⟨hj, hrest⟩ := Bool.and_eq_true_iff.mp h
    rw [numbersOfItems, numbers_of_numberless j hj, numbersOfItems_of_numberless rest hrest]
    rfl

theorem numbersOfMembers_of_numberless : (l : List (String × Json)) → numberlessMembers l = true →
    numbersOfMembers l = []
  | [], _ => rfl
  | (_, j) :: rest, h => by
    obtain ⟨hj, hrest⟩ := Bool.and_eq_true_iff.mp h
    rw [numbersOfMembers, numbers_of_numberless j hj, numbersOfMembers_of_numberless rest hrest]
    rfl

end

/-! ## Documents -/

/-- A number whose text is read as the number. An integer is one of 64 bits, signed or unsigned. -/
def Kept : Json → Prop
  | .int n => -(Nat.pow 2 63 : Nat) ≤ n ∧ n < (Nat.pow 2 64 : Nat)
  | .float x => read? (floatText x) = some (.float x)
  | _ => True

theorem read?_eq (j : Json) : read? j.compact = reread NumberText.scaled? 127 j := readWith?_eq .document j

theorem scaled?_eq_int {t : NumberText} {n : Int} : t.scaled? = some (.int n) ↔ t.integer? = some n := by
  unfold NumberText.scaled?
  cases t.integer? <;> simp

theorem alone_int {n : Int} : alone NumberText.scaled? (intText n) = some (.int n) ↔ Kept (.int n) := by
  rw [alone_parts (intParts_sound n) (intText_parts n), scaled?_eq_int, intParts_integer?]
  simp only [Kept]
  by_cases hn : n < 0
  · rw [if_pos hn]
    simp only [Option.ite_none_right_eq_some, and_true]
    omega
  · rw [if_neg hn]
    simp only [Option.ite_none_right_eq_some, and_true]
    omega

theorem alone_float {x : Float} : alone NumberText.scaled? (floatText x) = some (.float x) ↔ Kept (.float x) := by
  rw [Kept, show floatText x = (Json.float x).compact from rfl, read?_eq]
  rfl

mutual

theorem mem_numbers {k : Json} : (j : Json) → k ∈ j.numbers → (∃ n, k = .int n) ∨ ∃ x, k = .float x
  | .int n, h => .inl ⟨n, List.mem_singleton.mp h⟩
  | .float x, h => .inr ⟨x, List.mem_singleton.mp h⟩
  | .array items, h => mem_numbersOfItems items h
  | .object members, h => mem_numbersOfMembers members h

theorem mem_numbersOfItems {k : Json} : (l : List Json) → k ∈ numbersOfItems l →
    (∃ n, k = .int n) ∨ ∃ x, k = .float x
  | j :: rest, h => (List.mem_append.mp h).elim (mem_numbers j) (mem_numbersOfItems rest)

theorem mem_numbersOfMembers {k : Json} : (l : List (String × Json)) → k ∈ numbersOfMembers l →
    (∃ n, k = .int n) ∨ ∃ x, k = .float x
  | (_, j) :: rest, h => (List.mem_append.mp h).elim (mem_numbers j) (mem_numbersOfMembers rest)

end

/-- The value is one that its text is read as. -/
def Restored (j : Json) : Prop := j.depth ≤ 127 ∧ ∀ k ∈ j.numbers, Kept k

theorem read?_compact_iff {j : Json} : read? j.compact = some j ↔ j.Restored := by
  rw [read?_eq, reread_eq_self_iff, Restored]
  apply and_congr_right
  intro _
  apply forall₂_congr
  intro k hk
  rcases mem_numbers j hk with ⟨n, rfl⟩ | ⟨x, rfl⟩
  · exact alone_int
  · exact alone_float

end DocQuery.Json
