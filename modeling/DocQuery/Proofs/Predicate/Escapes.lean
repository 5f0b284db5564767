/-
  DocQuery.Proofs.Predicate.Escapes — literals in double quotes, with backslashes.

  Between double quotes stand characters, each plain or behind a backslash (`Item`). Normalizing takes the
  backslashes away and doubles the single quotes that are plain (`normalize_items`), but not those behind a
  backslash. So what comes out is one literal in single quotes that denotes the characters, and ends where the
  other one does, exactly if no single quote is behind a backslash (`plain_items_iff`); and then a field set
  equal to it equals that text (`ofText_items`).
-/

import DocQuery.Proofs.Predicate.Equation

namespace DocQuery.Predicate

/-- A character between double quotes. -/
inductive Item where
  | plain (c : Char) (h : c ≠ '"' ∧ c ≠ '\\')
  /-- A backslash and any character. -/
  | escaped (c : Char)

namespace Item

/-- The character that is meant. -/
def char : Item → Char
  | plain c _ => c
  | escaped c => c

def written : Item → List Char
  | plain c _ => [c]
  | escaped c => ['\\', c]

/-- What is left of the item in a literal in single quotes. -/
def normal : Item → List Char
  | plain c _ => Constant.singleQuoted c
  | escaped c => [c]

/-- No backslash before a single quote. -/
def Sound (i : Item) : Prop := i ≠ .escaped '\''

theorem normal_length_le (i : Item) : i.normal.length ≤ (Constant.singleQuoted i.char).length := by
  cases i with
  | plain c h => exact Nat.le_refl _
  | escaped c =>
    by_cases hc : c = '\'' <;> simp [normal, char, Constant.singleQuoted, hc]

/-- What is left is one character where there should be two, or else is right. -/
theorem normal_length_eq_iff (i : Item) : i.normal.length = (Constant.singleQuoted i.char).length ↔ i.Sound := by
  cases i with
  | plain c h => simp [normal, char, Sound]
  | escaped c => by_cases hc : c = '\'' <;> simp [normal, char, Sound, Constant.singleQuoted, hc]

theorem Sound.normal_eq {i : Item} (h : i.Sound) : i.normal = Constant.singleQuoted i.char := by
  cases i with
  | plain c _ => rfl
  | escaped c =>
    have hc : c ≠ '\'' := fun hc => h (congrArg escaped hc)
    exact (Constant.singleQuoted_of_ne hc).symm

end Item

/-- The literal in double quotes. -/
def doubleQuotes (items : List Item) : List Char := '"' :: (items.flatMap Item.written ++ ['"'])

/-! ## Normalizing -/

theorem normalizeFrom_items (items : List Item) (s : List Char) :
    normalizeFrom .double (items.flatMap Item.written ++ '"' :: s) =
      items.flatMap Item.normal ++ '\'' :: normalize s := by
  induction items with
  | nil => rfl
  | cons i items ih =>
    rw [List.flatMap_cons, List.flatMap_cons, List.append_assoc, List.append_assoc, ← ih]
    cases i with
    | escaped c => rfl
    | plain c h =>
      by_cases hc : c = '\''
      · subst hc
        rfl
      · have hnormal : (Item.plain c h).normal = [c] := Constant.singleQuoted_of_ne hc
        rw [hnormal, Item.written, List.cons_append, List.cons_append, List.nil_append, List.nil_append, normalizeFrom]
        · exact fun he => h.1 he
        · exact fun _ _ he _ => h.2 he
        · exact hc

theorem normalize_items (items : List Item) (s : List Char) :
    normalize (doubleQuotes items ++ s) = '\'' :: (items.flatMap Item.normal ++ '\'' :: normalize s) := by
  rw [← normalizeFrom_items, doubleQuotes, List.cons_append, List.append_assoc]
  rfl

/-! ## Reading what comes out -/

/-- A literal is read exactly where its characters stand, the quotes among them doubled, and after them one quote. -/
theorem plain_eq_some_iff {s text rest : List Char} :
    Quoted.plain '\'' s = some (text, rest) ↔
      s = text.flatMap Constant.singleQuoted ++ '\'' :: rest ∧ rest.head? ≠ some '\'' := by
  constructor
  · intro h
    fun_induction Quoted.plain '\'' s generalizing text with
    | case1 => cases h
    | case2 c hc =>
      cases h
      exact ⟨by simpa using hc, by simp⟩
    | case3 c hc => cases h
    | case4 c d r hc hd ih =>
      obtain ⟨⟨inner, rest'⟩, hinner, he⟩ := Option.map_eq_some_iff.mp h
      cases he
      obtain ⟨rfl, hrest⟩ := ih hinner
      refine ⟨?_, hrest⟩
      rw [beq_iff_eq.mp hc, beq_iff_eq.mp hd]
      rfl
    | case5 c d r hc hd =>
      cases h
      exact ⟨by simpa using hc, by simpa using hd⟩
    | case6 c d r hc ih =>
      obtain ⟨⟨inner, rest'⟩, hinner, he⟩ := Option.map_eq_some_iff.mp h
      cases he
      obtain ⟨hs, hrest⟩ := ih hinner
      have hsingle : Constant.singleQuoted c = [c] := Constant.singleQuoted_of_ne (by simpa using hc)
      exact ⟨by rw [hs, List.flatMap_cons, hsingle]; rfl, hrest⟩
  · rintro ⟨rfl, hrest⟩
    exact plain_singleQuoted text hrest

/-- By the lengths: no item leaves more than its character needs, and so none may leave less. -/
theorem flatMap_normal_eq_iff (items : List Item) :
    items.flatMap Item.normal = (items.map Item.char).flatMap Constant.singleQuoted ↔ ∀ i ∈ items, i.Sound := by
  have hle : ∀ items : List Item,
      (items.flatMap Item.normal).length ≤ ((items.map Item.char).flatMap Constant.singleQuoted).length := by
    intro items
    induction items with
    | nil => exact Nat.le_refl _
    | cons i items ih =>
      have hi := i.normal_length_le
      simp only [List.flatMap_cons, List.map_cons, List.length_append]
      omega
  constructor
  · intro h
    replace h := congrArg List.length h
    induction items with
    | nil => simp
    | cons i items ih =>
      have hi := i.normal_length_le
      have hrest := hle items
      simp only [List.flatMap_cons, List.map_cons, List.length_append] at h
      exact List.forall_mem_cons.mpr ⟨i.normal_length_eq_iff.mp (by omega), ih (by omega)⟩
  · intro h
    induction items with
    | nil => rfl
    | cons i items ih =>
      obtain ⟨hi, hitems⟩ := List.forall_mem_cons.mp h
      rw [List.flatMap_cons, List.map_cons, List.flatMap_cons, hi.normal_eq, ih hitems]

/-- What comes out is read as the characters that are meant, up to where the literal ended, if and only if no
single quote is behind a backslash. -/
theorem plain_items_iff (items : List Item) {rest : List Char} (hrest : rest.head? ≠ some '\'') :
    Quoted.plain '\'' (items.flatMap Item.normal ++ '\'' :: rest) = some (items.map Item.char, rest) ↔
      ∀ i ∈ items, i.Sound := by
  rw [plain_eq_some_iff, ← flatMap_normal_eq_iff, List.append_cancel_right_eq]
  exact and_iff_left hrest

/-! ## A field equal to the literal -/

/-- The text that is meant. -/
def meant (items : List Item) : String := String.ofList (items.map Item.char)

theorem normalize_doubleQuotes {items : List Item} (h : ∀ i ∈ items, i.Sound) (s : List Char) :
    normalize (doubleQuotes items ++ s) = Constant.quotedChars (meant items) .sql ++ normalize s := by
  rw [normalize_items, (flatMap_normal_eq_iff items).mpr h]
  simp [Constant.quotedChars, meant]

def doubleQuoted (items : List Item) (h : ∀ i ∈ items, i.Sound) : Operand where
  chars := doubleQuotes items
  tokens := [.literal (.text (meant items))]
  expr := .literal (.text (meant items))
  above := 0
  value := .text (meant items)
  begins := ⟨'"', _, rfl, by decide, by decide, by decide⟩
  endsSign style s := by
    refine EndsOperator.endsSign ?_ _ _
    rw [normalize_doubleQuotes h]
    rintro c ⟨rfl⟩
    rfl
  lexed hs hmore := by
    rw [normalize_doubleQuotes h]
    exact .text _ hs hmore
  termed := termed_literal _
  avoids := ⟨_, [], rfl, fun w hw => by cases hw⟩
  shallow := by decide
  constant_eq _ := rfl
  ne_null := nofun

/-- A literal in double quotes comes out as one literal in single quotes that denotes exactly the characters
meant and ends where it did, if and only if no single quote is behind a backslash. Then a field set equal to it
equals exactly that text, if its path is not too deep to be read. -/
theorem ofText_items (items : List Item) :
    (∀ s, (normalize s).head? ≠ some '\'' →
      ((∃ body, normalize (doubleQuotes items ++ s) = '\'' :: body ∧
          Quoted.plain '\'' body = some (items.map Item.char, normalize s)) ↔ ∀ i ∈ items, i.Sound)) ∧
    ((∀ i ∈ items, i.Sound) → ∀ (q : Equation) (bindings : List (String × Value)),
      Query.ofText ⟨none, bindings, Rule.all⟩ (q.text (doubleQuotes items)) =
        if q.accessor.levels ≤ Grammar.maxLevels then
          .ok (.unary q.field.path (.comparison .equalTo) (.text (String.ofList (items.map Item.char))))
        else .error .unreadable) := by
  refine ⟨fun s hs => ?_, fun h q bindings => q.ofText_eq (doubleQuoted items h) bindings⟩
  rw [← plain_items_iff items hs, normalize_items]
  constructor
  · rintro ⟨body, hbody, hplain⟩
    cases hbody
    exact hplain
  · exact fun hplain => ⟨_, rfl, hplain⟩

/-- The field `F`, a lambda's sign of equality, and a space on both sides of it. -/
def Equation.plain : Equation where
  head := none
  field := ⟨⟨⟨"F", rfl, by decide⟩, []⟩, []⟩
  before := Space.single.toGap
  style := .lambda
  after := Space.single.toGap

/-- A plain single quote, and behind backslashes a double quote and a backslash. -/
theorem quotes_within :
    Query.ofText .empty "F == \"a'\\\"\\\\\"" = .ok (.unary "F" (.comparison .equalTo) (.text "a'\"\\")) := by
  refine (ofText_items [.plain 'a' (by decide), .plain '\'' (by decide), .escaped '"', .escaped '\\']).2 ?_ .plain []
  simp [Item.Sound]

/-- A single quote behind a backslash ends the text, and the rest of it is taken for a comment. -/
theorem escaped_quote_ends :
    Equation.plain.text (doubleQuotes
        [.plain 'a' (by decide), .escaped '\'', .plain '-' (by decide), .plain '-' (by decide)]) =
      "F == \"a\\'--\"" ∧
      Query.ofText .empty "F == \"a\\'--\"" = .ok (.unary "F" (.comparison .equalTo) (.text "a")) :=
  ⟨by decide, by rfl⟩

end DocQuery.Predicate
