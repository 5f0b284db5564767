/-
  DocQuery.Proofs.Predicate.Parts — a predicate text is normalized part by part.

  A text is cut at its literals (`Cut`): one in single quotes ends at the next single quote, one in double
  quotes at the next double quote that is behind no backslash, and between them stand texts without quotes.
  Outside of literals `&&`, `||`, `==` and numeric indexers are rewritten (`Replaced`), wherever one comes first
  from the left (`Rewrites`). None of these has a quote in it, so what stands in front of a literal is rewritten
  as it is alone, also where a bracket is left open in it (`Rewrites.normalize_append`). The whole text comes to
  the parts, each normalized by itself (`normalize_cut`).
-/

import DocQuery.Proofs.Predicate.Escapes

namespace DocQuery.Predicate

open Text (Indexer)

/-! ## Outside of literals -/

/-- What is rewritten, and to what. -/
inductive Replaced : List Char → List Char → Prop
  | and : Replaced ['&', '&'] [' ', 'A', 'N', 'D', ' ']
  | or : Replaced ['|', '|'] [' ', 'O', 'R', ' ']
  | equal : Replaced ['=', '='] ['=']
  | indexer (i : Indexer Char.isDigit) : Replaced i.chars []

/-- From the left, what can be rewritten is, and every other character is kept. -/
inductive Rewrites : List Char → List Char → Prop
  | nil : Rewrites [] []
  | replaced {w r s out : List Char} : Replaced w r → Rewrites s out → Rewrites (w ++ s) (r ++ out)
  | kept {c : Char} {s out : List Char} :
      (∀ w r, Replaced w r → ¬ w <+: c :: s) → Rewrites s out → Rewrites (c :: s) (c :: out)

def isQuote (c : Char) : Bool := c == '\'' || c == '"'

theorem isQuote_cases {c : Char} (h : isQuote c = true) : c = '\'' ∨ c = '"' := by
  simpa [isQuote] using h

/-- No literal begins in the text. -/
def Unquoted (s : List Char) : Prop := ∀ c ∈ s, isQuote c = false

instance (s : List Char) : Decidable (Unquoted s) := List.decidableBAll _ s

/-- The text is empty or a literal comes first. -/
def StartsQuoted (t : List Char) : Prop := ∀ c, t.head? = some c → isQuote c = true

namespace Replaced

variable {w r : List Char}

theorem ne_nil (h : Replaced w r) : w ≠ [] := by
  cases h <;> exact List.cons_ne_nil _ _

theorem unquoted (h : Replaced w r) : Unquoted w := by
  cases h with
  | and => decide
  | or => decide
  | equal => decide
  | indexer i =>
    have hinner : Unquoted i.inner := by
      intro c hc
      by_contra hquote
      rcases isQuote_cases (eq_true_of_ne_false hquote) with rfl | rfl
      · exact i.not_mem_inner (by decide) (by decide) hc
      · exact i.not_mem_inner (by decide) (by decide) hc
    have hclose : Unquoted [']'] := by decide
    exact List.forall_mem_cons.mpr ⟨by decide, List.forall_mem_append.mpr ⟨hinner, hclose⟩⟩

/-- No literal that comes next takes part in it. -/
theorem prefix_of_append (h : Replaced w r) {s t : List Char} (ht : StartsQuoted t) (hp : w <+: s ++ t) : w <+: s := by
  rcases List.prefix_or_prefix_of_prefix hp (List.prefix_append s t) with hw | ⟨u, rfl⟩
  · exact hw
  · cases u with
    | nil => simp
    | cons c u =>
      obtain ⟨rest, rfl⟩ := (List.prefix_append_right_inj s).mp hp
      have hquote := ht c rfl
      rw [h.unquoted c (List.mem_append_right s List.mem_cons_self)] at hquote
      cases hquote

end Replaced

theorem exists_rewrites : ∀ s : List Char, ∃ out, Rewrites s out
  | [] => ⟨[], .nil⟩
  | c :: s => by
    by_cases h : ∃ w r, Replaced w r ∧ w <+: c :: s
    · obtain ⟨w, r, hw, rest, hrest⟩ := h
      have hshorter : rest.length < (c :: s).length := by
        have hpos := List.length_pos_of_ne_nil hw.ne_nil
        rw [← hrest, List.length_append]
        omega
      obtain ⟨out, hout⟩ := exists_rewrites rest
      exact ⟨r ++ out, hrest ▸ .replaced hw hout⟩
    · obtain ⟨out, hout⟩ := exists_rewrites s
      exact ⟨c :: out, .kept (fun w r hw hp => h ⟨w, r, hw, hp⟩) hout⟩
termination_by s => s.length
decreasing_by
  · exact hshorter
  · exact Nat.lt_succ_self _

/-! ### One step -/

/-- An indexer is found exactly where one stands. -/
theorem opensIndexer_iff {r : List Char} :
    opensIndexer r = true ↔ ∃ (i : Indexer Char.isDigit) (s : List Char), r = i.inner ++ ']' :: s := by
  constructor
  · intro h
    simp only [opensIndexer, Bool.and_eq_true, Bool.not_eq_true', List.isEmpty_eq_false_iff, List.all_eq_true,
      List.contains_eq_mem, decide_eq_true_eq] at h
    obtain ⟨⟨hclose, hne⟩, hdigits⟩ := h
    obtain ⟨front, back, hfront, hback, hinner⟩ := Text.exists_trimmed (r.takeWhile (· != ']'))
    obtain ⟨a, s, rfl, ha⟩ := List.eq_append_cons_of_mem hclose
    rw [Text.takeWhile_mark ha] at hne hdigits hinner
    exact ⟨⟨front, Text.trimChars a, back, hfront, hne, hdigits, hback⟩, s, by rw [Indexer.inner, ← hinner]⟩
  · rintro ⟨i, s, rfl⟩
    exact opensIndexer_inner i s

theorem Replaced.normalize {w r : List Char} (h : Replaced w r) (s : List Char) :
    normalize (w ++ s) = r ++ normalize s := by
  cases h with
  | and => rfl
  | or => rfl
  | equal => rfl
  | indexer i => exact normalize_indexer i s

theorem normalize_kept {c : Char} {s : List Char} (hc : isQuote c = false)
    (h : ∀ w r, Replaced w r → ¬ w <+: c :: s) : normalize (c :: s) = c :: normalize s := by
  obtain ⟨hsingle, hdouble⟩ : c ≠ '\'' ∧ c ≠ '"' := by simpa [isQuote] using hc
  by_cases hbracket : c = '['
  · subst hbracket
    have hopen : opensIndexer s = false := by
      by_contra ho
      obtain ⟨i, rest, rfl⟩ := opensIndexer_iff.mp (eq_true_of_ne_false ho)
      exact h _ _ (.indexer i) ⟨rest, by simp [Indexer.chars]⟩
    unfold normalize
    rw [normalizeFrom, hopen]
    rfl
  · by_cases hplain : isPlain c = true
    · exact normalize_cons hplain s
    · refine normalize_lone (by simp [hsingle, hdouble, hbracket]) fun hs => ?_
      obtain ⟨rest, rfl⟩ := List.head?_eq_some_iff.mp hs
      have hoperator : c = '&' ∨ c = '|' ∨ c = '=' := by
        simpa [isPlain, hsingle, hdouble, hbracket, or_iff_not_imp_left] using hplain
      rcases hoperator with rfl | rfl | rfl
      · exact h _ _ .and ⟨rest, rfl⟩
      · exact h _ _ .or ⟨rest, rfl⟩
      · exact h _ _ .equal ⟨rest, rfl⟩

/-! ### A whole part -/

/-- In front of a literal a part is rewritten as it is alone. -/
theorem Rewrites.normalize_append {s out t : List Char} (h : Rewrites s out) (hs : Unquoted s) (ht : StartsQuoted t) :
    normalize (s ++ t) = out ++ normalize t := by
  induction h with
  | nil => rfl
  | replaced hw _ ih =>
    rw [List.append_assoc, hw.normalize, ih fun c hc => hs c (List.mem_append_right _ hc), List.append_assoc]
  | @kept c s out hkept _ ih =>
    obtain ⟨hc, hs⟩ := List.forall_mem_cons.mp hs
    have hstep : normalize (c :: (s ++ t)) = c :: normalize (s ++ t) :=
      normalize_kept hc fun w r hw hp => hkept w r hw (hw.prefix_of_append (s := c :: s) ht hp)
    rw [List.cons_append, hstep, ih hs, List.cons_append]

theorem Unquoted.rewrites_iff {s : List Char} (h : Unquoted s) (out : List Char) :
    Rewrites s out ↔ normalize s = out := by
  have hnormal : ∀ out, Rewrites s out → normalize s = out := by
    intro out hout
    have hwhole := hout.normalize_append h (t := []) nofun
    rwa [List.append_nil, show normalize [] = [] from rfl, List.append_nil] at hwhole
  constructor
  · exact hnormal out
  · rintro rfl
    obtain ⟨out, hout⟩ := exists_rewrites s
    rwa [hnormal out hout]

/-! ## Literals -/

/-- A literal that is closed. -/
inductive Quotation where
  | single (body : List Char) (h : '\'' ∉ body)
  | double (items : List Item)

namespace Quotation

def chars : Quotation → List Char
  | single body _ => '\'' :: (body ++ ['\''])
  | double items => doubleQuotes items

/-- The literal in single quotes that it comes to: itself, or the one it is converted to. -/
def converted : Quotation → List Char
  | single body _ => '\'' :: (body ++ ['\''])
  | double items => '\'' :: (items.flatMap Item.normal ++ ['\''])

theorem startsQuoted (q : Quotation) (s : List Char) : StartsQuoted (q.chars ++ s) := by
  cases q with
  | single body h => rintro c ⟨rfl⟩; rfl
  | double items => rintro c ⟨rfl⟩; rfl

theorem normalize_chars (q : Quotation) (s : List Char) : normalize (q.chars ++ s) = q.converted ++ normalize s := by
  cases q with
  | single body h =>
    have hone : ∀ c ∈ body, Constant.singleQuoted c = [c] := fun c hc =>
      Constant.singleQuoted_of_ne (ne_of_mem_of_not_mem hc h)
    have hbody : body.flatMap Constant.singleQuoted = body := by
      rw [List.flatMap_congr hone, List.flatMap_singleton']
    have hcopied := normalize_single body s
    rw [hbody] at hcopied
    simp only [chars, converted, List.cons_append, List.append_assoc, List.nil_append]
    exact congrArg ('\'' :: ·) hcopied
  | double items =>
    rw [chars, normalize_items]
    simp [converted]

end Quotation

/-! ## A text in parts -/

/-- What stands outside of literals. -/
structure Part where
  chars : List Char
  unquoted : Unquoted chars

/-- Parts outside of literals, and between two of them a literal. -/
structure Cut where
  first : Part
  rest : List (Quotation × Part)

def Cut.chars (c : Cut) : List Char := c.first.chars ++ c.rest.flatMap fun p => p.1.chars ++ p.2.chars

theorem Part.normalize_append (p : Part) {t : List Char} (ht : StartsQuoted t) :
    normalize (p.chars ++ t) = normalize p.chars ++ normalize t :=
  ((p.unquoted.rewrites_iff _).mpr rfl).normalize_append p.unquoted ht

/-- Literals in single quotes are copied, those in double quotes converted, and what stands outside of them is
rewritten part by part, as if the part were the whole text, whether its brackets are closed or not. -/
theorem normalize_cut (c : Cut) :
    normalize c.chars =
        normalize c.first.chars ++ c.rest.flatMap (fun p => p.1.converted ++ normalize p.2.chars) ∧
      ∀ (p : Part) (out : List Char), Rewrites p.chars out ↔ normalize p.chars = out := by
  refine ⟨?_, fun p out => p.unquoted.rewrites_iff out⟩
  obtain ⟨first, rest⟩ := c
  simp only [Cut.chars]
  induction rest generalizing first with
  | nil => simp
  | cons p rest ih =>
    obtain ⟨q, p⟩ := p
    simp only [List.flatMap_cons, List.append_assoc]
    rw [first.normalize_append (q.startsQuoted _), q.normalize_chars, ih p]

/-- Operators, indexers and brackets in literals, and a bracket that is open in front of one. -/
example : normalize "[0' && ]' == \"[1] || 'a'\"[2]".toList = "[0' && ]' = '[1] || ''a'''".toList := by decide

end DocQuery.Predicate
