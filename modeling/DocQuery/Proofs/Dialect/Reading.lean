/-
  DocQuery.Proofs.Dialect.Reading — the pieces of a statement's text are read back in one way.

  A location is written as its source, a separator and a path literal. The source has no
  character that starts a separator and the literal ends with its second quote, so the text of a
  location, whatever follows it, gives the location back (`reference_cut`). A cast puts a fixed
  text before and after; what comes first in it tells it from a bare location and from the other
  casts that start otherwise (`open_clash`).
-/

import DocQuery.Proofs.Path.Address
import DocQuery.Proofs.Text.Cut
import DocQuery.Statement.Text

namespace DocQuery

open DocQuery.Path Statement Text

/-- The scalar types, to check facts on all of them at once. -/
def scalars : List Scalar := [.string, .int, .float, .bool, .datetime, .guid]

theorem mem_scalars (s : Scalar) : s ∈ scalars := by cases s <;> decide

theorem Dialect.mem_all (d : Dialect) : d ∈ Dialect.all := by cases d <;> decide

/-! ## Names between marks -/

theorem Path.mem_separated {c x : Char} {names : List String}
    (h : x ∈ [c].intercalate (names.map String.toList)) : x = c ∨ ∃ n ∈ names, x ∈ n.toList := by
  induction names with
  | nil => simp at h
  | cons n rest ih =>
    cases rest with
    | nil => exact Or.inr ⟨n, by simp, by simpa using h⟩
    | cons m more =>
      simp only [List.map_cons, List.intercalate_cons_cons, List.append_assoc, List.mem_append,
        List.mem_singleton] at h
      rcases h with h | rfl | h
      · exact Or.inr ⟨n, by simp, h⟩
      · exact Or.inl rfl
      · rcases ih (by simpa using h) with h | ⟨k, hk, h⟩
        · exact Or.inl h
        · exact Or.inr ⟨k, List.mem_cons_of_mem _ hk, h⟩

theorem Path.not_mem_separated {c x : Char} {names : List String} (h : ∀ n ∈ names, Name.Identifier n)
    (hx : Name.isPart x = false) (hc : x ≠ c) : x ∉ [c].intercalate (names.map String.toList) := by
  intro hm
  rcases mem_separated hm with e | ⟨n, hn, hm⟩
  · exact hc e
  · exact (h n hn).not_mem hx hm

theorem Path.not_mem_dotted {x : Char} {names : List String} (h : ∀ n ∈ names, Name.Identifier n)
    (hx : Name.isPart x = false) (hc : x ≠ '.') : x ∉ (dotted names).toList := by
  rw [toList_dotted]; exact not_mem_separated h hx hc

namespace Dialect

theorem toList_quotedBy {left right : Char} {name : String} (h : right ∉ name.toList) :
    (quotedBy left right name).toList = left :: (name.toList ++ [right]) := by
  have hflat : ∀ l : List Char, right ∉ l → l.flatMap (fun c => if c == right then [c, c] else [c]) = l := by
    intro l hl
    induction l with
    | nil => rfl
    | cons c rest ih =>
      have hc : (c == right) = false := beq_eq_false_iff_ne.mpr fun e => hl (e ▸ List.mem_cons_self ..)
      rw [List.flatMap_cons, ih fun hm => hl (List.mem_cons_of_mem _ hm), hc]; rfl
  rw [quotedBy, String.toList_ofList, hflat _ h]; rfl

/-! ## Sources -/

/-- What stands before and after the label in the text of a join's element. -/
def elementOpen : Dialect → Char
  | sqlserver => '['
  | _ => '"'

def elementEnd : Dialect → Char
  | sqlserver => ']'
  | _ => '"'

def elementClose : Dialect → String
  | sqlserver => ""
  | _ => ".value"

theorem toList_element (d : Dialect) {names : List String} (h : ∀ n ∈ names, Name.Identifier n) :
    (d.element (dotted names)).toList =
      d.elementOpen :: ((dotted names).toList ++ d.elementEnd :: d.elementClose.toList) := by
  have hquote : '"' ∉ (dotted names).toList := not_mem_dotted h (by decide) (by decide)
  have hbracket : ']' ∉ (dotted names).toList := not_mem_dotted h (by decide) (by decide)
  cases d <;>
    simp [element, quoteIdentifier, toList_quotedBy, hquote, hbracket, elementOpen, elementEnd, elementClose]

/-- A character that ends a source: it starts a separator or a line. -/
def IsGap (c : Char) : Prop := c = ',' ∨ c = ' ' ∨ c = '\n'

theorem source_gap (d : Dialect) {source : Source} {above : List String} (hl : Labelled above source)
    (h : ∀ n ∈ above, Name.Identifier n) {c : Char} (hc : IsGap c) : c ∉ (source.text d).toList := by
  cases source with
  | document => rcases hc with rfl | rfl | rfl <;> simp [Source.text, documentColumn]
  | element label =>
    obtain ⟨-, rfl⟩ := hl
    have hd : c ∉ (dotted above).toList := by
      rcases hc with rfl | rfl | rfl <;> exact not_mem_dotted h (by decide) (by decide)
    rw [Source.text, toList_element d h]
    rcases hc with rfl | rfl | rfl <;> cases d <;> simp [elementOpen, elementEnd, elementClose, hd]

theorem source_injective (d : Dialect) {a b : Source} {above above' : List String} (ha : Labelled above a)
    (hb : Labelled above' b) (hia : ∀ n ∈ above, Name.Identifier n) (hib : ∀ n ∈ above', Name.Identifier n)
    (h : (a.text d).toList = (b.text d).toList) : a = b := by
  have hclash : ∀ (names : List String), (∀ n ∈ names, Name.Identifier n) →
      (Source.document.text d).toList ≠ ((Source.element (dotted names)).text d).toList := by
    intro names hn e
    rw [Source.text, Source.text, toList_element d hn] at e
    cases d <;> simp [documentColumn, elementOpen] at e
  cases a with
  | document =>
    cases b with
    | document => rfl
    | element label => obtain ⟨-, rfl⟩ := hb; exact absurd h (hclash above' hib)
  | element label =>
    obtain ⟨-, rfl⟩ := ha
    cases b with
    | document => exact absurd h.symm (hclash above hia)
    | element label' =>
      obtain ⟨-, rfl⟩ := hb
      rw [Source.text, Source.text, toList_element d hia, toList_element d hib] at h
      have hend : ∀ names : List String, (∀ n ∈ names, Name.Identifier n) →
          d.elementEnd ∉ (dotted names).toList := fun names hn => by
        cases d <;> exact not_mem_dotted hn (by decide) (by decide)
      obtain ⟨e, -⟩ := cut (hend above hia) (hend above' hib) (List.cons.inj h).2
      rw [String.toList_inj.mp e]

/-! ## Path literals -/

theorem toList_steps {path : List String} (hne : path ≠ []) :
    (String.join (path.map ("." ++ ·))).toList = '.' :: (dotted path).toList := by
  induction path with
  | nil => exact absurd rfl hne
  | cons n rest ih =>
    cases rest with
    | nil => simp [dotted]
    | cons m more =>
      have := ih (by simp)
      simp only [List.map_cons, String.join_cons, String.toList_append] at this ⊢
      rw [this]
      simp [toList_dotted]

/-- What a path literal has between its quotes. -/
def literalBody (d : Dialect) (path : List String) : List Char :=
  match d with
  | postgres => '{' :: ([','].intercalate (path.map String.toList) ++ ['}'])
  | _ => '$' :: '.' :: (dotted path).toList

theorem toList_pathLiteral (d : Dialect) {path : List String} (hne : path ≠ []) :
    (d.pathLiteral path).toList = '\'' :: (d.literalBody path ++ ['\'']) := by
  cases d <;> simp [pathLiteral, stepsLiteral, arrayLiteral, literalBody, toList_steps hne, String.toList_intercalate]

theorem literalBody_quote (d : Dialect) {path : List String} (h : ∀ n ∈ path, Name.Identifier n) :
    '\'' ∉ d.literalBody path := by
  have hdot : '\'' ∉ (dotted path).toList := not_mem_dotted h (by decide) (by decide)
  have hcomma : '\'' ∉ [','].intercalate (path.map String.toList) := not_mem_separated h (by decide) (by decide)
  cases d <;> simp [literalBody, hdot, hcomma]

theorem literalBody_injective (d : Dialect) {a b : List String} (ha : ∀ n ∈ a, Name.Identifier n)
    (hb : ∀ n ∈ b, Name.Identifier n) (h : d.literalBody a = d.literalBody b) : a = b := by
  have hdot : (dotted a).toList = (dotted b).toList → a = b :=
    fun e => dotted_injective ha hb (String.toList_inj.mp e)
  cases d with
  | sqlserver => exact hdot (by simpa [literalBody] using h)
  | postgres =>
    refine separated_injective (c := ',') (by decide) ha hb ?_
    simpa [literalBody] using h
  | sqlite => exact hdot (by simpa [literalBody] using h)

theorem literalBody_line (d : Dialect) {path : List String} (h : ∀ n ∈ path, Name.Identifier n) :
    '\n' ∉ d.literalBody path := by
  have hdot : '\n' ∉ (dotted path).toList := not_mem_dotted h (by decide) (by decide)
  have hcomma : '\n' ∉ [','].intercalate (path.map String.toList) := not_mem_separated h (by decide) (by decide)
  cases d <;> simp [literalBody, hdot, hcomma]

/-! ## Locations -/

/-- A location between the brackets that are put around it. -/
def reference (d : Dialect) (separator : String) (l : Location) : String :=
  l.source.text d ++ separator ++ d.pathLiteral l.path

/-- A location's text and what follows it give the location back. -/
theorem reference_cut (d : Dialect) {separator : String} {c : Char} {rest : List Char}
    (hsep : separator.toList = c :: rest) (hc : IsGap c) {l l' : Location} (hl : l.Plain) (hl' : l'.Plain)
    {x y : List Char} (h : (d.reference separator l).toList ++ x = (d.reference separator l').toList ++ y) :
    l = l' ∧ x = y := by
  obtain ⟨above, hlab, habove⟩ := hl.source_identifier
  obtain ⟨above', hlab', habove'⟩ := hl'.source_identifier
  simp only [reference, String.toList_append, hsep, List.append_assoc, List.cons_append] at h
  obtain ⟨hsource, hrest⟩ := cut (source_gap d hlab habove hc) (source_gap d hlab' habove' hc) h
  have hliteral := List.append_cancel_left hrest
  rw [toList_pathLiteral d hl.path_ne, toList_pathLiteral d hl'.path_ne] at hliteral
  simp only [List.cons_append, List.append_assoc, List.nil_append, List.cons.injEq, true_and] at hliteral
  obtain ⟨hbody, hxy⟩ := cut (literalBody_quote d hl.path_identifier) (literalBody_quote d hl'.path_identifier) hliteral
  refine ⟨?_, hxy⟩
  have hs := source_injective d hlab hlab' habove habove' hsource
  have hp := literalBody_injective d hl.path_identifier hl'.path_identifier hbody
  cases l; cases l'
  simp_all

/-! ## Extracts -/

def extractOpen : Dialect → String
  | sqlserver => "JSON_VALUE("
  | postgres => ""
  | sqlite => "json_extract("

def extractSeparator : Dialect → String
  | postgres => " #>> "
  | _ => ", "

def extractClose : Dialect → String
  | postgres => ""
  | _ => ")"

theorem text_eq (d : Dialect) (l : Location) :
    l.text d = d.extractOpen ++ d.reference d.extractSeparator l ++ d.extractClose := by
  cases d with
  | sqlserver =>
    show "JSON_VALUE(" ++ _ ++ ", " ++ _ ++ ")" = "JSON_VALUE(" ++ (_ ++ ", " ++ _) ++ ")"
    simp only [String.append_assoc]
  | postgres => show _ ++ " #>> " ++ _ = "" ++ (_ ++ " #>> " ++ _) ++ ""; simp
  | sqlite =>
    show "json_extract(" ++ _ ++ ", " ++ _ ++ ")" = "json_extract(" ++ (_ ++ ", " ++ _) ++ ")"
    simp only [String.append_assoc]

theorem extractSeparator_gap (d : Dialect) : ∃ c rest, d.extractSeparator.toList = c :: rest ∧ IsGap c := by
  cases d
  · exact ⟨',', [' '], rfl, Or.inl rfl⟩
  · exact ⟨' ', "#>> ".toList, rfl, Or.inr (Or.inl rfl)⟩
  · exact ⟨',', [' '], rfl, Or.inl rfl⟩

/-- An extracted value's text gives its location back. -/
theorem text_cut (d : Dialect) {l l' : Location} (hl : l.Plain) (hl' : l'.Plain) {x y : List Char}
    (h : (l.text d).toList ++ x = (l'.text d).toList ++ y) : l = l' ∧ x = y := by
  simp only [text_eq, String.toList_append, List.append_assoc] at h
  obtain ⟨c, rest, hsep, hc⟩ := d.extractSeparator_gap
  obtain ⟨e, hxy⟩ := d.reference_cut hsep hc hl hl' (List.append_cancel_left h)
  exact ⟨e, List.append_cancel_left hxy⟩

/-! ## Casts -/

/-- What a cast puts before an expression. -/
def castOpen : Dialect → Scalar → String
  | _, .string => ""
  | _, .guid => ""
  | sqlserver, .int => "CONVERT(int, "
  | sqlserver, .float => "CONVERT(float, "
  | sqlserver, .bool => "CONVERT(bit, "
  | sqlserver, .datetime => "CONVERT(datetime2, "
  | postgres, _ => "("
  | sqlite, .datetime => "strftime('%Y-%m-%d %H:%M:%f', "
  | sqlite, _ => "CAST("

/-- What a cast puts after an expression. -/
def castClose : Dialect → Scalar → String
  | _, .string => ""
  | _, .guid => ""
  | sqlserver, .datetime => ", 127)"
  | sqlserver, _ => ")"
  | postgres, .int => ")::integer"
  | postgres, .float => ")::double precision"
  | postgres, .bool => ")::boolean"
  | postgres, .datetime => ")::timestamptz"
  | sqlite, .float => " AS REAL)"
  | sqlite, .datetime => ")"
  | sqlite, _ => " AS INTEGER)"

theorem castScalar_eq (d : Dialect) (e : String) (s : Scalar) :
    d.castScalar e s = d.castOpen s ++ e ++ d.castClose s := by
  cases s with
  | string => show e = "" ++ e ++ ""; simp
  | guid => show e = "" ++ e ++ ""; simp
  | _ => cases d <;> rfl

/-- What an expression that is cast can start with: a location, or a member of an array. -/
def castStarts : Dialect → List String
  | postgres => ["value", documentColumn, "\""]
  | d => ["value", d.extractOpen]

theorem text_starts (d : Dialect) {l : Location} (hl : l.Plain) :
    ∃ start ∈ d.castStarts, ∃ rest, (l.text d).toList = start.toList ++ rest := by
  rw [text_eq, String.toList_append, String.toList_append]
  cases d with
  | sqlserver => exact ⟨extractOpen .sqlserver, List.mem_cons_of_mem _ (List.mem_cons_self ..), _, List.append_assoc ..⟩
  | sqlite => exact ⟨extractOpen .sqlite, List.mem_cons_of_mem _ (List.mem_cons_self ..), _, List.append_assoc ..⟩
  | postgres =>
    obtain ⟨above, hlab, habove⟩ := hl.source_identifier
    simp only [extractOpen, String.toList_empty, List.nil_append, reference, String.toList_append, List.append_assoc]
    cases hs : l.source with
    | document => exact ⟨documentColumn, List.mem_cons_of_mem _ (List.mem_cons_self ..), _, rfl⟩
    | element label =>
      rw [hs] at hlab
      obtain ⟨-, rfl⟩ := hlab
      rw [Source.text, toList_element postgres habove]
      exact ⟨"\"", List.mem_cons_of_mem _ (List.mem_cons_of_mem _ (List.mem_cons_self ..)), _, rfl⟩

/-- The start of a cast and of the expression in it. -/
def castStart (d : Dialect) (s : Scalar) (start : String) : List Char := (d.castOpen s ++ start).toList

theorem typedText_starts (d : Dialect) (s : Scalar) {l : Location} (hl : l.Plain) :
    ∃ start ∈ d.castStarts, ∃ rest, (l.typedText d s).toList = d.castStart s start ++ rest := by
  obtain ⟨start, hs, rest, hr⟩ := d.text_starts hl
  exact ⟨start, hs, rest ++ (d.castClose s).toList, by simp [Location.typedText, castScalar_eq, castStart, hr]⟩

/-- Casts that start differently cannot be taken for each other. -/
theorem open_clash (d : Dialect) (s s' : Scalar) : d.castOpen s = d.castOpen s' ∨
    ∀ a ∈ d.castStarts, ∀ b ∈ d.castStarts, Clash (d.castStart s a) (d.castStart s' b) := by
  have check : ∀ d ∈ Dialect.all, ∀ s ∈ scalars, ∀ s' ∈ scalars, d.castOpen s = d.castOpen s' ∨
      ∀ a ∈ d.castStarts, ∀ b ∈ d.castStarts, Clash (d.castStart s a) (d.castStart s' b) := by decide +kernel
  exact check d (mem_all d) s (mem_scalars s) s' (mem_scalars s')

/-- Nor can those that start alike and end differently. -/
theorem close_clash (d : Dialect) (s s' : Scalar) : d.castOpen s = d.castOpen s' →
    d.castClose s = d.castClose s' ∨ Clash (d.castClose s).toList (d.castClose s').toList := by
  have check : ∀ d ∈ Dialect.all, ∀ s ∈ scalars, ∀ s' ∈ scalars, d.castOpen s = d.castOpen s' →
      d.castClose s = d.castClose s' ∨ Clash (d.castClose s).toList (d.castClose s').toList := by decide +kernel
  exact check d (mem_all d) s (mem_scalars s) s' (mem_scalars s')

/-- Two cast expressions that go on alike start with the same cast. -/
theorem castOpen_eq (d : Dialect) {s s' : Scalar} {e e' a b : String} (ha : a ∈ d.castStarts) (hb : b ∈ d.castStarts)
    {p q x y : List Char} (he : e.toList = a.toList ++ p) (he' : e'.toList = b.toList ++ q)
    (h : (d.castScalar e s).toList ++ x = (d.castScalar e' s').toList ++ y) : d.castOpen s = d.castOpen s' := by
  rcases d.open_clash s s' with e | hc
  · exact e
  · simp only [castScalar_eq, String.toList_append, he, he', List.append_assoc] at h
    have hne := (hc a ha b hb).append_ne (x := p ++ ((d.castClose s).toList ++ x))
      (y := q ++ ((d.castClose s').toList ++ y))
    simp only [castStart, String.toList_append, List.append_assoc] at hne
    exact absurd h hne

/-- A typed value's text gives its location back, and the text of its cast. -/
theorem typedText_cut (d : Dialect) {l l' : Location} {s s' : Scalar} (hl : l.Plain) (hl' : l'.Plain) {x y : List Char}
    (h : (l.typedText d s).toList ++ x = (l'.typedText d s').toList ++ y) :
    l = l' ∧ d.castOpen s = d.castOpen s' ∧ x = y := by
  obtain ⟨a, ha, p, hp⟩ := d.text_starts hl
  obtain ⟨b, hb, q, hq⟩ := d.text_starts hl'
  have hopen := d.castOpen_eq ha hb hp hq h
  simp only [Location.typedText, castScalar_eq, String.toList_append, List.append_assoc, hopen] at h
  obtain ⟨hloc, hxy⟩ := d.text_cut hl hl' (List.append_cancel_left h)
  refine ⟨hloc, hopen, ?_⟩
  rcases d.close_clash s s' hopen with e | hc
  · rw [e] at hxy; exact List.append_cancel_left hxy
  · exact absurd hxy hc.append_ne

/-- A cast that starts with a bracket alone closes it at once after the expression. -/
theorem castOpen_bracket (d : Dialect) (s : Scalar) : (d.castOpen s = "(" ∧ (d.castClose s).toList.head? = some ')') ∨
    ∀ a ∈ d.castStarts, Clash (d.castStart s a) ['('] := by
  have check : ∀ d ∈ Dialect.all, ∀ s ∈ scalars, (d.castOpen s = "(" ∧ (d.castClose s).toList.head? = some ')') ∨
      ∀ a ∈ d.castStarts, Clash (d.castStart s a) ['('] := by decide +kernel
  exact check d (mem_all d) s (mem_scalars s)

/-! ## Value sets -/

def rowsFunction : Dialect → String
  | sqlserver => "OPENJSON("
  | postgres => "jsonb_array_elements_text("
  | sqlite => "json_each("

def rowsSeparator : Dialect → String
  | postgres => " #> "
  | _ => ", "

theorem rowsSeparator_gap (d : Dialect) : ∃ c rest, d.rowsSeparator.toList = c :: rest ∧ IsGap c := by
  cases d
  · exact ⟨',', [' '], rfl, Or.inl rfl⟩
  · exact ⟨' ', "#> ".toList, rfl, Or.inr (Or.inl rfl)⟩
  · exact ⟨',', [' '], rfl, Or.inl rfl⟩

theorem valueSet_eq (d : Dialect) (l : Location) (s : Scalar) : d.valueSet (l.source.text d) l.path s = "SELECT " ++
    (d.castScalar "value" s ++ (" FROM " ++ (d.rowsFunction ++ (d.reference d.rowsSeparator l ++ ")")))) := by
  cases d <;> simp only [valueSet, reference, rowsFunction, rowsSeparator, String.append_assoc]

theorem valueSet_cut (d : Dialect) {l l' : Location} {s s' : Scalar} (hl : l.Plain) (hl' : l'.Plain) {x y : List Char}
    (h : (d.valueSet (l.source.text d) l.path s).toList ++ x =
      (d.valueSet (l'.source.text d) l'.path s').toList ++ y) : l = l' ∧ x = y := by
  simp only [valueSet_eq, String.toList_append, List.append_assoc] at h
  have hcast := List.append_cancel_left h
  have hvalue : "value" ∈ d.castStarts := by cases d <;> exact List.mem_cons_self ..
  have hopen := d.castOpen_eq hvalue hvalue (List.append_nil _).symm (List.append_nil _).symm hcast
  simp only [castScalar_eq, String.toList_append, List.append_assoc, hopen] at hcast
  have hclose := List.append_cancel_left (List.append_cancel_left hcast)
  rcases d.close_clash s s' hopen with e | hc
  · rw [e] at hclose
    have hrows := List.append_cancel_left (List.append_cancel_left (List.append_cancel_left hclose))
    obtain ⟨c, rest, hsep, hg⟩ := d.rowsSeparator_gap
    obtain ⟨hloc, hxy⟩ := d.reference_cut hsep hg hl hl' hrows
    exact ⟨hloc, List.append_cancel_left hxy⟩
  · exact absurd hclose hc.append_ne

/-! ## Joins -/

theorem quoteIdentifier_line (d : Dialect) {names : List String} (h : ∀ n ∈ names, Name.Identifier n) :
    '\n' ∉ (d.quoteIdentifier (dotted names)).toList := by
  have hline : '\n' ∉ (dotted names).toList := not_mem_dotted h (by decide) (by decide)
  have hquote : '"' ∉ (dotted names).toList := not_mem_dotted h (by decide) (by decide)
  have hbracket : ']' ∉ (dotted names).toList := not_mem_dotted h (by decide) (by decide)
  cases d <;> simp [quoteIdentifier, toList_quotedBy, hquote, hbracket, hline]

/-- A join is one line, and the line starts as no other does. -/
theorem crossApply_line (d : Dialect) {l : Location} (hl : l.Plain) {names : List String}
    (h : ∀ n ∈ names, Name.Identifier n) :
    '\n' ∉ (d.crossApply (l.source.text d) l.path (dotted names)).toList ∧
    (d.crossApply (l.source.text d) l.path (dotted names)).toList.head? = some 'C' := by
  obtain ⟨above, hlab, habove⟩ := hl.source_identifier
  have hsource : '\n' ∉ (l.source.text d).toList := source_gap d hlab habove (Or.inr (Or.inr rfl))
  have hliteral : '\n' ∉ (d.pathLiteral l.path).toList := by
    rw [toList_pathLiteral d hl.path_ne]; simp [literalBody_line d hl.path_identifier]
  have hlabel := d.quoteIdentifier_line h
  cases d with
  | sqlserver =>
    show '\n' ∉ ("CROSS APPLY OPENJSON(" ++ _ ++ ", " ++ _ ++ ") WITH (" ++ _ ++ " nvarchar(MAX) '$' AS JSON)").toList ∧
      ("CROSS APPLY OPENJSON(" ++ _ ++ ", " ++ _ ++ ") WITH (" ++ _ ++ " nvarchar(MAX) '$' AS JSON)").toList.head? = _
    simp only [String.toList_append, List.append_assoc, List.mem_append, not_or]
    exact ⟨⟨by decide, hsource, by decide, hliteral, by decide, hlabel, by decide⟩, rfl⟩
  | postgres =>
    show '\n' ∉ ("CROSS JOIN LATERAL jsonb_array_elements(" ++ _ ++ " #> " ++ _ ++ ") AS " ++ _ ++ "(value)").toList ∧
      ("CROSS JOIN LATERAL jsonb_array_elements(" ++ _ ++ " #> " ++ _ ++ ") AS " ++ _ ++ "(value)").toList.head? = _
    simp only [String.toList_append, List.append_assoc, List.mem_append, not_or]
    exact ⟨⟨by decide, hsource, by decide, hliteral, by decide, hlabel, by decide⟩, rfl⟩
  | sqlite =>
    show '\n' ∉ ("CROSS JOIN json_each(" ++ _ ++ ", " ++ _ ++ ") AS " ++ _).toList ∧
      ("CROSS JOIN json_each(" ++ _ ++ ", " ++ _ ++ ") AS " ++ _).toList.head? = _
    simp only [String.toList_append, List.append_assoc, List.mem_append, not_or]
    exact ⟨⟨by decide, hsource, by decide, hliteral, by decide, hlabel⟩, rfl⟩

end Dialect

end DocQuery
