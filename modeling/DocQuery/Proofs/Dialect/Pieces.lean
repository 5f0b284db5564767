/-
  DocQuery.Proofs.Dialect.Pieces — what reading a piece of a statement's text comes to.

  A text is read character by character (`Scan.next`): a mark opens a quotation, which runs to its
  closing mark, and outside quotations brackets are counted. A piece of text has a span: the depths
  it is read between, and the names it quotes. Reading does not depend on how deep the piece
  stands nor on what was read before (`foldl_next_under`), so spans join end to end (`Spans.append`).
  A `Piece` has a span, stays on one line and holds no placeholder. Constants are checked by
  reading them; names, path literals, locations, casts and joins are pieces of these.
-/

import DocQuery.Proofs.Dialect.Reading

namespace DocQuery

open DocQuery.Path Statement Text

/-- The location is well formed, and read from the document or an element of these labels. -/
structure Statement.Location.Visible (labels : List String) (l : Location) : Prop where
  plain : l.Plain
  visible : ∀ label, l.source = .element label → label ∈ labels

namespace Dialect

/-! ## Reading -/

/-- Where the reading of a text stands. -/
structure Scan where
  /-- In a quotation: the mark that closes it, and what was read of it. -/
  quotation : Option (Char × List Char)
  /-- How many brackets are open. -/
  depth : Nat
  /-- A bracket was closed that was not open. -/
  stray : Bool
  /-- Quoted names, the last one first. -/
  names : List (List Char)
  deriving DecidableEq

/-- The reading after one more character. Between apostrophes is text, between the dialect's own marks a name. -/
def Scan.next (d : Dialect) (s : Scan) (c : Char) : Scan :=
  match s.quotation with
  | some (close, body) =>
    if c == close then { s with quotation := none, names := if close == d.elementEnd then body :: s.names else s.names }
    else { s with quotation := some (close, body ++ [c]) }
  | none =>
    if c == '\'' then { s with quotation := some ('\'', []) }
    else if c == d.elementOpen then { s with quotation := some (d.elementEnd, []) }
    else if c == '(' then { s with depth := s.depth + 1 }
    else if c == ')' then
      match s.depth with
      | 0 => { s with stray := true }
      | depth + 1 => { s with depth := depth }
    else s

/-- The reading of a text that stands in so many brackets. -/
def scanFrom (d : Dialect) (depth : Nat) (text : List Char) : Scan := text.foldl (Scan.next d) ⟨none, depth, false, []⟩

/-- Brackets outside quotations balance, and every quotation ends. -/
def Balanced (d : Dialect) (text : List Char) : Prop :=
  (d.scanFrom 0 text).quotation = none ∧ (d.scanFrom 0 text).depth = 0 ∧ (d.scanFrom 0 text).stray = false

/-- The names quoted in a text. -/
def quotedNames (d : Dialect) (text : List Char) : List (List Char) := (d.scanFrom 0 text).names

/-- The same reading in more brackets, after other names. -/
def Scan.under (depth : Nat) (names : List (List Char)) (s : Scan) : Scan :=
  { s with depth := depth + s.depth, names := s.names ++ names }

theorem Scan.next_stray {d : Dialect} {s : Scan} {c : Char} (h : (s.next d c).stray = false) : s.stray = false := by
  unfold Scan.next at h
  repeat' split at h
  all_goals first | exact h | cases h

theorem foldl_next_stray {d : Dialect} {text : List Char} {s : Scan} (h : (text.foldl (Scan.next d) s).stray = false) :
    s.stray = false := by
  induction text generalizing s with
  | nil => exact h
  | cons c rest ih => exact Scan.next_stray (ih h)

theorem Scan.next_under {d : Dialect} {s : Scan} {c : Char} (h : (s.next d c).stray = false) (depth : Nat)
    (names : List (List Char)) : (s.under depth names).next d c = (s.next d c).under depth names := by
  obtain ⟨quotation, n, stray, seen⟩ := s
  cases quotation with
  | some q =>
    by_cases hclose : c = q.1
    · by_cases hname : q.1 = d.elementEnd <;> simp [Scan.next, Scan.under, hclose, hname]
    · simp [Scan.next, Scan.under, hclose]
  | none =>
    by_cases hquote : c = '\''
    · simp [Scan.next, Scan.under, hquote]
    by_cases hname : c = d.elementOpen
    · subst hname
      simp [Scan.next, Scan.under, hquote]
    by_cases hleft : c = '('
    · subst hleft
      simp [Scan.next, Scan.under, hname, Nat.add_assoc]
    by_cases hright : c = ')'
    · subst hright
      cases n with
      | zero => simp [Scan.next, hname] at h
      | succ m => simp [Scan.next, Scan.under, hname, ← Nat.add_assoc]
    · simp [Scan.next, Scan.under, hquote, hname, hleft, hright]

/-- A reading that closes no bracket but its own is the same wherever it stands. -/
theorem foldl_next_under {d : Dialect} {text : List Char} {s : Scan} (h : (text.foldl (Scan.next d) s).stray = false)
    (depth : Nat) (names : List (List Char)) :
    text.foldl (Scan.next d) (s.under depth names) = (text.foldl (Scan.next d) s).under depth names := by
  induction text generalizing s with
  | nil => rfl
  | cons c rest ih =>
    rw [List.foldl_cons, List.foldl_cons, Scan.next_under (foldl_next_stray h), ih h]

/-! ## Spans -/

variable {d : Dialect} {allowed : List Char → Prop} {j k l : Nat}

/-- Read from one depth the text ends at the other, outside quotations, and quotes such names only. -/
def Spans (d : Dialect) (allowed : List Char → Prop) (j : Nat) (text : List Char) (k : Nat) : Prop :=
  ∃ names, (∀ n ∈ names, allowed n) ∧ d.scanFrom j text = ⟨none, k, false, names⟩

theorem Spans.append {a b : List Char} (ha : d.Spans allowed j a k) (hb : d.Spans allowed k b l) :
    d.Spans allowed j (a ++ b) l := by
  obtain ⟨xs, hxs, hscan⟩ := ha
  obtain ⟨ys, hys, hscan'⟩ := hb
  refine ⟨ys ++ xs, fun n hn => (List.mem_append.mp hn).elim (hys n) (hxs n), ?_⟩
  have hstray : (b.foldl (Scan.next d) ⟨none, k, false, []⟩).stray = false := congrArg Scan.stray hscan'
  have hunder := foldl_next_under hstray 0 xs
  unfold scanFrom at hscan hscan' ⊢
  rw [hscan'] at hunder
  rw [List.foldl_append, hscan]
  simpa [Scan.under] using hunder

theorem Spans.deeper {text : List Char} (h : d.Spans allowed j text k) (n : Nat) :
    d.Spans allowed (n + j) text (n + k) := by
  obtain ⟨names, hnames, hscan⟩ := h
  have hstray : (text.foldl (Scan.next d) ⟨none, j, false, []⟩).stray = false := congrArg Scan.stray hscan
  have hunder := foldl_next_under hstray n []
  unfold scanFrom at hscan
  rw [hscan] at hunder
  exact ⟨names, hnames, by simpa [Scan.under, scanFrom] using hunder⟩

theorem Spans.mono {text : List Char} {more : List Char → Prop} (h : d.Spans allowed j text k)
    (hm : ∀ n, allowed n → more n) : d.Spans more j text k := by
  obtain ⟨names, hnames, hscan⟩ := h
  exact ⟨names, fun n hn => hm n (hnames n hn), hscan⟩

theorem Spans.balanced {text : List Char} (h : d.Spans allowed 0 text 0) : d.Balanced text := by
  obtain ⟨names, -, hscan⟩ := h
  exact ⟨congrArg Scan.quotation hscan, congrArg Scan.depth hscan, congrArg Scan.stray hscan⟩

theorem Spans.quoted {text : List Char} (h : d.Spans allowed 0 text k) : ∀ n ∈ d.quotedNames text, allowed n := by
  obtain ⟨names, hnames, hscan⟩ := h
  have hquoted : d.quotedNames text = names := congrArg Scan.names hscan
  rwa [hquoted]

/-- A quotation is read up to its mark. -/
theorem foldl_quotation (d : Dialect) {close : Char} {body : List Char} (h : close ∉ body) (seen : List Char)
    (depth : Nat) (names : List (List Char)) :
    (body ++ [close]).foldl (Scan.next d) ⟨some (close, seen), depth, false, names⟩ =
      ⟨none, depth, false, if close == d.elementEnd then (seen ++ body) :: names else names⟩ := by
  induction body generalizing seen with
  | nil => simp [Scan.next]
  | cons c rest ih =>
    have hne : (c == close) = false := beq_eq_false_iff_ne.mpr fun e => h (e ▸ List.mem_cons_self ..)
    rw [List.cons_append, List.foldl_cons]
    have hstep : Scan.next d ⟨some (close, seen), depth, false, names⟩ c =
        ⟨some (close, seen ++ [c]), depth, false, names⟩ := by simp [Scan.next, hne]
    rw [hstep, ih (fun hm => h (List.mem_cons_of_mem _ hm)), List.append_assoc]
    rfl

theorem spans_literal (d : Dialect) (allowed : List Char → Prop) (k : Nat) {body : List Char} (h : '\'' ∉ body) :
    d.Spans allowed k ('\'' :: (body ++ ['\''])) k := by
  refine ⟨[], nofun, ?_⟩
  have hquotation := foldl_quotation d h [] k []
  rw [scanFrom, List.foldl_cons]
  have hend : ('\'' == d.elementEnd) = false := by cases d <;> decide
  rw [hend] at hquotation
  exact hquotation

theorem spans_name (d : Dialect) {allowed : List Char → Prop} (k : Nat) {name : List Char} (h : d.elementEnd ∉ name)
    (ha : allowed name) : d.Spans allowed k (d.elementOpen :: (name ++ [d.elementEnd])) k := by
  refine ⟨[name], List.forall_mem_singleton.mpr ha, ?_⟩
  have hquotation := foldl_quotation d h [] k []
  rw [scanFrom, List.foldl_cons]
  have hstart : Scan.next d ⟨none, k, false, []⟩ d.elementOpen = ⟨some (d.elementEnd, []), k, false, []⟩ := by
    cases d <;> rfl
  rw [hstart, hquotation]
  simp

/-- Characters that neither quote nor count. -/
def isQuiet (c : Char) : Bool := !(['\'', '"', '[', '(', ')'].contains c)

theorem spans_quiet (d : Dialect) (allowed : List Char → Prop) (k : Nat) {text : List Char}
    (h : ∀ c ∈ text, isQuiet c = true) : d.Spans allowed k text k := by
  refine ⟨[], nofun, ?_⟩
  induction text with
  | nil => rfl
  | cons c rest ih =>
    obtain ⟨hc, hrest⟩ := List.forall_mem_cons.mp h
    have hstep : Scan.next d ⟨none, k, false, []⟩ c = ⟨none, k, false, []⟩ := by
      simp only [isQuiet, List.contains_iff_mem, Bool.not_eq_true', ← Bool.not_eq_true, List.mem_cons, not_or] at hc
      cases d <;> simp [Scan.next, elementOpen, hc]
    rw [scanFrom, List.foldl_cons, hstep]
    exact ih hrest

/-! ## Pieces -/

/-- The character that placeholders start with. -/
def mark : Dialect → Char
  | postgres => '$'
  | _ => '@'

/-- A text on one line without placeholders, and its span. -/
structure Piece (d : Dialect) (allowed : List Char → Prop) (j : Nat) (text : String) (k : Nat) : Prop where
  line : '\n' ∉ text.toList
  unmarked : d.mark ∉ text.toList
  spans : d.Spans allowed j text.toList k

theorem Piece.append {a b : String} (ha : d.Piece allowed j a k) (hb : d.Piece allowed k b l) :
    d.Piece allowed j (a ++ b) l := by
  refine ⟨?_, ?_, ?_⟩
  · rw [String.toList_append, List.mem_append, not_or]; exact ⟨ha.line, hb.line⟩
  · rw [String.toList_append, List.mem_append, not_or]; exact ⟨ha.unmarked, hb.unmarked⟩
  · rw [String.toList_append]; exact ha.spans.append hb.spans

theorem Piece.deeper {text : String} (h : d.Piece allowed j text k) (n : Nat) : d.Piece allowed (n + j) text (n + k) :=
  ⟨h.line, h.unmarked, h.spans.deeper n⟩

theorem Piece.mono {text : String} {more : List Char → Prop} (h : d.Piece allowed j text k)
    (hm : ∀ n, allowed n → more n) : d.Piece more j text k :=
  ⟨h.line, h.unmarked, h.spans.mono hm⟩

/-- A constant is read to know its span. -/
def isPiece (d : Dialect) (j : Nat) (text : String) (k : Nat) : Bool :=
  !text.toList.contains '\n' && !text.toList.contains d.mark && d.scanFrom j text.toList == ⟨none, k, false, []⟩

theorem Piece.constant {text : String} (h : d.isPiece j text k = true) : d.Piece allowed j text k := by
  simp only [isPiece, Bool.and_eq_true, Bool.not_eq_true', ← Bool.not_eq_true, List.contains_iff_mem, beq_iff_eq] at h
  exact ⟨h.1.1, h.1.2, [], nofun, h.2⟩

/-- A constant that is a piece in every dialect. -/
theorem Piece.common (d : Dialect) {text : String} (h : ∀ d ∈ Dialect.all, d.isPiece j text k = true) :
    d.Piece allowed j text k := .constant (h d (mem_all d))

/-! ## Names -/

theorem isPart_cases {c : Char} (h : Name.isPart c = true) : c ≠ '\n' ∧ c ≠ '@' ∧ c ≠ '$' ∧ isQuiet c = true := by
  have hne : ∀ x, Name.isPart x = false → c ≠ x := fun x hx e => by rw [e, hx] at h; cases h
  refine ⟨hne '\n' (by decide), hne '@' (by decide), hne '$' (by decide), ?_⟩
  simp only [isQuiet, List.contains_iff_mem, Bool.not_eq_true', ← Bool.not_eq_true, List.mem_cons, not_or]
  exact ⟨hne _ (by decide), hne _ (by decide), hne _ (by decide), hne _ (by decide), hne _ (by decide), by simp⟩

variable {names : List String}

theorem toList_quoteIdentifier (d : Dialect) (h : ∀ n ∈ names, Name.Identifier n) :
    (d.quoteIdentifier (dotted names)).toList = d.elementOpen :: ((dotted names).toList ++ [d.elementEnd]) := by
  have hquote : '"' ∉ (dotted names).toList := not_mem_dotted h (by decide) (by decide)
  have hbracket : ']' ∉ (dotted names).toList := not_mem_dotted h (by decide) (by decide)
  cases d <;> simp [quoteIdentifier, toList_quotedBy, hquote, hbracket, elementOpen, elementEnd]

theorem piece_quoteIdentifier (d : Dialect) (k : Nat) (h : ∀ n ∈ names, Name.Identifier n)
    (ha : allowed (dotted names).toList) : d.Piece allowed k (d.quoteIdentifier (dotted names)) k := by
  have hmark : d.mark ∉ (dotted names).toList := by
    cases d <;> exact not_mem_dotted h (by decide) (by decide)
  have hend : d.elementEnd ∉ (dotted names).toList := by
    cases d <;> exact not_mem_dotted h (by decide) (by decide)
  refine ⟨d.quoteIdentifier_line h, ?_, ?_⟩
  · rw [toList_quoteIdentifier d h]
    cases d <;> simp_all [mark, elementOpen, elementEnd]
  · rw [toList_quoteIdentifier d h]
    exact spans_name d k hend ha

theorem piece_element (d : Dialect) (k : Nat) (h : ∀ n ∈ names, Name.Identifier n) (ha : allowed (dotted names).toList) :
    d.Piece allowed k (d.element (dotted names)) k := by
  have hname := piece_quoteIdentifier d k h ha
  have hvalue : d.Piece allowed 0 ".value" 0 := .common d (by decide +kernel)
  cases d with
  | sqlserver => exact hname
  | postgres => exact hname.append (hvalue.deeper k)
  | sqlite => exact hname.append (hvalue.deeper k)

theorem piece_pathLiteral (d : Dialect) (allowed : List Char → Prop) (k : Nat) {path : List String} (hne : path ≠ [])
    (h : ∀ n ∈ path, Name.Identifier n) : d.Piece allowed k (d.pathLiteral path) k := by
  have hdot : ∀ x, Name.isPart x = false → x ≠ '.' → x ∉ (dotted path).toList := fun x hx hd => not_mem_dotted h hx hd
  have hcomma : ∀ x, Name.isPart x = false → x ≠ ',' → x ∉ [','].intercalate (path.map String.toList) :=
    fun x hx hc => not_mem_separated h hx hc
  refine ⟨?_, ?_, ?_⟩
  · rw [toList_pathLiteral d hne]
    simp [d.literalBody_line h]
  · rw [toList_pathLiteral d hne]
    cases d with
    | postgres => simp [mark, literalBody, hcomma '$' (by decide) (by decide)]
    | _ => simp [mark, literalBody, hdot '@' (by decide) (by decide)]
  · rw [toList_pathLiteral d hne]
    exact spans_literal d allowed k (d.literalBody_quote h)

/-! ## Locations -/

/-- The names that may be quoted: the labels. -/
def Labels (labels : List String) (name : List Char) : Prop := ∃ label ∈ labels, name = label.toList

variable {labels : List String} {location : Location}

theorem piece_source (d : Dialect) (k : Nat) (h : location.Visible labels) :
    d.Piece (Labels labels) k (location.source.text d) k := by
  obtain ⟨above, hlabelled, habove⟩ := h.plain.source_identifier
  cases hsource : location.source with
  | document =>
    have hcolumn : d.Piece (Labels labels) 0 documentColumn 0 := .common d (by decide +kernel)
    exact hcolumn.deeper k
  | element label =>
    rw [hsource] at hlabelled
    obtain ⟨-, rfl⟩ := hlabelled
    exact piece_element d k habove ⟨_, h.visible _ hsource, rfl⟩

theorem piece_literal (d : Dialect) (k : Nat) (h : location.Visible labels) :
    d.Piece (Labels labels) k (d.pathLiteral location.path) k :=
  piece_pathLiteral d _ k h.plain.path_ne h.plain.path_identifier

theorem piece_text (d : Dialect) (k : Nat) (h : location.Visible labels) :
    d.Piece (Labels labels) k (location.text d) k := by
  have hsource := fun k => piece_source d k h
  have hliteral := fun k => piece_literal d k h
  cases d with
  | sqlserver =>
    have hopen : sqlserver.Piece (Labels labels) 0 "JSON_VALUE(" 1 := .constant (by decide +kernel)
    have hcomma : sqlserver.Piece (Labels labels) 1 ", " 1 := .constant (by decide +kernel)
    have hclose : sqlserver.Piece (Labels labels) 1 ")" 0 := .constant (by decide +kernel)
    exact ((((hopen.append (hsource 1)).append hcomma).append (hliteral 1)).append hclose).deeper k
  | postgres =>
    have harrow : postgres.Piece (Labels labels) 0 " #>> " 0 := .constant (by decide +kernel)
    exact (((hsource 0).append harrow).append (hliteral 0)).deeper k
  | sqlite =>
    have hopen : sqlite.Piece (Labels labels) 0 "json_extract(" 1 := .constant (by decide +kernel)
    have hcomma : sqlite.Piece (Labels labels) 1 ", " 1 := .constant (by decide +kernel)
    have hclose : sqlite.Piece (Labels labels) 1 ")" 0 := .constant (by decide +kernel)
    exact ((((hopen.append (hsource 1)).append hcomma).append (hliteral 1)).append hclose).deeper k

/-- A cast puts an expression in brackets of its own, or in none. -/
theorem piece_castScalar (d : Dialect) (k : Nat) (s : Scalar) {e : String} (h : ∀ k, d.Piece allowed k e k) :
    d.Piece allowed k (d.castScalar e s) k := by
  have check : ∀ d ∈ Dialect.all, ∀ s ∈ scalars, ∃ depth ∈ [0, 1], d.isPiece 0 (d.castOpen s) depth = true ∧
      d.isPiece depth (d.castClose s) 0 = true := by decide +kernel
  obtain ⟨depth, -, hopen, hclose⟩ := check d (mem_all d) s (mem_scalars s)
  rw [castScalar_eq]
  exact (((Piece.constant hopen).append (h depth)).append (.constant hclose)).deeper k

theorem piece_typedText (d : Dialect) (k : Nat) (s : Scalar) (h : location.Visible labels) :
    d.Piece (Labels labels) k (location.typedText d s) k :=
  piece_castScalar d k s fun k => piece_text d k h

theorem piece_valueSet (d : Dialect) (k : Nat) (s : Scalar) (h : location.Visible labels) :
    d.Piece (Labels labels) k (d.valueSet (location.source.text d) location.path s) k := by
  have hvalue : d.Piece (Labels labels) 0 "value" 0 := .common d (by decide +kernel)
  have hrows : d.isPiece 0 d.rowsFunction 1 = true := by cases d <;> decide +kernel
  have hseparator : d.isPiece 1 d.rowsSeparator 1 = true := by cases d <;> decide +kernel
  have hreference : d.Piece (Labels labels) 1 (d.reference d.rowsSeparator location) 1 :=
    ((piece_source d 1 h).append (.constant hseparator)).append (piece_literal d 1 h)
  have hselect : d.Piece (Labels labels) 0 "SELECT " 0 := .common d (by decide +kernel)
  have hfrom : d.Piece (Labels labels) 0 " FROM " 0 := .common d (by decide +kernel)
  have hclose : d.Piece (Labels labels) 1 ")" 0 := .common d (by decide +kernel)
  rw [valueSet_eq]
  exact (hselect.append ((piece_castScalar d 0 s hvalue.deeper).append
    (hfrom.append ((Piece.constant hrows).append (hreference.append hclose))))).deeper k

/-! ## Joins -/

theorem piece_crossApply (d : Dialect) (h : location.Visible labels) (hn : ∀ n ∈ names, Name.Identifier n)
    (hm : dotted names ∈ labels) :
    d.Piece (Labels labels) 0 (d.crossApply (location.source.text d) location.path (dotted names)) 0 := by
  have hsource := piece_source d 1 h
  have hliteral := piece_literal d 1 h
  have hlabel := fun k => piece_quoteIdentifier d k hn (show Labels labels _ from ⟨_, hm, rfl⟩)
  cases d with
  | sqlserver =>
    have hopen : sqlserver.Piece (Labels labels) 0 "CROSS APPLY OPENJSON(" 1 := .constant (by decide +kernel)
    have hcomma : sqlserver.Piece (Labels labels) 1 ", " 1 := .constant (by decide +kernel)
    have hwith : sqlserver.Piece (Labels labels) 1 ") WITH (" 1 := .constant (by decide +kernel)
    have hclose : sqlserver.Piece (Labels labels) 1 " nvarchar(MAX) '$' AS JSON)" 0 := .constant (by decide +kernel)
    exact (((((hopen.append hsource).append hcomma).append hliteral).append hwith).append (hlabel 1)).append hclose
  | postgres =>
    have hopen : postgres.Piece (Labels labels) 0 "CROSS JOIN LATERAL jsonb_array_elements(" 1 :=
      .constant (by decide +kernel)
    have harrow : postgres.Piece (Labels labels) 1 " #> " 1 := .constant (by decide +kernel)
    have hclose : postgres.Piece (Labels labels) 1 ") AS " 0 := .constant (by decide +kernel)
    have hvalue : postgres.Piece (Labels labels) 0 "(value)" 0 := .constant (by decide +kernel)
    exact (((((hopen.append hsource).append harrow).append hliteral).append hclose).append (hlabel 0)).append hvalue
  | sqlite =>
    have hopen : sqlite.Piece (Labels labels) 0 "CROSS JOIN json_each(" 1 := .constant (by decide +kernel)
    have hcomma : sqlite.Piece (Labels labels) 1 ", " 1 := .constant (by decide +kernel)
    have hclose : sqlite.Piece (Labels labels) 1 ") AS " 0 := .constant (by decide +kernel)
    exact ((((hopen.append hsource).append hcomma).append hliteral).append hclose).append (hlabel 0)

/-! ## Passages with placeholders -/

/-- The digits behind every occurrence of a mark. -/
def numbersAfter (mark : Char) : List Char → List (List Char)
  | [] => []
  | c :: rest =>
    if c == mark then rest.takeWhile Char.isDigit :: numbersAfter mark rest else numbersAfter mark rest

theorem numbersAfter_unmarked {mark : Char} {text : List Char} (h : mark ∉ text) (rest : List Char) :
    numbersAfter mark (text ++ rest) = numbersAfter mark rest := by
  induction text with
  | nil => rfl
  | cons c more ih =>
    have hne : (c == mark) = false := beq_eq_false_iff_ne.mpr fun e => h (e ▸ List.mem_cons_self ..)
    rw [List.cons_append, numbersAfter, hne, ih fun hm => h (List.mem_cons_of_mem _ hm)]
    rfl

/-- What follows does not go on with a number. -/
def EndsNumber (rest : List Char) : Prop := ∀ c, rest.head? = some c → c.isDigit = false

/-- A text on one line with its span, and the numbers of its placeholders. An `unfinished` one ends with
a number, so that no digit may follow. -/
structure Passage (d : Dialect) (allowed : List Char → Prop) (j : Nat) (text : String) (k : Nat)
    (numbers : List (List Char)) (unfinished : Bool) : Prop where
  line : '\n' ∉ text.toList
  spans : d.Spans allowed j text.toList k
  numbers : ∀ rest, (unfinished = true → EndsNumber rest) →
    numbersAfter d.mark (text.toList ++ rest) = numbers ++ numbersAfter d.mark rest

section passages

variable {a b text : String} {xs ys : List (List Char)} {unfinished : Bool}

theorem Piece.passage (h : d.Piece allowed j text k) : d.Passage allowed j text k [] false :=
  ⟨h.line, h.spans, fun rest _ => numbersAfter_unmarked h.unmarked rest⟩

/-- After a finished passage the placeholders of the rest follow, whatever it starts with. -/
theorem Passage.numbersAfter_append (h : d.Passage allowed j text k xs false) (rest : List Char) :
    numbersAfter d.mark (text.toList ++ rest) = xs ++ numbersAfter d.mark rest :=
  h.numbers rest fun hfalse => absurd hfalse Bool.false_ne_true

theorem Passage.append (ha : d.Passage allowed j a k xs false) (hb : d.Passage allowed k b l ys unfinished) :
    d.Passage allowed j (a ++ b) l (xs ++ ys) unfinished := by
  refine ⟨?_, ?_, fun rest hrest => ?_⟩
  · rw [String.toList_append, List.mem_append, not_or]; exact ⟨ha.line, hb.line⟩
  · rw [String.toList_append]; exact ha.spans.append hb.spans
  · rw [String.toList_append, List.append_assoc, ha.numbersAfter_append, hb.numbers _ hrest, List.append_assoc]

theorem Passage.weaken (h : d.Passage allowed j text k xs false) : d.Passage allowed j text k xs true :=
  ⟨h.line, h.spans, fun rest _ => h.numbersAfter_append rest⟩

theorem Passage.then_piece (ha : d.Passage allowed j a k xs false) (hb : d.Piece allowed k b l) :
    d.Passage allowed j (a ++ b) l xs false := by
  have h := ha.append hb.passage
  rwa [List.append_nil] at h

/-- A piece that does not start with a digit ends a number. -/
theorem Passage.close (ha : d.Passage allowed j a k xs unfinished) (hb : d.Piece allowed k b l)
    {c : Char} {more : List Char} (hc : b.toList = c :: more) (hdigit : c.isDigit = false) :
    d.Passage allowed j (a ++ b) l xs false := by
  refine ⟨?_, ?_, fun rest _ => ?_⟩
  · rw [String.toList_append, List.mem_append, not_or]; exact ⟨ha.line, hb.line⟩
  · rw [String.toList_append]; exact ha.spans.append hb.spans
  · have hends : EndsNumber (b.toList ++ rest) := by
      intro x hx
      rw [hc] at hx
      cases hx
      exact hdigit
    rw [String.toList_append, List.append_assoc, ha.numbers _ fun _ => hends, numbersAfter_unmarked hb.unmarked]

theorem Passage.deeper (h : d.Passage allowed j text k xs unfinished) (n : Nat) :
    d.Passage allowed (n + j) text (n + k) xs unfinished := ⟨h.line, h.spans.deeper n, h.numbers⟩

end passages

theorem isDigit_toString {n : Nat} {c : Char} (h : c ∈ (toString n).toList) : c.isDigit = true := by
  have hrepr : (toString n).toList = Nat.toDigits 10 n := Nat.toList_repr
  rw [hrepr] at h
  exact Nat.isDigit_of_mem_toDigits (by omega) (by omega) h

theorem isDigit_cases {c : Char} (h : c.isDigit = true) : c ≠ '\n' ∧ c ≠ '@' ∧ c ≠ '$' ∧ isQuiet c = true :=
  isPart_cases (by rw [Name.isPart, Char.isAlphanum, h, Bool.or_true, Bool.true_or])

theorem piece_number (d : Dialect) (allowed : List Char → Prop) (k n : Nat) : d.Piece allowed k (toString n) k := by
  have hdigit : ∀ c ∈ (toString n).toList, c ≠ '\n' ∧ c ≠ '@' ∧ c ≠ '$' ∧ isQuiet c = true :=
    fun c hc => isDigit_cases (isDigit_toString hc)
  refine ⟨fun hm => (hdigit _ hm).1 rfl, ?_, spans_quiet d allowed k fun c hc => (hdigit c hc).2.2.2⟩
  cases d with
  | postgres => exact fun hm => (hdigit _ hm).2.2.1 rfl
  | _ => exact fun hm => (hdigit _ hm).2.1 rfl

theorem passage_placeholder (d : Dialect) (allowed : List Char → Prop) (k n : Nat) :
    d.Passage allowed k (d.placeholder n) k [(toString n).toList] true := by
  have hnumber := piece_number d allowed k n
  have hmark : (d.placeholder n).toList = d.mark :: (toString n).toList := by
    cases d <;> rw [placeholder, String.toList_append] <;> rfl
  have hquiet : d.Spans allowed k [d.mark] k := by
    refine spans_quiet d allowed k fun c hc => ?_
    cases d <;> cases List.mem_singleton.mp hc <;> decide
  refine ⟨?_, ?_, fun rest hrest => ?_⟩
  · rw [hmark, List.mem_cons, not_or]
    exact ⟨by cases d <;> decide, hnumber.line⟩
  · rw [hmark]; exact hquiet.append hnumber.spans
  · have htake : ((toString n).toList ++ rest).takeWhile Char.isDigit = (toString n).toList :=
      Text.takeWhile_run (fun c hc => isDigit_toString hc) (hrest rfl)
    rw [hmark, List.cons_append, numbersAfter, beq_self_eq_true, if_pos rfl, htake,
      numbersAfter_unmarked hnumber.unmarked]
    rfl

end Dialect

end DocQuery
