/-
  DocQuery.Proofs.Dialect.Paths — what the engines read in path literals.

  A path literal is a quoted text. SQL Server and SQLite read a JSON path in it, `$` and a step for each dot or
  bracket; PostgreSQL reads a text array, whose elements are names between commas. Names that pass their check have
  no character that means anything in either, but an array knows one more spelling: `NULL`, in any letter case and
  without quotes, is the null element. So the literals of all three dialects are read as the names they were
  written from, except in PostgreSQL a name that is spelled so (`path_read`).
-/

import DocQuery.Proofs.Dialect.Reading

namespace DocQuery

namespace Dialect

/-! ## Grammars -/

/-- One step of a path as an engine takes it. -/
inductive Step where
  | member (name : String)
  | item (index : Nat)
  | null
  deriving DecidableEq, Repr

/-- A text between quotes, behind the first of them, and what follows it. A quote in it is doubled. -/
def quoted? : List Char → Option (List Char × List Char)
  | '\'' :: '\'' :: r => (quoted? r).map fun (body, rest) => ('\'' :: body, rest)
  | '\'' :: r => some ([], r)
  | c :: r => (quoted? r).map fun (body, rest) => (c :: body, rest)
  | [] => none

def literal? : List Char → Option (List Char × List Char)
  | '\'' :: r => quoted? r
  | _ => none

/-- What stands before the first mark, and every mark with what follows it up to the next. A mark between double
quotes or behind a backslash is none. -/
def cutAt (isMark : Char → Bool) (inQuotes : Bool) : List Char → List Char × List (Char × List Char)
  | '\\' :: c :: r =>
    let (body, pieces) := cutAt isMark inQuotes r
    ('\\' :: c :: body, pieces)
  | c :: r =>
    let (body, pieces) := cutAt isMark (if c == '"' then !inQuotes else inQuotes) r
    if !inQuotes && isMark c then ([], (c, body) :: pieces) else (c :: body, pieces)
  | [] => ([], [])

/-- A text between double quotes, behind the first of them, with its backslashes resolved, and what follows it. -/
def doubleQuoted? : List Char → Option (List Char × List Char)
  | '"' :: r => some ([], r)
  | '\\' :: c :: r => (doubleQuoted? r).map fun (body, rest) => (c :: body, rest)
  | c :: r => (doubleQuoted? r).map fun (body, rest) => (c :: body, rest)
  | [] => none

/-! ### JSON paths -/

/-- The keys that need no quotes: identifiers, or in SQLite whatever has none of the marks of a path. -/
def isBareKey : Dialect → List Char → Bool
  | sqlserver, key => Name.isIdentifier key
  | _, key => !key.isEmpty && key.all fun c => !(['.', '[', '"', '\\'].contains c)

def key? (d : Dialect) : List Char → Option Step
  | '"' :: r => match doubleQuoted? r with
    | some (key, []) => some (.member (String.ofList key))
    | _ => none
  | key => if d.isBareKey key then some (.member (String.ofList key)) else none

def index? (s : List Char) : Option Step :=
  if s.getLast? == some ']' then (Decimal.natural? s.dropLast).map .item else none

def jsonStep? (d : Dialect) : Char × List Char → Option Step
  | ('.', key) => d.key? key
  | (_, index) => index? index

def jsonPath? (d : Dialect) (s : List Char) : Option (List Step) :=
  match cutAt (fun c => c == '.' || c == '[') false s with
  | (['$'], steps) => steps.mapM d.jsonStep?
  | _ => none

/-! ### Text arrays -/

/-- The blanks of an array literal. -/
def isArrayBlank (c : Char) : Bool := [' ', '\t', '\n', '\r', Char.ofNat 11, Char.ofNat 12].contains c

/-- The characters of an element without quotes, and whether each stands behind a backslash. -/
def bareChars? : List Char → Option (List (Char × Bool))
  | '\\' :: c :: r => (bareChars? r).map ((c, true) :: ·)
  | c :: r => if ['"', '{', '}', '\\'].contains c then none else (bareChars? r).map ((c, false) :: ·)
  | [] => some []

/-- An element without quotes: a name, unless it is spelled as the null element. -/
def bareElement? (s : List Char) : Option Step := do
  let marked ← bareChars? s
  let cs := (marked.reverse.dropWhile fun x => !x.2 && isArrayBlank x.1).reverse
  let name := String.ofList (cs.map (·.1))
  if cs.isEmpty then none
  else if cs.all (!·.2) && Text.sameIgnoringCase name "null" then some .null
  else some (.member name)

def element? (s : List Char) : Option Step :=
  match s.dropWhile isArrayBlank with
  | '"' :: r => match doubleQuoted? r with
    | some (name, rest) => if rest.all isArrayBlank then some (.member (String.ofList name)) else none
    | none => none
  | bare => bareElement? bare

/-- What an array literal has between its braces. -/
def braced? (s : List Char) : Option (List Char) :=
  match ((s.dropWhile isArrayBlank).reverse.dropWhile isArrayBlank).reverse with
  | '{' :: r => if r.getLast? == some '}' then some r.dropLast else none
  | _ => none

/-- An array literal of one dimension. -/
def textArray? (s : List Char) : Option (List Step) := do
  let body ← braced? s
  if body.all isArrayBlank then some []
  else
    let (first, others) := cutAt (· == ',') false body
    (first :: others.map (·.2)).mapM element?

/-! ### Path literals -/

def path? : Dialect → List Char → Option (List Step)
  | postgres => textArray?
  | d => d.jsonPath?

/-- The path that the engine reads in a quoted text, and what follows it. -/
def pathAt? (d : Dialect) (text : List Char) : Option (List Step × List Char) := do
  let (body, rest) ← literal? text
  let steps ← d.path? body
  return (steps, rest)

/-! ## Reading -/

/-- A text without quotes ends at the first one, unless another follows it. -/
theorem quoted?_run {body rest : List Char} (h : '\'' ∉ body) (hrest : rest.head? ≠ some '\'') :
    quoted? (body ++ '\'' :: rest) = some (body, rest) := by
  induction body with
  | nil =>
    cases rest with
    | nil => rfl
    | cons c r =>
      have hc : c ≠ '\'' := fun e => hrest (by rw [e]; rfl)
      show quoted? ('\'' :: c :: r) = _
      unfold quoted?
      split
      · rename_i heq
        exact absurd (List.cons.inj (List.cons.inj heq).2).1 hc
      · rename_i heq
        rw [(List.cons.inj heq).2]
      · rename_i hne heq
        exact (hne (List.cons.inj heq).1.symm).elim
      · rename_i heq
        cases heq
  | cons c body ih =>
    have hc : c ≠ '\'' := fun e => h (e ▸ List.mem_cons_self ..)
    have ih := ih fun hm => h (List.mem_cons_of_mem _ hm)
    show quoted? (c :: (body ++ '\'' :: rest)) = _
    unfold quoted?
    split
    · rename_i heq
      exact absurd (List.cons.inj heq).1 hc
    · rename_i heq
      exact absurd (List.cons.inj heq).1 hc
    · rename_i heq
      obtain ⟨rfl, rfl⟩ := List.cons.inj heq
      rw [ih]
      rfl
    · rename_i heq
      cases heq

section
variable {isMark : Char → Bool}

/-- A character that neither quotes nor escapes. -/
def Plain (c : Char) : Prop := c ≠ '\\' ∧ c ≠ '"'

theorem cutAt_cons {c : Char} (h : Plain c) (r : List Char) :
    cutAt isMark false (c :: r) = if isMark c then ([], (c, (cutAt isMark false r).1) :: (cutAt isMark false r).2)
      else (c :: (cutAt isMark false r).1, (cutAt isMark false r).2) := by
  have hquote : (c == '"') = false := beq_eq_false_iff_ne.mpr h.2
  conv_lhs => unfold cutAt
  split
  · rename_i heq
    exact absurd (List.cons.inj heq).1 h.1
  · rename_i heq
    obtain ⟨rfl, rfl⟩ := List.cons.inj heq
    simp [hquote]
  · rename_i heq
    cases heq

/-- Up to the next mark everything stays together. -/
theorem cutAt_run {front : List Char} (h : ∀ c ∈ front, Plain c ∧ isMark c = false) (rest : List Char) :
    cutAt isMark false (front ++ rest) = (front ++ (cutAt isMark false rest).1, (cutAt isMark false rest).2) := by
  induction front with
  | nil => rfl
  | cons c front ih =>
    obtain ⟨hc, hmark⟩ := h c (List.mem_cons_self ..)
    rw [List.cons_append, cutAt_cons hc, ih fun d hd => h d (List.mem_cons_of_mem _ hd), hmark]
    rfl

/-- Names behind marks are cut apart again. -/
theorem cutAt_names {mark : Char} (hmark : Plain mark) (his : isMark mark = true) {names : List (List Char)}
    (h : ∀ n ∈ names, ∀ c ∈ n, Plain c ∧ isMark c = false) :
    cutAt isMark false (names.flatMap (mark :: ·)) = ([], names.map fun n => (mark, n)) := by
  induction names with
  | nil => rfl
  | cons n names ih =>
    rw [List.flatMap_cons, List.cons_append, cutAt_cons hmark, cutAt_run (h n (List.mem_cons_self ..)),
      ih fun m hm => h m (List.mem_cons_of_mem _ hm), his]
    simp

end

/-! ### Names -/

/-- A character that means nothing but itself, in paths and in arrays. -/
structure Inert (c : Char) : Prop where
  plain : Plain c
  step : (c == '.' || c == '[') = false
  comma : (c == ',') = false
  blank : isArrayBlank c = false
  bare : ['"', '{', '}', '\\'].contains c = false
  key : ['.', '[', '"', '\\'].contains c = false

/-- The characters that mean something else somewhere. -/
def marks : List Char :=
  ['\\', '"', '.', '[', ',', ' ', '\t', '\n', '\r', Char.ofNat 11, Char.ofNat 12, '{', '}']

theorem inert_of_isPart {c : Char} (h : Name.isPart c = true) : Inert c := by
  have hmarks : marks.any Name.isPart = false := by decide
  have hall : ∀ d ∈ marks, c ≠ d := by
    intro d hd e
    rw [e] at h
    exact List.any_eq_false.mp hmarks d hd h
  simp only [marks, List.forall_mem_cons] at hall
  constructor <;> simp [Plain, isArrayBlank, hall]

theorem inert_of_identifier {n : String} (h : Name.Identifier n) {c : Char} (hc : c ∈ n.toList) : Inert c :=
  inert_of_isPart (h.isPart hc)

theorem mapM_some {α β : Type} {f : α → Option β} {g : α → β} {xs : List α} (h : ∀ x ∈ xs, f x = some (g x)) :
    xs.mapM f = some (xs.map g) := by
  induction xs with
  | nil => rfl
  | cons x xs ih =>
    rw [List.mapM_cons, h x (List.mem_cons_self ..), ih fun y hy => h y (List.mem_cons_of_mem _ hy)]
    rfl

/-- What a name is as an element without quotes. -/
def arrayStep (name : String) : Step := if Text.sameIgnoringCase name "null" then .null else .member name

/-- The step that a name is read as. -/
def stepOf : Dialect → String → Step
  | postgres => arrayStep
  | _ => .member

theorem key?_name (d : Dialect) {n : String} (h : Name.Identifier n) : d.key? n.toList = some (.member n) := by
  have hbare : d.isBareKey n.toList = true := by
    cases d with
    | sqlserver => exact h
    | _ =>
      have hne : n.toList.isEmpty = false := by simpa using h.ne_nil
      have hall : (n.toList.all fun c => !(['.', '[', '"', '\\'].contains c)) = true := by
        rw [List.all_eq_true]
        intro c hc
        rw [(inert_of_identifier h hc).key]
        rfl
      simp only [isBareKey, hne, hall, Bool.not_false, Bool.and_self]
  unfold key?
  split
  · rename_i heq
    exact absurd rfl (inert_of_identifier h (heq ▸ List.mem_cons_self ..)).plain.2
  · rw [if_pos hbare, String.ofList_toList]

theorem bareChars?_plain {s : List Char} (h : ∀ c ∈ s, ['"', '{', '}', '\\'].contains c = false) :
    bareChars? s = some (s.map fun c => (c, false)) := by
  induction s with
  | nil => rfl
  | cons c s ih =>
    have hc := h c (List.mem_cons_self ..)
    have hescape : c ≠ '\\' := by
      rintro rfl
      revert hc
      decide
    unfold bareChars?
    split
    · rename_i heq
      exact absurd (List.cons.inj heq).1 hescape
    · rename_i heq
      obtain ⟨rfl, rfl⟩ := List.cons.inj heq
      rw [hc, ih fun d hd => h d (List.mem_cons_of_mem _ hd)]
      rfl
    · rename_i heq
      cases heq

theorem dropWhile_none {α : Type} {p : α → Bool} {s : List α} (h : ∀ x, s.head? = some x → p x = false) :
    s.dropWhile p = s :=
  Text.dropWhile_run (a := []) nofun h

theorem bareElement?_name {n : String} (h : Name.Identifier n) : bareElement? n.toList = some (arrayStep n) := by
  have hchars := bareChars?_plain fun c hc => (inert_of_identifier h hc).bare
  have hblank : ∀ x, (n.toList.map fun c => (c, false)).reverse.head? = some x →
      (!x.2 && isArrayBlank x.1) = false := by
    intro x hx
    obtain ⟨c, hc, rfl⟩ := List.mem_map.mp (List.mem_reverse.mp (List.mem_of_mem_head? hx))
    exact (inert_of_identifier h hc).blank
  have hname : String.ofList ((n.toList.map fun c => (c, false)).map (·.1)) = n := by
    rw [List.map_map]
    show String.ofList (n.toList.map id) = n
    rw [List.map_id, String.ofList_toList]
  have hbare : ((n.toList.map fun c => (c, false)).all (!·.2)) = true := by simp
  have hne : (n.toList.map fun c => (c, false)).isEmpty = false := by simpa using h.ne_nil
  unfold bareElement?
  simp only [hchars, Option.bind_eq_bind, Option.bind_some, dropWhile_none hblank, List.reverse_reverse, hname, hbare,
    hne, Bool.false_eq_true, if_false, Bool.true_and]
  unfold arrayStep
  split <;> rfl

theorem element?_name {n : String} (h : Name.Identifier n) : element? n.toList = some (arrayStep n) := by
  unfold element?
  rw [dropWhile_none fun c hc => (inert_of_identifier h (List.mem_of_mem_head? hc)).blank]
  split
  · rename_i heq
    exact absurd rfl (inert_of_identifier h (heq ▸ List.mem_cons_self ..)).plain.2
  · exact bareElement?_name h

/-! ### Names in a row -/

theorem braced?_braces (body : List Char) : braced? ('{' :: (body ++ ['}'])) = some body := by
  have hopen : ('{' :: (body ++ ['}'])).dropWhile isArrayBlank = '{' :: (body ++ ['}']) :=
    List.dropWhile_cons_of_neg (by decide)
  have hclose : ('{' :: (body ++ ['}'])).reverse.dropWhile isArrayBlank = ('{' :: (body ++ ['}'])).reverse := by
    rw [List.reverse_cons, List.reverse_append]
    exact List.dropWhile_cons_of_neg (by decide)
  unfold braced?
  rw [hopen, hclose, List.reverse_reverse]
  simp

theorem intercalate_cons (mark : Char) (n : List Char) (names : List (List Char)) :
    [mark].intercalate (n :: names) = n ++ names.flatMap (mark :: ·) := by
  induction names generalizing n with
  | nil => simp
  | cons m names ih =>
    rw [List.intercalate_cons_cons, ih, List.flatMap_cons]
    simp

section
variable {path : List String} (hpath : ∀ n ∈ path, Name.Identifier n)
include hpath

theorem jsonPath?_names (d : Dialect) :
    d.jsonPath? ('$' :: (path.map String.toList).flatMap ('.' :: ·)) = some (path.map .member) := by
  have hnames : ∀ n ∈ path.map String.toList, ∀ c ∈ n, Plain c ∧ (c == '.' || c == '[') = false := by
    intro n hn c hc
    obtain ⟨name, hname, rfl⟩ := List.mem_map.mp hn
    have hinert := inert_of_identifier (hpath name hname) hc
    exact ⟨hinert.plain, hinert.step⟩
  have hcut : cutAt (fun c => c == '.' || c == '[') false ('$' :: (path.map String.toList).flatMap ('.' :: ·)) =
      (['$'], (path.map String.toList).map fun n => ('.', n)) := by
    have hroot : ∀ c ∈ ['$'], Plain c ∧ (c == '.' || c == '[') = false := by simp [Plain]
    have hcut := cutAt_run hroot ((path.map String.toList).flatMap ('.' :: ·))
    rw [cutAt_names (by simp [Plain]) rfl hnames] at hcut
    exact hcut
  unfold jsonPath?
  rw [hcut, List.map_map]
  show (path.map fun n => ('.', n.toList)).mapM d.jsonStep? = _
  rw [List.mapM_map]
  exact mapM_some fun n hn => d.key?_name (hpath n hn)

theorem textArray?_names (hne : path ≠ []) :
    textArray? ('{' :: ([','].intercalate (path.map String.toList) ++ ['}'])) = some (path.map arrayStep) := by
  have hnames : ∀ n ∈ path.map String.toList, ∀ c ∈ n, Plain c ∧ (c == ',') = false := by
    intro n hn c hc
    obtain ⟨name, hname, rfl⟩ := List.mem_map.mp hn
    have hinert := inert_of_identifier (hpath name hname) hc
    exact ⟨hinert.plain, hinert.comma⟩
  cases path with
  | nil => exact absurd rfl hne
  | cons n rest =>
    have hn := hpath n (List.mem_cons_self ..)
    rw [List.map_cons] at hnames ⊢
    have hcut : cutAt (· == ',') false (n.toList ++ (rest.map String.toList).flatMap (',' :: ·)) =
        (n.toList, (rest.map String.toList).map fun n => (',', n)) := by
      rw [cutAt_run (hnames _ (List.mem_cons_self ..)), cutAt_names (by simp [Plain]) rfl
        fun m hm => hnames m (List.mem_cons_of_mem _ hm), List.append_nil]
    have hblank : (n.toList ++ (rest.map String.toList).flatMap (',' :: ·)).all isArrayBlank = false := by
      obtain ⟨c, hc⟩ := List.exists_mem_of_ne_nil _ hn.ne_nil
      exact List.all_eq_false.mpr ⟨c, List.mem_append_left _ hc, by simp [(inert_of_identifier hn hc).blank]⟩
    unfold textArray?
    simp only [braced?_braces, intercalate_cons, Option.bind_eq_bind, Option.bind_some, hblank, hcut,
      Bool.false_eq_true, if_false, List.map_map]
    show ((n :: rest).map String.toList).mapM element? = _
    rw [List.mapM_map]
    exact mapM_some fun m hm => element?_name (hpath m hm)

theorem path?_body (d : Dialect) (hne : path ≠ []) : d.path? (d.literalBody path) = some (path.map d.stepOf) := by
  have hsteps : '$' :: '.' :: (Path.dotted path).toList = '$' :: (path.map String.toList).flatMap ('.' :: ·) := by
    rw [Path.toList_dotted]
    cases path with
    | nil => exact absurd rfl hne
    | cons n rest => rw [List.map_cons, intercalate_cons, List.flatMap_cons, List.cons_append]
  cases d with
  | postgres => exact textArray?_names hpath hne
  | _ =>
    simp only [literalBody, hsteps]
    exact jsonPath?_names hpath _

/-- A path literal is read to its end, whatever follows it but another quote. -/
theorem pathAt?_literal (d : Dialect) (hne : path ≠ []) {back : String} (hback : back.toList.head? ≠ some '\'') :
    d.pathAt? (d.pathLiteral path ++ back).toList = some (path.map d.stepOf, back.toList) := by
  have hliteral : literal? (d.pathLiteral path ++ back).toList = some (d.literalBody path, back.toList) := by
    rw [String.toList_append, toList_pathLiteral d hne, List.cons_append, List.append_assoc]
    exact quoted?_run (d.literalBody_quote hpath) hback
  simp only [pathAt?, hliteral, d.path?_body hpath hne, Option.bind_eq_bind, Option.bind_some]
  rfl

end

/-! ## Texts with a path -/

/-- What stands before the path literal in an extracted value. -/
def extractFront (d : Dialect) (source : String) : String := d.extractOpen ++ source ++ d.extractSeparator

theorem extract_eq (d : Dialect) (source : String) (path : List String) :
    d.extract source path = d.extractFront source ++ (d.pathLiteral path ++ d.extractClose) := by
  cases d with
  | sqlserver =>
    show "JSON_VALUE(" ++ source ++ ", " ++ _ ++ ")" = ("JSON_VALUE(" ++ source ++ ", ") ++ (_ ++ ")")
    simp only [String.append_assoc]
  | postgres =>
    show source ++ " #>> " ++ _ = ("" ++ source ++ " #>> ") ++ (_ ++ "")
    simp
  | sqlite =>
    show "json_extract(" ++ source ++ ", " ++ _ ++ ")" = ("json_extract(" ++ source ++ ", ") ++ (_ ++ ")")
    simp only [String.append_assoc]

/-- What stands before the path literal in a join. -/
def joinFront : Dialect → String → String
  | sqlserver, source => "CROSS APPLY OPENJSON(" ++ source ++ ", "
  | postgres, source => "CROSS JOIN LATERAL jsonb_array_elements(" ++ source ++ " #> "
  | sqlite, source => "CROSS JOIN json_each(" ++ source ++ ", "

/-- What stands behind it. -/
def joinBack : Dialect → String → String
  | sqlserver, label => ") WITH (" ++ quoteIdentifier sqlserver label ++ " nvarchar(MAX) '$' AS JSON)"
  | postgres, label => ") AS " ++ quoteIdentifier postgres label ++ "(value)"
  | sqlite, label => ") AS " ++ quoteIdentifier sqlite label

theorem crossApply_eq (d : Dialect) (source : String) (path : List String) (label : String) :
    d.crossApply source path label = d.joinFront source ++ (d.pathLiteral path ++ d.joinBack label) := by
  cases d with
  | sqlserver =>
    show "CROSS APPLY OPENJSON(" ++ source ++ ", " ++ _ ++ ") WITH (" ++ _ ++ " nvarchar(MAX) '$' AS JSON)" =
      ("CROSS APPLY OPENJSON(" ++ source ++ ", ") ++ (_ ++ (") WITH (" ++ _ ++ " nvarchar(MAX) '$' AS JSON)"))
    simp only [String.append_assoc]
  | postgres =>
    show "CROSS JOIN LATERAL jsonb_array_elements(" ++ source ++ " #> " ++ _ ++ ") AS " ++ _ ++ "(value)" =
      ("CROSS JOIN LATERAL jsonb_array_elements(" ++ source ++ " #> ") ++ (_ ++ (") AS " ++ _ ++ "(value)"))
    simp only [String.append_assoc]
  | sqlite =>
    show "CROSS JOIN json_each(" ++ source ++ ", " ++ _ ++ ") AS " ++ _ =
      ("CROSS JOIN json_each(" ++ source ++ ", ") ++ (_ ++ (") AS " ++ _))
    simp only [String.append_assoc]

theorem joinBack_head (d : Dialect) (label : String) : (d.joinBack label).toList.head? = some ')' := by
  cases d <;> simp [joinBack]

/-- What stands before the path literal in a set of values. -/
def setFront (d : Dialect) (source : String) (s : Scalar) : String :=
  "SELECT " ++ d.castScalar "value" s ++ " FROM " ++ d.rowsFunction ++ source ++ d.rowsSeparator

/-- Behind `front` the text has the literal of a path, which the engine reads as `steps`. -/
def Denotes (d : Dialect) (text front : String) (path : List String) (steps : List Step) : Prop :=
  ∃ back : String, text = front ++ (d.pathLiteral path ++ back) ∧
    d.pathAt? (d.pathLiteral path ++ back).toList = some (steps, back.toList)

section
variable {path : List String} (hpath : ∀ n ∈ path, Name.Identifier n) (hne : path ≠ [])
include hpath hne

theorem extract_denotes (d : Dialect) (source : String) :
    d.Denotes (d.extract source path) (d.extractFront source) path (path.map d.stepOf) := by
  have hhead : d.extractClose.toList.head? ≠ some '\'' := by cases d <;> decide
  exact ⟨d.extractClose, d.extract_eq source path, d.pathAt?_literal hpath hne hhead⟩

theorem crossApply_denotes (d : Dialect) (source label : String) :
    d.Denotes (d.crossApply source path label) (d.joinFront source) path (path.map d.stepOf) := by
  have hhead : (d.joinBack label).toList.head? ≠ some '\'' := by
    rw [joinBack_head]
    decide
  exact ⟨d.joinBack label, d.crossApply_eq source path label, d.pathAt?_literal hpath hne hhead⟩

theorem valueSet_denotes (d : Dialect) (source : String) (s : Scalar) :
    d.Denotes (d.valueSet source path s) (d.setFront source s) path (path.map d.stepOf) := by
  refine ⟨")", ?_, d.pathAt?_literal hpath hne (by decide)⟩
  cases d <;> simp only [valueSet, setFront, rowsFunction, rowsSeparator, String.append_assoc]

end

/-- The names are read as they are unless an array has one that is spelled as the null element. -/
theorem steps_faithful_iff (d : Dialect) (path : List String) : path.map d.stepOf = path.map .member ↔
    ¬ (d = .postgres ∧ ∃ n ∈ path, Text.sameIgnoringCase n "null" = true) := by
  rw [List.map_inj_left]
  cases d with
  | postgres =>
    simp only [stepOf, arrayStep, true_and, not_exists, not_and]
    refine forall₂_congr fun n _ => ?_
    split <;> simp_all
  | _ => simp [stepOf]

/-- Every path literal is read as the names of its path, in all three texts that have one, except that a PostgreSQL
array takes a name spelled `NULL` for the null element. -/
theorem path_read (d : Dialect) {path : List String} (hne : path ≠ []) (h : ∀ n ∈ path, checkFieldName n = .ok ())
    (source label : String) (s : Scalar) :
    d.Denotes (d.extract source path) (d.extractFront source) path (path.map d.stepOf) ∧
    d.Denotes (d.crossApply source path label) (d.joinFront source) path (path.map d.stepOf) ∧
    d.Denotes (d.valueSet source path s) (d.setFront source s) path (path.map d.stepOf) ∧
      (path.map d.stepOf = path.map .member ↔
        ¬ (d = .postgres ∧ ∃ n ∈ path, Text.sameIgnoringCase n "null" = true)) := by
  have hpath : ∀ n ∈ path, Name.Identifier n := fun n hn => Name.identifier_of_check (h n hn)
  exact ⟨d.extract_denotes hpath hne source, d.crossApply_denotes hpath hne source label,
    d.valueSet_denotes hpath hne source s, d.steps_faithful_iff path⟩

/-- One path in two engines: its second name is a name in SQLite, and the null element in PostgreSQL. -/
theorem author_null_read :
    sqlite.Denotes "json_extract(_doc._document, '$.Author.Null')" "json_extract(_doc._document, " ["Author", "Null"]
      [.member "Author", .member "Null"] ∧
    postgres.Denotes "_doc._document #>> '\x7bAuthor,Null\x7d'" "_doc._document #>> " ["Author", "Null"]
      [.member "Author", .null] := by
  have hchecked : ∀ n ∈ ["Author", "Null"], checkFieldName n = .ok () := by decide
  exact ⟨(path_read .sqlite (by decide) hchecked "_doc._document" "Author" .string).1,
    (path_read .postgres (by decide) hchecked "_doc._document" "Author" .string).1⟩

/-- A name that passes its check and is no name in an array. -/
theorem null_name_lost :
    checkFieldName "Null" = .ok () ∧ postgres.extract "_doc._document" ["Null"] = "_doc._document #>> '\x7bNull\x7d'" ∧
      postgres.pathAt? "'\x7bNull\x7d'".toList = some ([.null], []) ∧ [Step.null] ≠ ["Null"].map .member := by
  decide

end Dialect

end DocQuery
