/-
  DocQuery.Proofs.Statement.Lines — a statement's text line by line.

  A statement is `Closed` when its table was made by name and every place is read from the document or
  from the element of one of its joins. Each line of its text is then a passage that names elements
  of the joins only, and the condition's placeholders are the only ones (`clauseLines_passage`). The first
  words of a line tell its clause (`Clause.ofLine?`), and the text is split into its lines at
  the line ends (`textLines_text`), so the lines of each clause are known (`linesOf_text`).
-/

import DocQuery.Proofs.Dialect.Pieces
import DocQuery.Proofs.Statement.Request

namespace DocQuery

open DocQuery.Path Dialect Statement

/-! ## Tables -/

/-- Tables as they are made: by a checked name, and put in a schema by a checked name. -/
inductive Table.Built : Table → Prop
  | named {name : String} {t : Table} : Table.named name = .ok t → Built t
  | inSchema {schema : String} {t t' : Table} : Built t → t.inSchema schema = .ok t' → Built t'

theorem checkTableName_identifier {name : String} (h : checkTableName name = .ok ()) : Name.Identifier name := by
  unfold checkTableName at h
  cases hf : Name.fault? name with
  | none => exact Name.identifier_of_fault? hf
  | some fault => rw [hf] at h; cases h

theorem Table.Built.identifier {t : Table} (h : t.Built) :
    Name.Identifier t.name ∧ ∀ schema, t.schema = some schema → Name.Identifier schema := by
  induction h with
  | named h =>
    obtain ⟨_, hcheck, hmade⟩ := Except.bind_eq_ok.mp h
    cases hmade
    exact ⟨checkTableName_identifier hcheck, nofun⟩
  | inSchema _ h ih =>
    obtain ⟨_, hcheck, hmade⟩ := Except.bind_eq_ok.mp h
    cases hmade
    refine ⟨ih.1, fun schema hs => ?_⟩
    cases hs
    exact checkTableName_identifier hcheck

namespace Statement

/-! ## Places -/

/-- The places that a condition reads. -/
def Condition.places : Condition → List Location
  | .identityNull _ => []
  | .identityCompare _ _ => []
  | .isNull _ place => [place]
  | .compare _ place _ _ => [place]
  | .member _ place _ _ => [place]
  | .binary _ left right => left.places ++ right.places

/-- The parameters that a condition refers to, from left to right. -/
def Condition.parameters : Condition → List Nat
  | .identityNull _ => []
  | .identityCompare _ i => [i]
  | .isNull _ _ => []
  | .compare _ _ _ i => [i]
  | .member _ _ _ i => [i]
  | .binary _ left right => left.parameters ++ right.parameters

def Order.places : Order → List Location
  | .identity _ => []
  | .field place _ _ => [place]

def labels (s : Statement) : List String := s.joins.map (·.label)

/-- Joins are named by identifiers, and whatever the statement reads is in the document or in the
element of one of its joins. -/
structure Closed (s : Statement) : Prop where
  table : s.table.Built
  named : ∀ j ∈ s.joins, ∃ names, j.label = dotted names ∧ ∀ n ∈ names, Name.Identifier n
  array : ∀ j ∈ s.joins, j.array.Visible s.labels
  condition : ∀ c, s.condition = some c → ∀ l ∈ c.places, l.Visible s.labels
  order : ∀ o ∈ s.order, ∀ l ∈ o.places, l.Visible s.labels

end Statement

/-! ## Passages of lines -/

namespace Dialect

variable {d : Dialect} {labels : List String}

theorem passage_condition (d : Dialect) {c : Condition} (h : ∀ l ∈ c.places, l.Visible labels) :
    d.Passage (Labels labels) 0 (c.text d) 0 (c.parameters.map fun i => (toString i).toList) true := by
  have hidentity : d.Piece (Labels labels) 0 identityColumn 0 := .common d (by decide +kernel)
  have hblank : d.Piece (Labels labels) 0 " " 0 := .common d (by decide +kernel)
  have htest : ∀ negated, d.Piece (Labels labels) 0 (nullTest negated) 0 := by
    intro negated
    cases negated <;> exact .common d (by decide +kernel)
  have hsymbol : ∀ c : Comparison, d.Piece (Labels labels) 0 c.symbol 0 := by
    intro c
    cases c <;> exact .common d (by decide +kernel)
  induction c with
  | identityNull negated => exact ((hidentity.append hblank).append (htest negated)).passage.weaken
  | identityCompare c i =>
    exact (((hidentity.append hblank).append (hsymbol c)).append hblank).passage.append (passage_placeholder d _ 0 i)
  | isNull negated place =>
    have hplace := piece_text d 0 (h place (List.mem_singleton.mpr rfl))
    exact ((hplace.append hblank).append (htest negated)).passage.weaken
  | compare c place type i =>
    have hplace := piece_typedText d 0 type (h place (List.mem_singleton.mpr rfl))
    exact (((hplace.append hblank).append (hsymbol c)).append hblank).passage.append (passage_placeholder d _ 0 i)
  | member negated place type i =>
    have hmember : d.Piece (Labels labels) 0 (memberTest negated) 0 := by
      cases negated <;> exact .common d (by decide +kernel)
    have hopen : d.Piece (Labels labels) 0 " (" 1 := .common d (by decide +kernel)
    have hclose : d.Piece (Labels labels) 1 ")" 0 := .common d (by decide +kernel)
    have hset := piece_valueSet d 1 type (h place (List.mem_singleton.mpr rfl))
    have hnumber := (passage_placeholder d (Labels labels) 0 i).close hblank (c := ' ') rfl (by decide)
    exact ((((hnumber.then_piece hmember).then_piece hopen).then_piece hset).then_piece hclose).weaken
  | binary c left right ihl ihr =>
    have hleft := (ihl fun l hl => h l (List.mem_append_left _ hl)).deeper 1
    have hright := (ihr fun l hl => h l (List.mem_append_right _ hl)).deeper 1
    have hopen : d.Piece (Labels labels) 0 "(" 1 := .common d (by decide +kernel)
    have hclose : d.Piece (Labels labels) 1 ")" 0 := .common d (by decide +kernel)
    have hleftEnd : d.Piece (Labels labels) 1 ") " 0 := .common d (by decide +kernel)
    have hkeyword : d.Piece (Labels labels) 0 c.keyword 0 := by cases c <;> exact .common d (by decide +kernel)
    have hrightStart : d.Piece (Labels labels) 0 " (" 1 := .common d (by decide +kernel)
    have hfirst := (hopen.passage.append hleft).close hleftEnd (c := ')') rfl (by decide)
    have hboth := ((hfirst.then_piece hkeyword).then_piece hrightStart).append hright
    have hwhole := (hboth.close hclose (c := ')') rfl (by decide)).weaken
    rw [Condition.parameters, List.map_append]
    exact hwhole

theorem piece_order (d : Dialect) {o : Order} (h : ∀ l ∈ o.places, l.Visible labels) :
    d.Piece (Labels labels) 0 (o.text d) 0 := by
  have hblank : d.Piece (Labels labels) 0 " " 0 := .common d (by decide +kernel)
  have hkeyword : ∀ direction : Direction, d.Piece (Labels labels) 0 direction.keyword 0 := by
    intro direction
    cases direction <;> exact .common d (by decide +kernel)
  cases o with
  | identity direction =>
    have hidentity : d.Piece (Labels labels) 0 identityColumn 0 := .common d (by decide +kernel)
    exact (hidentity.append hblank).append (hkeyword direction)
  | field place type direction =>
    have hplace := piece_typedText d 0 type (h place (List.mem_singleton.mpr rfl))
    exact (hplace.append hblank).append (hkeyword direction)

/-- Pieces with commas between them. -/
theorem piece_separated {allowed : List Char → Prop} {texts : List String} (h : ∀ t ∈ texts, d.Piece allowed 0 t 0) :
    d.Piece allowed 0 (String.intercalate ", " texts) 0 := by
  have hcomma : d.Piece allowed 0 ", " 0 := .common d (by decide +kernel)
  induction texts with
  | nil => exact .common d (by decide +kernel)
  | cons t rest ih =>
    have ht := h t (List.mem_cons_self ..)
    have hrest := ih fun u hu => h u (List.mem_cons_of_mem _ hu)
    cases rest with
    | nil => simpa using ht
    | cons u more =>
      rw [String.intercalate_cons_cons]
      exact (ht.append hcomma).append hrest

theorem piece_table (d : Dialect) {t : Table} (h : t.Built) : d.Piece (fun _ => True) 0 (t.text d) 0 := by
  have hquoted : ∀ name, Name.Identifier name → d.Piece (fun _ => True) 0 (d.quoteIdentifier name) 0 := by
    intro name hname
    have hdotted : dotted [name] = name := String.intercalate_singleton
    rw [← hdotted]
    exact piece_quoteIdentifier d 0 (List.forall_mem_singleton.mpr hname) trivial
  have hpoint : d.Piece (fun _ => True) 0 "." 0 := .common d (by decide +kernel)
  have hschema : ∀ schema, (t.schema <|> d.defaultSchema) = some schema → Name.Identifier schema := by
    intro schema hs
    cases hgiven : t.schema with
    | some given =>
      rw [hgiven] at hs
      cases hs
      exact h.identifier.2 _ hgiven
    | none =>
      rw [hgiven] at hs
      cases d <;> cases hs
      exact (by decide : Name.isIdentifier "dbo".toList = true)
  unfold Table.text tableName
  split
  · rename_i schema hs
    exact ((hquoted schema (hschema schema hs)).append hpoint).append (hquoted t.name h.identifier.1)
  · exact hquoted t.name h.identifier.1

/-- What rows are ordered by when they are paged and no order is asked for. -/
def defaultOrder (d : Dialect) (page : Page) (ordered : Bool) : List String :=
  match d with
  | sqlserver => if page.isUnbounded || ordered then [] else ["ORDER BY (SELECT NULL)"]
  | _ => []

theorem paging_eq (d : Dialect) (page : Page) (ordered : Bool) :
    d.paging page ordered = d.defaultOrder page ordered ++ d.paging page true := by
  cases d with
  | sqlserver =>
    unfold paging defaultOrder
    cases page.isUnbounded with
    | true => rfl
    | false => cases ordered <;> rfl
  | postgres => rfl
  | sqlite => rfl

end Dialect

namespace Statement

/-! ## Clauses -/

inductive Clause where
  | select
  | table
  | join
  | condition
  | grouping
  | order
  | paging
  deriving DecidableEq, Repr

namespace Clause

/-- All clauses, in the order they stand in. -/
def all : List Clause := [select, table, join, condition, grouping, order, paging]

/-- The words that a line of the clause starts with. -/
def words : Clause → List String
  | select => ["SELECT "]
  | table => ["FROM "]
  | join => ["CROSS JOIN ", "CROSS APPLY "]
  | condition => ["WHERE "]
  | grouping => ["GROUP BY "]
  | order => ["ORDER BY "]
  | paging => ["LIMIT ", "OFFSET ", "FETCH NEXT "]

/-- The clause of a line, by its first words. -/
def ofLine? (line : List Char) : Option Clause := all.find? fun c => c.words.any fun w => w.toList.isPrefixOf line

/-- The line starts with words of the clause. -/
def Starts (c : Clause) (line : String) : Prop := ∃ w ∈ c.words, ∃ rest, line.toList = w.toList ++ rest

theorem ofLine?_words {c : Clause} {w : String} (hw : w ∈ c.words) (rest : List Char) :
    ofLine? (w.toList ++ rest) = some c := by
  cases c <;> simp only [words, List.mem_cons, List.not_mem_nil, or_false] at hw
  case select => subst hw; rfl
  case table => subst hw; rfl
  case join => rcases hw with rfl | rfl <;> rfl
  case condition => subst hw; rfl
  case grouping => subst hw; rfl
  case order => subst hw; rfl
  case paging => rcases hw with rfl | rfl | rfl <;> rfl

theorem Starts.ofLine? {c : Clause} {line : String} (h : c.Starts line) : Clause.ofLine? line.toList = some c := by
  obtain ⟨w, hw, rest, hline⟩ := h
  rw [hline]
  exact ofLine?_words hw rest

end Clause

/-- The lines of a text. -/
def textLines (text : String) : List (List Char) := text.toList.splitOn '\n'

/-- The lines of a text that belong to a clause. -/
def linesOf (clause : Clause) (text : String) : List (List Char) :=
  (textLines text).filter fun line => Clause.ofLine? line == some clause

theorem textLines_intercalate {lines : List String} (hne : lines ≠ []) (h : ∀ l ∈ lines, '\n' ∉ l.toList) :
    textLines (String.intercalate "\n" lines) = lines.map String.toList := by
  rw [textLines, String.toList_intercalate]
  refine List.splitOn_intercalate '\n' (fun l hl => ?_) (by simpa using hne)
  obtain ⟨line, hline, rfl⟩ := List.mem_map.mp hl
  exact h line hline

/-- The lines that a statement has for a clause. -/
def clauseLines (d : Dialect) (s : Statement) : Clause → List String
  | .select => [selectLine s.shape]
  | .table => [fromLine d s.table]
  | .join => s.joins.map (ArrayJoin.text d)
  | .condition => whereLines d s.condition
  | .grouping => if s.shape = .documents then groupLines d s.joins else []
  | .order =>
    if s.shape = .documents then orderLines d s.order ++ d.defaultOrder s.page (!s.order.isEmpty) else []
  | .paging => if s.shape = .documents then d.paging s.page true else []

theorem lines_eq (d : Dialect) (s : Statement) : s.lines d = Clause.all.flatMap (clauseLines d s) := by
  unfold lines rowLines
  cases hshape : s.shape with
  | documents => simp [Clause.all, clauseLines, hshape, paging_eq d s.page (!s.order.isEmpty)]
  | count => simp [Clause.all, clauseLines, hshape]

/-- A constant starts with words of a clause. -/
theorem Clause.starts_constant {c : Clause} {text : String} (h : c.words.any (fun w => w.toList.isPrefixOf text.toList) = true) :
    c.Starts text := by
  obtain ⟨w, hw, hprefix⟩ := List.any_eq_true.mp h
  obtain ⟨rest, hrest⟩ := List.isPrefixOf_iff_prefix.mp hprefix
  exact ⟨w, hw, rest, hrest.symm⟩

theorem Clause.Starts.append {c : Clause} {text : String} (h : c.Starts text) (more : String) : c.Starts (text ++ more) := by
  obtain ⟨w, hw, rest, htext⟩ := h
  exact ⟨w, hw, rest ++ more.toList, by rw [String.toList_append, htext, List.append_assoc]⟩

theorem crossApply_starts (d : Dialect) (source : String) (path : List String) (label : String) :
    Clause.join.Starts (d.crossApply source path label) := by
  cases d with
  | sqlserver =>
    have h : Clause.join.Starts "CROSS APPLY OPENJSON(" := Clause.starts_constant (by decide +kernel)
    exact (((((h.append _).append _).append _).append _).append _).append _
  | postgres =>
    have h : Clause.join.Starts "CROSS JOIN LATERAL jsonb_array_elements(" := Clause.starts_constant (by decide +kernel)
    exact (((((h.append _).append _).append _).append _).append _).append _
  | sqlite =>
    have h : Clause.join.Starts "CROSS JOIN json_each(" := Clause.starts_constant (by decide +kernel)
    exact ((((h.append _).append _).append _).append _).append _

/-- The line starts as one of paging, and names nothing. -/
structure PagingLine (d : Dialect) (line : String) : Prop where
  starts : Clause.paging.Starts line
  piece : ∀ allowed, d.Piece allowed 0 line 0

namespace PagingLine

variable {d : Dialect} {line : String}

theorem constant (d : Dialect) {text : String}
    (hstart : Clause.paging.words.any (fun w => w.toList.isPrefixOf text.toList) = true)
    (h : ∀ d ∈ Dialect.all, d.isPiece 0 text 0 = true) : PagingLine d text :=
  ⟨Clause.starts_constant hstart, fun _ => .common d h⟩

theorem append (h : PagingLine d line) {more : String} (hmore : ∀ allowed, d.Piece allowed 0 more 0) :
    PagingLine d (line ++ more) :=
  ⟨h.starts.append more, fun allowed => (h.piece allowed).append (hmore allowed)⟩

theorem number (h : PagingLine d line) (n : Nat) : PagingLine d (line ++ toString n) :=
  h.append fun allowed => piece_number d allowed 0 n

end PagingLine

theorem piece_takeText (d : Dialect) (allowed : List Char → Prop) (page : Page) :
    d.Piece allowed 0 (takeText page "-1") 0 := by
  unfold takeText
  split
  · exact piece_number d allowed 0 _
  · exact .common d (by decide +kernel)

theorem paging_line (d : Dialect) (page : Page) : ∀ line ∈ d.paging page true, PagingLine d line := by
  have hlimit : PagingLine d "LIMIT " := .constant d (by decide +kernel) (by decide +kernel)
  have hoffset : PagingLine d "OFFSET " := .constant d (by decide +kernel) (by decide +kernel)
  intro line h
  cases d with
  | sqlserver =>
    have hfetch : PagingLine sqlserver "FETCH NEXT " := .constant _ (by decide +kernel) (by decide +kernel)
    have hrows : ∀ allowed, sqlserver.Piece allowed 0 " ROWS" 0 := fun _ => .common _ (by decide +kernel)
    have honly : ∀ allowed, sqlserver.Piece allowed 0 " ROWS ONLY" 0 := fun _ => .common _ (by decide +kernel)
    simp only [paging, if_true, List.nil_append, List.mem_ite_nil_left, List.mem_append, List.mem_singleton] at h
    obtain ⟨-, rfl | h⟩ := h
    · exact (hoffset.number _).append hrows
    · split at h
      · obtain rfl := List.mem_singleton.mp h
        exact (hfetch.number _).append honly
      · cases h
  | postgres =>
    simp only [paging, List.mem_append, List.mem_ite_nil_right, List.mem_singleton] at h
    rcases h with h | ⟨-, rfl⟩
    · split at h
      · obtain rfl := List.mem_singleton.mp h
        exact hlimit.number _
      · cases h
    · exact hoffset.number _
  | sqlite =>
    have htop : PagingLine sqlite ("LIMIT " ++ takeText page "-1") :=
      hlimit.append fun allowed => piece_takeText sqlite allowed page
    have hskip : ∀ allowed, sqlite.Piece allowed 0 " OFFSET " 0 := fun _ => .common _ (by decide +kernel)
    simp only [paging, List.mem_ite_nil_left, List.mem_singleton] at h
    obtain ⟨-, rfl⟩ := h
    split
    · exact (htop.append hskip).number _
    · exact htop

theorem mem_whereLines {d : Dialect} {condition : Option Condition} {line : String} : line ∈ whereLines d condition ↔
    ∃ c, condition = some c ∧ line = "WHERE (" ++ c.text d ++ ")" := by
  cases condition <;> simp [whereLines]

theorem mem_groupLines {d : Dialect} {joins : List ArrayJoin} {line : String} : line ∈ groupLines d joins ↔
    joins ≠ [] ∧
      line = "GROUP BY " ++ String.intercalate ", " (identityColumn :: documentColumn :: groupElements d joins) := by
  cases joins <;> simp [groupLines]

theorem mem_orderLines {d : Dialect} {order : List Order} {line : String} : line ∈ orderLines d order ↔
    order ≠ [] ∧ line = "ORDER BY " ++ String.intercalate ", " (order.map (Order.text d)) := by
  cases order <;> simp [orderLines]

theorem mem_defaultOrder {d : Dialect} {page : Page} {ordered : Bool} {line : String} : line ∈ d.defaultOrder page ordered ↔
    d = .sqlserver ∧ page.isUnbounded = false ∧ ordered = false ∧ line = "ORDER BY (SELECT NULL)" := by
  cases d <;> cases hpage : page.isUnbounded <;> cases ordered <;> simp [defaultOrder, hpage]

theorem clauseLines_starts (d : Dialect) (s : Statement) (c : Clause) : ∀ line ∈ clauseLines d s c, c.Starts line := by
  intro line h
  cases c with
  | select =>
    obtain rfl := List.mem_singleton.mp h
    cases s.shape <;> exact Clause.starts_constant (by decide +kernel)
  | table =>
    obtain rfl := List.mem_singleton.mp h
    have hfrom : Clause.table.Starts "FROM " := Clause.starts_constant (by decide +kernel)
    exact ((hfrom.append _).append _).append _
  | join =>
    obtain ⟨j, -, rfl⟩ := List.mem_map.mp h
    exact crossApply_starts d _ _ _
  | condition =>
    obtain ⟨c, -, rfl⟩ := mem_whereLines.mp h
    have hwhere : Clause.condition.Starts "WHERE (" := Clause.starts_constant (by decide +kernel)
    exact (hwhere.append _).append _
  | grouping =>
    obtain ⟨-, -, rfl⟩ := (List.mem_ite_nil_right.trans (and_congr_right fun _ => mem_groupLines)).mp h
    have hgroup : Clause.grouping.Starts "GROUP BY " := Clause.starts_constant (by decide +kernel)
    exact hgroup.append _
  | order =>
    obtain ⟨-, h⟩ := List.mem_ite_nil_right.mp h
    rcases List.mem_append.mp h with h | h
    · obtain ⟨-, rfl⟩ := mem_orderLines.mp h
      have horder : Clause.order.Starts "ORDER BY " := Clause.starts_constant (by decide +kernel)
      exact horder.append _
    · obtain ⟨-, -, -, rfl⟩ := mem_defaultOrder.mp h
      exact Clause.starts_constant (by decide +kernel)
  | paging =>
    obtain ⟨-, h⟩ := List.mem_ite_nil_right.mp h
    exact (paging_line d s.page line h).starts

/-- The names that lines of a clause may quote: a table's line names the table. -/
def allowedIn (s : Statement) : Clause → List Char → Prop
  | .table => fun _ => True
  | _ => Labels s.labels

/-- The numbers of the placeholders in lines of a clause. -/
def numbersIn (s : Statement) : Clause → List (List Char)
  | .condition => (s.condition.elim [] Condition.parameters).map fun i => (toString i).toList
  | _ => []

theorem passage_whereLine (d : Dialect) {labels : List String} {c : Condition} (h : ∀ l ∈ c.places, l.Visible labels) :
    d.Passage (Labels labels) 0 ("WHERE (" ++ c.text d ++ ")") 0 (c.parameters.map fun i => (toString i).toList) false := by
  have hwhere : d.Piece (Labels labels) 0 "WHERE (" 1 := .common d (by decide +kernel)
  have hclose : d.Piece (Labels labels) 1 ")" 0 := .common d (by decide +kernel)
  have hcondition := (passage_condition d h).deeper 1
  exact (hwhere.passage.append hcondition).close hclose (c := ')') rfl (by decide)

theorem piece_join (d : Dialect) {s : Statement} (hs : s.Closed) {j : ArrayJoin} (hj : j ∈ s.joins) :
    d.Piece (Labels s.labels) 0 (j.text d) 0 := by
  obtain ⟨names, hlabel, hnames⟩ := hs.named j hj
  have hmem : j.label ∈ s.labels := List.mem_map_of_mem hj
  rw [ArrayJoin.text, hlabel]
  exact piece_crossApply d (hs.array j hj) hnames (hlabel ▸ hmem)

theorem piece_groupElements (d : Dialect) {s : Statement} (hs : s.Closed) :
    ∀ text ∈ groupElements d s.joins, d.Piece (Labels s.labels) 0 text 0 := by
  intro text ht
  obtain ⟨j, hj, rfl⟩ := List.mem_map.mp ht
  have hj := List.mem_of_mem_filter hj
  obtain ⟨names, hlabel, hnames⟩ := hs.named j hj
  rw [hlabel]
  exact piece_element d 0 hnames ⟨j.label, List.mem_map_of_mem hj, hlabel ▸ rfl⟩

/-- Every line is a passage: it names elements of the joins, and its placeholders are the condition's. -/
theorem clauseLines_passage {s : Statement} (hs : s.Closed) (d : Dialect) (c : Clause) :
    ∀ line ∈ clauseLines d s c, d.Passage (allowedIn s c) 0 line 0 (numbersIn s c) false := by
  intro line h
  cases c with
  | select =>
    obtain rfl := List.mem_singleton.mp h
    cases s.shape <;> exact (Piece.common d (by decide +kernel)).passage
  | table =>
    obtain rfl := List.mem_singleton.mp h
    have hfrom : d.Piece (fun _ => True) 0 "FROM " 0 := .common d (by decide +kernel)
    have hblank : d.Piece (fun _ => True) 0 " " 0 := .common d (by decide +kernel)
    have halias : d.Piece (fun _ => True) 0 tableAlias 0 := .common d (by decide +kernel)
    exact (((hfrom.append (piece_table d hs.table)).append hblank).append halias).passage
  | join =>
    obtain ⟨j, hj, rfl⟩ := List.mem_map.mp h
    exact (piece_join d hs hj).passage
  | condition =>
    obtain ⟨c, hc, rfl⟩ := mem_whereLines.mp h
    rw [numbersIn, hc]
    exact passage_whereLine d (hs.condition c hc)
  | grouping =>
    obtain ⟨-, -, rfl⟩ := (List.mem_ite_nil_right.trans (and_congr_right fun _ => mem_groupLines)).mp h
    have hgroup : d.Piece (Labels s.labels) 0 "GROUP BY " 0 := .common d (by decide +kernel)
    have hidentity : d.Piece (Labels s.labels) 0 identityColumn 0 := .common d (by decide +kernel)
    have hdocument : d.Piece (Labels s.labels) 0 documentColumn 0 := .common d (by decide +kernel)
    have hparts : ∀ text ∈ identityColumn :: documentColumn :: groupElements d s.joins, d.Piece (Labels s.labels) 0 text 0 :=
      List.forall_mem_cons.mpr ⟨hidentity, List.forall_mem_cons.mpr ⟨hdocument, piece_groupElements d hs⟩⟩
    exact (hgroup.append (piece_separated hparts)).passage
  | order =>
    obtain ⟨-, h⟩ := List.mem_ite_nil_right.mp h
    rcases List.mem_append.mp h with h | h
    · obtain ⟨-, rfl⟩ := mem_orderLines.mp h
      have horder : d.Piece (Labels s.labels) 0 "ORDER BY " 0 := .common d (by decide +kernel)
      refine (horder.append (piece_separated ?_)).passage
      intro text ht
      obtain ⟨o, ho, rfl⟩ := List.mem_map.mp ht
      exact piece_order d (hs.order o ho)
    · obtain ⟨-, -, -, rfl⟩ := mem_defaultOrder.mp h
      exact (Piece.common d (by decide +kernel)).passage
  | paging =>
    obtain ⟨-, h⟩ := List.mem_ite_nil_right.mp h
    exact ((paging_line d s.page line h).piece _).passage

/-- Passages on lines of their own: the whole text has their span, and their placeholders one after another. -/
theorem intercalate_passages {d : Dialect} {lines : List String}
    (h : ∀ line ∈ lines, ∃ allowed numbers, d.Passage allowed 0 line 0 numbers false) :
    d.Spans (fun _ => True) 0 (String.intercalate "\n" lines).toList 0 ∧
      numbersAfter d.mark (String.intercalate "\n" lines).toList =
        lines.flatMap fun line => numbersAfter d.mark line.toList := by
  have hend : d.Spans (fun _ => True) 0 ['\n'] 0 := spans_quiet d _ 0 (List.forall_mem_singleton.mpr (by decide))
  have hmark : d.mark ∉ ['\n'] := by cases d <;> decide
  induction lines with
  | nil => exact ⟨spans_quiet d _ 0 (fun c hc => by cases hc), rfl⟩
  | cons line rest ih =>
    obtain ⟨allowed, numbers, hline⟩ := h line (List.mem_cons_self ..)
    obtain ⟨hspans, hnumbers⟩ := ih fun l hl => h l (List.mem_cons_of_mem _ hl)
    have hfirst : d.Spans (fun _ => True) 0 line.toList 0 := hline.spans.mono fun _ _ => trivial
    cases rest with
    | nil => simpa using hfirst
    | cons next more =>
      have hown : numbersAfter d.mark line.toList = numbers := by
        have hrest := hline.numbersAfter_append []
        simpa [numbersAfter] using hrest
      have htext : (String.intercalate "\n" (line :: next :: more)).toList =
          line.toList ++ (['\n'] ++ (String.intercalate "\n" (next :: more)).toList) := by
        rw [String.intercalate_cons_cons, String.toList_append, String.toList_append, List.append_assoc]
        rfl
      rw [htext, List.flatMap_cons, ← hnumbers, hown]
      exact ⟨hfirst.append (hend.append hspans),
        (hline.numbersAfter_append _).trans (congrArg _ (numbersAfter_unmarked hmark _))⟩

/-! ## Lines of clauses -/

/-- Lines that are those of the clauses, one after the other, are those of each clause. -/
theorem filter_clause {lines : Clause → List (List Char)} (h : ∀ c, ∀ line ∈ lines c, Clause.ofLine? line = some c)
    (clause : Clause) :
    (Clause.all.flatMap lines).filter (fun line => Clause.ofLine? line == some clause) = lines clause := by
  have hself : (lines clause).filter (fun line => Clause.ofLine? line == some clause) = lines clause :=
    List.filter_eq_self.mpr fun line hline => by rw [h clause line hline]; exact beq_self_eq_true _
  have hother : ∀ c, c ≠ clause → (lines c).filter (fun line => Clause.ofLine? line == some clause) = [] := by
    intro c hne
    refine List.filter_eq_nil_iff.mpr fun line hline => ?_
    rw [h c line hline]
    simpa using hne
  cases clause <;> simp [Clause.all, List.filter_append, hself, hother]

theorem lines_passages {s : Statement} (hs : s.Closed) (d : Dialect) :
    ∀ line ∈ s.lines d, ∃ allowed numbers, d.Passage allowed 0 line 0 numbers false := by
  intro line h
  rw [lines_eq] at h
  obtain ⟨c, -, hc⟩ := List.mem_flatMap.mp h
  exact ⟨_, _, clauseLines_passage hs d c line hc⟩

theorem textLines_text {s : Statement} (hs : s.Closed) (d : Dialect) :
    textLines (s.text d) = Clause.all.flatMap fun c => (clauseLines d s c).map String.toList := by
  have hline : ∀ line ∈ s.lines d, '\n' ∉ line.toList := by
    intro line h
    obtain ⟨_, _, hpassage⟩ := lines_passages hs d line h
    exact hpassage.line
  rw [Statement.text, textLines_intercalate (by simp [lines]) hline, lines_eq, List.map_flatMap]

/-- The lines of a clause in a statement's text are those that the statement has for it. -/
theorem linesOf_text {s : Statement} (hs : s.Closed) (d : Dialect) (clause : Clause) :
    linesOf clause (s.text d) = (clauseLines d s clause).map String.toList := by
  rw [linesOf, textLines_text hs]
  refine filter_clause (fun c line hline => ?_) clause
  obtain ⟨text, htext, rfl⟩ := List.mem_map.mp hline
  exact (clauseLines_starts d s c text htext).ofLine?

/-- The placeholders of a statement's text are those of its condition. -/
theorem numbersAfter_text {s : Statement} (hs : s.Closed) (d : Dialect) : numbersAfter d.mark (s.text d).toList =
    (s.condition.elim [] Condition.parameters).map fun i => (toString i).toList := by
  have hline : ∀ c, ∀ line ∈ clauseLines d s c, numbersAfter d.mark line.toList = numbersIn s c := by
    intro c line h
    have hnumbers := (clauseLines_passage hs d c line h).numbersAfter_append []
    rw [List.append_nil] at hnumbers
    rw [hnumbers]
    exact List.append_nil _
  have hclause : ∀ c, (clauseLines d s c).flatMap (fun line => numbersAfter d.mark line.toList) =
      (clauseLines d s c).flatMap fun _ => numbersIn s c := fun c => List.flatMap_congr (hline c)
  have hnone : ∀ c, c ≠ .condition → (clauseLines d s c).flatMap (fun _ => numbersIn s c) = [] := by
    intro c hne
    cases c <;> first | exact absurd rfl hne | simp [numbersIn]
  rw [Statement.text, (intercalate_passages (lines_passages hs d)).2, lines_eq, List.flatMap_assoc]
  simp only [hclause, Clause.all, List.flatMap_cons, List.flatMap_nil, hnone _ (by decide : Clause.select ≠ _),
    hnone _ (by decide : Clause.table ≠ _), hnone _ (by decide : Clause.join ≠ _), hnone _ (by decide : Clause.grouping ≠ _),
    hnone _ (by decide : Clause.order ≠ _), hnone _ (by decide : Clause.paging ≠ _), List.nil_append, List.append_nil]
  cases hc : s.condition <;> simp [clauseLines, whereLines, numbersIn, hc]

end Statement

end DocQuery
