/-
  DocQuery.Proofs.Statement.Layout — compiled statements are well formed.

  What compiles is a closed statement (`requestStatement_closed`): every path is read from the
  document or from an element that its arrays' joins expose. So the lines of its text stand in the
  order of their clauses, brackets balance, and every name that is quoted outside the table's line is
  a join's (`compiled_wellFormed`). An element is exposed on a line above those that read it, and
  the elements that rows are grouped by are those of the arrays that sort keys cross.
-/

import DocQuery.Proofs.Join.Runs
import DocQuery.Proofs.Statement.Lines

namespace DocQuery

open DocQuery.Path Dialect Statement

namespace Statement

variable {schema : Schema} {d : Dialect} {table : Table} {q : Option Query} {given : List SortKey}
  {t : Option BoundTree} {keys : List BoundKey}

/-! ## Closed statements -/

theorem BoundTree.condition_places (tree : BoundTree) (n : Nat) : (tree.condition n).places = tree.paths.map (·.place) := by
  induction tree generalizing n with
  | leaf b => cases b <;> rfl
  | binary c left right ihl ihr => simp only [condition, Condition.places, paths, List.map_append, ihl, ihr]

theorem BoundKey.order_places (k : BoundKey) : k.order.places = k.path?.toList.map (·.place) := by cases k <;> rfl

theorem requestStatement_closed (hs : schema.Built) (ht : table.Built)
    (hb : boundRequest schema q given = .ok (t, keys)) (shape : Shape) (page : Page) :
    (requestStatement shape table page t keys).Closed := by
  have hresolved := boundRequest_resolved hb
  have hplace : ∀ r ∈ requestPaths t keys, r.place.Visible ((requestJoins t keys).map (·.label)) := by
    intro r hr
    obtain ⟨path, hpath⟩ := hresolved r hr
    exact ⟨ResolvedPath.place_plain hs hpath, fun label hsource => requestPaths_joined hr hsource⟩
  have harray : ∀ j ∈ requestJoins t keys, (∃ names, j.label = dotted names ∧ ∀ n ∈ names, Name.Identifier n) ∧
      j.array.Visible ((requestJoins t keys).map (·.label)) := by
    intro j hj
    obtain ⟨r, hr, c, hc, hlabel, harray⟩ := requestJoins_sound hj
    obtain ⟨path, hpath⟩ := hresolved r hr
    obtain ⟨hplain, -, hnames⟩ := ResolvedPath.array_plain hs hpath hc
    rw [harray]
    exact ⟨⟨c.names, hlabel, hnames⟩, hplain, fun label hsource =>
      requestPaths_labels hr (ResolvedPath.array_source hc hsource)⟩
  refine ⟨ht, fun j hj => (harray j hj).1, fun j hj => (harray j hj).2, fun c hc l hl => ?_, fun o ho l hl => ?_⟩
  · obtain ⟨tree, rfl, rfl⟩ := Option.map_eq_some_iff.mp hc
    rw [tree.condition_places] at hl
    obtain ⟨r, hr, rfl⟩ := List.mem_map.mp hl
    exact hplace r (List.mem_append_left _ hr)
  · obtain ⟨k, hk, rfl⟩ := List.mem_map.mp ho
    rw [k.order_places] at hl
    obtain ⟨r, hr, rfl⟩ := List.mem_map.mp hl
    exact hplace r (List.mem_append_right _ (List.mem_filterMap.mpr ⟨k, hk, Option.mem_toList.mp hr⟩))

/-! ## Well-formed texts -/

/-- The path of a sort key crosses the array of this key. -/
def CrossedBySort (schema : Schema) (sorting : Sorting) (key : String) : Prop :=
  ∃ k ∈ sorting.keys, ∃ r, target? schema k.field = .ok (.path r) ∧ ∃ c ∈ r.crossings, r.keyAt c.1 = key

end Statement

/-- A statement's text has the lines it should have, and reads nothing that it does not join. -/
structure Compiled.WellFormed (schema : Schema) (d : Dialect) (shape : Shape) (sorting : Sorting) (c : Compiled) : Prop where
  dialect : c.dialect = d
  /-- The lines stand in the order of their clauses. -/
  inOrder : textLines c.text = Clause.all.flatMap fun clause => linesOf clause c.text
  select : (linesOf .select c.text).length = 1
  table : (linesOf .table c.text).length = 1
  condition : (linesOf .condition c.text).length ≤ 1
  grouping : (linesOf .grouping c.text).length ≤ 1
  order : (linesOf .order c.text).length ≤ 1
  balanced : d.Balanced c.text.toList
  joins : linesOf .join c.text = c.statement.joins.map fun j => (j.text d).toList
  /-- Every join reads the document or the element of an earlier one. -/
  sources : Scoped [] c.statement.joins
  /-- Names quoted by the condition, the grouping and the order are those of joins. -/
  visible : ∀ clause ∈ [Clause.condition, .grouping, .order], ∀ line ∈ linesOf clause c.text,
    ∀ name ∈ d.quotedNames line, ∃ j ∈ c.statement.joins, name = j.label.toList
  /-- Rows are grouped exactly when there are joins, by identity, document and the grouped elements. -/
  groupLine : linesOf .grouping c.text =
    if shape = .documents ∧ c.statement.joins ≠ [] then
      [("GROUP BY " ++ String.intercalate ", " (identityColumn :: documentColumn ::
        (c.statement.joins.filter (·.grouped)).map fun j => d.element j.label)).toList]
    else []
  grouped : ∀ j ∈ c.statement.joins, j.grouped = true ↔ CrossedBySort schema sorting j.label
  /-- SQL Server skips rows of an order only. -/
  ordered : d = .sqlserver → ∀ above line below, textLines c.text = above ++ line :: below →
    "OFFSET ".toList <+: line → ∃ o ∈ above, Clause.ofLine? o = some .order

namespace Statement

variable {schema : Schema} {d : Dialect} {table : Table} {q : Option Query} {given : List SortKey}
  {t : Option BoundTree} {keys : List BoundKey}

/-- Lines that stand before others and are none of them stand before each of them. -/
theorem prefix_of_append {α : Type} {front back above below : List α} {line : α}
    (h : front ++ back = above ++ line :: below) (hn : line ∉ front) : front <+: above := by
  obtain ⟨mid, rfl, -⟩ | ⟨mid, hfront, hrest⟩ := List.append_eq_append_iff.mp h
  · exact List.prefix_append ..
  · cases mid with
    | nil => exact ⟨[], by rw [hfront, List.append_nil, List.append_nil]⟩
    | cons x more =>
      obtain ⟨rfl, -⟩ := List.cons.inj hrest
      exact absurd (hfront ▸ List.mem_append_right _ List.mem_cons_self) hn

/-- Where SQL Server pages rows there is a line that orders them. -/
theorem order_of_paging {s : Statement} (h : clauseLines .sqlserver s .paging ≠ []) : clauseLines .sqlserver s .order ≠ [] := by
  simp only [clauseLines] at h ⊢
  by_cases hshape : s.shape = .documents
  · rw [if_pos hshape] at h ⊢
    -- Rows in no order are given one when they are paged.
    cases hpage : s.page.isUnbounded with
    | true => simp [paging, hpage] at h
    | false => cases horder : s.order <;> simp [orderLines, defaultOrder, hpage]
  · rw [if_neg hshape] at h
    exact absurd rfl h

/-- A line of SQL Server that skips rows has the line that orders them above it. -/
theorem order_of_offset {s : Statement} (hs : s.Closed) {above below : List (List Char)} {line : List Char}
    (h : textLines (s.text .sqlserver) = above ++ line :: below) (hoffset : "OFFSET ".toList <+: line) :
    ∃ o ∈ above, Clause.ofLine? o = some .order := by
  let lines : Clause → List (List Char) := fun c => (clauseLines .sqlserver s c).map String.toList
  have hclause : ∀ c, ∀ l ∈ lines c, Clause.ofLine? l = some c := by
    intro c l hl
    obtain ⟨text, htext, rfl⟩ := List.mem_map.mp hl
    exact (clauseLines_starts .sqlserver s c text htext).ofLine?
  have hpaging : Clause.ofLine? line = some .paging := by
    obtain ⟨rest, rfl⟩ := hoffset
    exact Clause.ofLine?_words (by decide) rest
  have hsplit : [Clause.select, .table, .join, .condition, .grouping, .order].flatMap lines ++ lines .paging =
      above ++ line :: below := by
    rw [← h, textLines_text hs]
    simp [Clause.all, lines]
  have hfront : line ∉ [Clause.select, .table, .join, .condition, .grouping, .order].flatMap lines := by
    intro hm
    obtain ⟨c, hc, hl⟩ := List.mem_flatMap.mp hm
    have hsame : Clause.paging = c := Option.some.inj (hpaging.symm.trans (hclause c line hl))
    subst hsame
    revert hc
    decide
  have hback : lines .paging ≠ [] := by
    intro hnone
    rw [hnone, List.append_nil] at hsplit
    exact hfront (hsplit ▸ List.mem_append_right _ List.mem_cons_self)
  obtain ⟨o, ho⟩ := List.exists_mem_of_ne_nil (lines .order) (fun hnone =>
    order_of_paging (fun hp => hback (congrArg _ hp)) (List.map_eq_nil_iff.mp hnone))
  exact ⟨o, (prefix_of_append hsplit hfront).subset (List.mem_flatMap.mpr ⟨.order, by decide, ho⟩), hclause .order o ho⟩

theorem whereLines_length (d : Dialect) (c : Option Condition) : (whereLines d c).length ≤ 1 := by
  cases c <;> simp [whereLines]

theorem groupLines_length (d : Dialect) (joins : List ArrayJoin) : (groupLines d joins).length ≤ 1 := by
  unfold groupLines; split <;> simp

theorem orderLines_length (d : Dialect) (order : List Order) (page : Page) :
    (orderLines d order ++ d.defaultOrder page (!order.isEmpty)).length ≤ 1 := by
  cases order with
  | nil =>
    cases d with
    | sqlserver => cases hpage : page.isUnbounded <;> simp [orderLines, defaultOrder, hpage]
    | _ => simp [orderLines, defaultOrder]
  | cons o rest => cases d <;> simp [orderLines, defaultOrder]

theorem wellFormed_of_closed {s : Statement} (hs : s.Closed) (d : Dialect) (hscoped : Scoped [] s.joins)
    (parameters : List Value) {sorting : Sorting}
    (hgrouped : ∀ j ∈ s.joins, j.grouped = true ↔ CrossedBySort schema sorting j.label) :
    Compiled.WellFormed schema d s.shape sorting ⟨d, s, parameters⟩ := by
  have hlines : ∀ c, linesOf c (s.text d) = (clauseLines d s c).map String.toList := linesOf_text hs d
  have htext : (Compiled.mk d s parameters).text = s.text d := rfl
  refine ⟨rfl, ?inOrder, ?select, ?table, ?condition, ?grouping, ?order, ?balanced, ?joins, hscoped, ?visible,
    ?groupLine, hgrouped, ?ordered⟩ <;> rw [htext]
  case inOrder =>
    rw [textLines_text hs]
    simp only [hlines]
  case select => rw [hlines]; rfl
  case table => rw [hlines]; rfl
  case condition => rw [hlines, List.length_map]; exact whereLines_length d s.condition
  case grouping =>
    rw [hlines, List.length_map, clauseLines]
    split
    · exact groupLines_length d s.joins
    · exact Nat.zero_le 1
  case order =>
    rw [hlines, List.length_map, clauseLines]
    split
    · exact orderLines_length d s.order s.page
    · exact Nat.zero_le 1
  case balanced => exact (intercalate_passages (lines_passages hs d)).1.balanced
  case joins => rw [hlines, clauseLines, List.map_map]; rfl
  case visible =>
    intro clause hclause line hline name hname
    rw [hlines] at hline
    obtain ⟨text, htext, rfl⟩ := List.mem_map.mp hline
    have hallowed := (clauseLines_passage hs d clause text htext).spans.quoted name hname
    have hlabels : allowedIn s clause = Labels s.labels := by
      simp only [List.mem_cons, List.not_mem_nil, or_false] at hclause
      rcases hclause with rfl | rfl | rfl <;> rfl
    rw [hlabels] at hallowed
    obtain ⟨label, hlabel, rfl⟩ := hallowed
    obtain ⟨j, hj, rfl⟩ := List.mem_map.mp hlabel
    exact ⟨j, hj, rfl⟩
  case groupLine =>
    rw [hlines, clauseLines, groupLines]
    cases hjoins : s.joins <;> by_cases hshape : s.shape = .documents <;> simp [hshape, groupElements]
  case ordered =>
    rintro rfl above line below hsplit hoffset
    exact order_of_offset hs hsplit hoffset

theorem crossedBySort_iff {sorting : Sorting} (h : boundKeys schema sorting.keys = .ok keys) {key : String} :
    CrossedBySort schema sorting key ↔ ∃ c ∈ sortArrays keys, dotted c.names = key := by
  simp only [CrossedBySort, ← ResolvedPath.mem_arrays_key, sortArrays, List.mem_flatMap, boundKeys_paths h]
  constructor
  · intro hcrossed
    obtain ⟨k, hk, r, hr, c, hc, hkey⟩ := hcrossed
    exact ⟨c, ⟨r, ⟨k, hk, hr⟩, hc⟩, hkey⟩
  · intro harray
    obtain ⟨c, ⟨r, ⟨k, hk, hr⟩, hc⟩, hkey⟩ := harray
    exact ⟨k, hk, r, hr, c, hc, hkey⟩

/-- Whatever compiles is well formed, for rows and for their number. -/
theorem compiled_wellFormed (hs : schema.Built) (ht : table.Built) (d : Dialect) (q : Option Query) (sorting : Sorting)
    (page : Page) :
    (∀ c, select schema d table q sorting page = .ok c → c.WellFormed schema d .documents sorting) ∧
      ∀ c, count schema d table q = .ok c → c.WellFormed schema d .count .none := by
  constructor
  · intro c hc
    obtain ⟨t, keys, hb, rfl⟩ := select_request hc
    exact wellFormed_of_closed (requestStatement_closed hs ht hb .documents page) d (requestJoins_scoped t keys) _
      fun j hj => (requestJoins_grouped hj).trans (crossedBySort_iff (boundRequest_ok hb).1).symm
  · intro c hc
    obtain ⟨t, hb, rfl⟩ := count_request hc
    exact wellFormed_of_closed (requestStatement_closed hs ht hb .count .all) d (requestJoins_scoped t []) _
      fun j hj => (requestJoins_grouped hj).trans (crossedBySort_iff (show boundKeys schema Sorting.none.keys = _ from (boundRequest_ok hb).1)).symm

/-- Posts with comments, which may have replies. -/
def discussion : Schema :=
  ⟨"Post", [
    ⟨"Comment", [⟨"Content", .scalar .string⟩, ⟨"Rating", .scalar .int⟩, ⟨"Replies", .array (.object "Comment")⟩]⟩,
    ⟨"Post", [⟨"Title", .scalar .string⟩, ⟨"Tags", .array (.scalar .string)⟩,
      ⟨"Comments", .array (.object "Comment")⟩]⟩]⟩

def blogPosts : Table := ⟨"Posts", some "blog"⟩

theorem discussion_built : discussion.Built := ⟨"Post", discussion.types, by decide +kernel⟩

theorem blogPosts_built : blogPosts.Built := by
  have hnamed : Table.named "Posts" = .ok ⟨"Posts", none⟩ := by decide +kernel
  exact .inSchema (.named hnamed) (show Table.inSchema ⟨"Posts", none⟩ "blog" = .ok blogPosts by decide +kernel)

/-- A condition on replies and on tags. -/
def liveliest : Query :=
  .binary .and (.unary "comments.replies.rating" (.comparison .greaterThan) (.integer 3))
    (.binary .or (.unary "tags" .contains (.text "lean")) (.isNotNull "Title"))

def byRating : Sorting := ⟨[⟨"Comments.Rating", .descending⟩]⟩

/-- The second ten posts, by the ratings of their comments, and how many posts there are. -/
theorem liveliest_wellFormed : ∃ rows number,
    select discussion .sqlserver blogPosts (some liveliest) byRating ⟨10, some 10⟩ = .ok rows ∧
      rows.WellFormed discussion .sqlserver .documents byRating ∧
    count discussion .sqlserver blogPosts (some liveliest) = .ok number ∧
      number.WellFormed discussion .sqlserver .count .none := by
  obtain ⟨hselect, hcount⟩ :=
    compiled_wellFormed discussion_built blogPosts_built .sqlserver (some liveliest) byRating ⟨10, some 10⟩
  obtain ⟨rows, hrows⟩ : ∃ c, select discussion .sqlserver blogPosts (some liveliest) byRating ⟨10, some 10⟩ = .ok c :=
    select_ok_iff.mpr (by decide +kernel)
  obtain ⟨number, hnumber⟩ : ∃ c, count discussion .sqlserver blogPosts (some liveliest) = .ok c :=
    count_ok_iff.mpr (by decide +kernel)
  exact ⟨rows, number, hrows, hselect rows hrows, hnumber, hcount number hnumber⟩

end Statement

end DocQuery
