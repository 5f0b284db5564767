/-
  DocQuery.Proofs.Statement.Faithful — a query's text shows its structure and nothing else.

  Two queries without sort keys and paging have one text if and only if they have one shape and
  their leaves ask the same of the same fields (`select_text_eq_iff`). Constants and the spelling
  of paths are not in the text: equal queries up to these are bound to equal trees but for
  values, and the statement is a function of such a tree. The other way round the line of the
  condition is found behind those of the joins and read back by `tree_cut`.
-/

import DocQuery.Proofs.Join.Order
import DocQuery.Proofs.Statement.Acceptance
import DocQuery.Proofs.Statement.Reading

namespace DocQuery

open DocQuery.Path Statement Text

/-- Queries of one shape whose leaves ask the same of the identity or of one declared path. -/
def Query.Alike (schema : Schema) : Query → Query → Prop
  | .unary f op _, .unary g op' _ => op = op' ∧ target? schema f = target? schema g
  | .isNull f, .isNull g => target? schema f = target? schema g
  | .isNotNull f, .isNotNull g => target? schema f = target? schema g
  | .binary c l r, .binary c' l' r' => c = c' ∧ Alike schema l l' ∧ Alike schema r r'
  | _, _ => False

namespace Statement

/-! ## Alike queries are bound alike -/

def TestAlike : Query.Test → Query.Test → Prop
  | .unary op _, .unary op' _ => op = op'
  | .null negated, .null negated' => negated = negated'
  | _, _ => False

variable {schema : Schema}

theorem boundUnary_bare {f g : String} {op op' : Operator} {v w : Value} {t t' : Target} {b b' : Bound}
    (h : boundUnary f op v t = .ok b) (h' : boundUnary g op' w t' = .ok b') :
    b.bare = b'.bare ↔ op = op' ∧ t = t' := by
  cases t with
  | identity =>
    obtain ⟨c, rfl, rfl⟩ := boundIdentity_ok h
    cases t' with
    | identity => obtain ⟨c', rfl, rfl⟩ := boundIdentity_ok h'; simp [Bound.bare]
    | path r' => obtain ⟨s', -, ⟨c', rfl, rfl⟩ | ⟨-, -, rfl⟩⟩ := boundPath_ok h' <;> simp [Bound.bare]
  | path r =>
    obtain ⟨s, hs, hb⟩ := boundPath_ok h
    cases t' with
    | identity =>
      obtain ⟨c', rfl, rfl⟩ := boundIdentity_ok h'
      rcases hb with ⟨c, rfl, rfl⟩ | ⟨-, -, rfl⟩ <;> simp [Bound.bare]
    | path r' =>
      obtain ⟨s', hs', hb'⟩ := boundPath_ok h'
      -- The types are those of the paths' ends, so equal paths have equal types.
      have htype : r = r' → s = s' := by
        rintro rfl
        exact Element.scalar.inj (hs.symm.trans hs')
      rcases hb with ⟨c, rfl, rfl⟩ | ⟨hm, -, rfl⟩ <;> rcases hb' with ⟨c', rfl, rfl⟩ | ⟨hm', -, rfl⟩
      · simp only [Bound.bare, Bound.compare.injEq, Operator.comparison.injEq, Target.path.injEq, and_true]
        exact ⟨fun h => ⟨h.1, h.2.1⟩, fun h => ⟨h.1, h.2, htype h.2⟩⟩
      · simp only [Bound.bare, reduceCtorEq, false_iff]
        rintro ⟨rfl, -⟩; cases hm'
      · simp only [Bound.bare, reduceCtorEq, false_iff]
        rintro ⟨rfl, -⟩; cases hm
      · simp only [Bound.bare, Bound.member.injEq, Target.path.injEq, and_true]
        constructor
        · rintro ⟨hn, hr, -⟩
          refine ⟨?_, hr⟩
          cases op <;> cases op' <;> first | rfl | (cases hm; done) | (cases hm'; done) | cases hn
        · rintro ⟨rfl, hr⟩
          exact ⟨rfl, hr, htype hr⟩

/-- Two bound leaves are one but for their values exactly when they ask the same of one target. -/
theorem bound_bare {leaf leaf' : Query.Leaf} {b b' : Bound} (h : bound schema leaf = .ok b)
    (h' : bound schema leaf' = .ok b') :
    b.bare = b'.bare ↔ TestAlike leaf.test leaf'.test ∧ target? schema leaf.field = target? schema leaf'.field := by
  obtain ⟨t, ht, hb⟩ := bound_ok h
  obtain ⟨t', ht', hb'⟩ := bound_ok h'
  rw [ht, ht', Except.ok.injEq]
  cases htest : leaf.test with
  | null negated =>
    rw [htest] at hb; subst hb
    cases htest' : leaf'.test with
    | null negated' =>
      rw [htest'] at hb'; subst hb'
      cases t <;> cases t' <;> simp [boundNull, Bound.bare, TestAlike]
    | unary op' w =>
      rw [htest'] at hb'
      simp only [TestAlike, false_and, iff_false]
      cases t' with
      | identity => obtain ⟨c', -, rfl⟩ := boundIdentity_ok hb'.2; cases t <;> simp [boundNull, Bound.bare]
      | path r' =>
        obtain ⟨s', -, ⟨c', -, rfl⟩ | ⟨-, -, rfl⟩⟩ := boundPath_ok hb'.2 <;> cases t <;> simp [boundNull, Bound.bare]
  | unary op v =>
    rw [htest] at hb
    cases htest' : leaf'.test with
    | null negated' =>
      rw [htest'] at hb'; subst hb'
      simp only [TestAlike, false_and, iff_false]
      cases t with
      | identity => obtain ⟨c, -, rfl⟩ := boundIdentity_ok hb.2; cases t' <;> simp [boundNull, Bound.bare]
      | path r =>
        obtain ⟨s, -, ⟨c, -, rfl⟩ | ⟨-, -, rfl⟩⟩ := boundPath_ok hb.2 <;> cases t' <;> simp [boundNull, Bound.bare]
    | unary op' w =>
      rw [htest'] at hb'
      exact boundUnary_bare hb.2 hb'.2

theorem boundTree_bare_leaf {leaf leaf' : Query.Leaf} {t t' : BoundTree}
    (h : (bound schema leaf).map BoundTree.leaf = .ok t) (h' : (bound schema leaf').map BoundTree.leaf = .ok t') :
    t.bare = t'.bare ↔ TestAlike leaf.test leaf'.test ∧ target? schema leaf.field = target? schema leaf'.field := by
  obtain ⟨b, hb, rfl⟩ := boundTree_leaf h
  obtain ⟨b', hb', rfl⟩ := boundTree_leaf h'
  rw [← bound_bare hb hb', BoundTree.bare, BoundTree.bare, BoundTree.leaf.injEq]

theorem boundTree_bare_ne {leaf : Query.Leaf} {c : Connective} {l r : Query} {t t' : BoundTree}
    (h : (bound schema leaf).map BoundTree.leaf = .ok t) (h' : boundTree schema (.binary c l r) = .ok t') :
    t.bare ≠ t'.bare := by
  obtain ⟨b, -, rfl⟩ := boundTree_leaf h
  obtain ⟨tl, tr, -, -, rfl⟩ := boundTree_binary h'
  simp [BoundTree.bare]

/-- Two queries are bound to one tree but for values exactly when they are alike. -/
theorem boundTree_bare {q q' : Query} {t t' : BoundTree} (h : boundTree schema q = .ok t)
    (h' : boundTree schema q' = .ok t') : t.bare = t'.bare ↔ q.Alike schema q' := by
  induction q generalizing q' t t' with
  | unary field op v =>
    cases q' with
    | binary c l r => exact iff_of_false (boundTree_bare_ne h h') id
    | _ => simpa [TestAlike, Query.Alike] using boundTree_bare_leaf h h'
  | isNull field =>
    cases q' with
    | binary c l r => exact iff_of_false (boundTree_bare_ne h h') id
    | _ => simpa [TestAlike, Query.Alike] using boundTree_bare_leaf h h'
  | isNotNull field =>
    cases q' with
    | binary c l r => exact iff_of_false (boundTree_bare_ne h h') id
    | _ => simpa [TestAlike, Query.Alike] using boundTree_bare_leaf h h'
  | binary c l r ihl ihr =>
    cases q' with
    | binary c' l' r' =>
      obtain ⟨tl, tr, hl, hr, rfl⟩ := boundTree_binary h
      obtain ⟨tl', tr', hl', hr', rfl⟩ := boundTree_binary h'
      rw [BoundTree.bare, BoundTree.bare, BoundTree.binary.injEq, ihl hl hl', ihr hr hr', Query.Alike]
    | _ => exact iff_of_false (fun e => boundTree_bare_ne h' h e.symm) id

/-! ## The line of the condition -/

/-- The lines before and after a line in a text. -/
theorem toList_lines (above : List String) (line : String) (below : List String) : ∃ rest,
    (String.intercalate "\n" (above ++ line :: below)).toList =
      above.flatMap (fun l => l.toList ++ ['\n']) ++ (line.toList ++ rest) := by
  induction above with
  | nil =>
    cases below with
    | nil => exact ⟨[], by simp⟩
    | cons l more => exact ⟨'\n' :: (String.intercalate "\n" (l :: more)).toList, by simp [String.toList_intercalate]⟩
  | cons l more ih =>
    obtain ⟨rest, hr⟩ := ih
    refine ⟨rest, ?_⟩
    have hcons : (String.intercalate "\n" (l :: more ++ line :: below)).toList =
        l.toList ++ '\n' :: (String.intercalate "\n" (more ++ line :: below)).toList := by
      cases more <;> simp [String.toList_intercalate]
    rw [hcons, hr]; simp

/-- The text of a join: a line that starts as no condition does. -/
def JoinLine (line : String) : Prop := '\n' ∉ line.toList ∧ line.toList.head? = some 'C'

/-- Behind lines of joins comes the same condition. -/
theorem joinLines_cut {a b : List String} (ha : ∀ l ∈ a, JoinLine l) (hb : ∀ l ∈ b, JoinLine l) {x y : List Char}
    (h : a.flatMap (fun l => l.toList ++ ['\n']) ++ 'W' :: x = b.flatMap (fun l => l.toList ++ ['\n']) ++ 'W' :: y) :
    x = y := by
  have start : ∀ {l : String}, JoinLine l → ∃ rest, l.toList = 'C' :: rest :=
    fun hl => List.head?_eq_some_iff.mp hl.2
  induction a generalizing b with
  | nil =>
    cases b with
    | nil => exact (List.cons.inj h).2
    | cons l more =>
      obtain ⟨rest, hr⟩ := start (hb l (List.mem_cons_self ..))
      simp [hr] at h
  | cons l more ih =>
    cases b with
    | nil =>
      obtain ⟨rest, hr⟩ := start (ha l (List.mem_cons_self ..))
      simp [hr] at h
    | cons k rest =>
      simp only [List.flatMap_cons, List.append_assoc, List.singleton_append] at h
      obtain ⟨-, hmore⟩ := Text.cut (ha l (List.mem_cons_self ..)).1 (hb k (List.mem_cons_self ..)).1 h
      exact ih (fun m hm => ha m (List.mem_cons_of_mem _ hm)) (fun m hm => hb m (List.mem_cons_of_mem _ hm)) hmore

theorem joins_joinLine (hs : schema.Built) (d : Dialect) {t : BoundTree} (ht : t.Sound schema) :
    ∀ line ∈ (arrayJoins (requestPlan (some t) [])).map (ArrayJoin.text d), JoinLine line := by
  intro line hline
  obtain ⟨j, hj, rfl⟩ := List.mem_map.mp hline
  obtain ⟨c, hc, hlabel, harray⟩ := arrayJoins_sound (requestPlan_covers (some t) []) hj
  have hseen : c ∈ t.paths.flatMap (·.arrays) := by simpa [requestPaths] using hc
  obtain ⟨r, hr, hcr⟩ := List.mem_flatMap.mp hseen
  obtain ⟨path, hres⟩ := ht.resolved r hr
  obtain ⟨hplain, -, hnames⟩ := ResolvedPath.array_plain hs hres hcr
  rw [ArrayJoin.text, hlabel, harray]
  exact d.crossApply_line hplain hnames

/-- A query's text: the table's line, the lines of joins, the condition, and what follows it. -/
theorem requestText (d : Dialect) (table : Table) (t : BoundTree) : ∃ rest,
    (requestCompiled d table .all (some t, [])).text.toList =
      (selectLine .documents ++ "\n" ++ fromLine d table ++ "\n").toList ++
        (((arrayJoins (requestPlan (some t) [])).map (ArrayJoin.text d)).flatMap (fun l => l.toList ++ ['\n']) ++
          'W' :: ("HERE (".toList ++ (((t.condition 0).text d).toList ++ ')' :: rest))) := by
  obtain ⟨rest, h⟩ := toList_lines
    (selectLine .documents :: fromLine d table :: (arrayJoins (requestPlan (some t) [])).map (ArrayJoin.text d))
    ("WHERE (" ++ (t.condition 0).text d ++ ")")
    (rowLines d (requestCompiled d table .all (some t, [])).statement)
  refine ⟨rest, ?_⟩
  have hlines : (requestCompiled d table .all (some t, [])).text = String.intercalate "\n"
      ((selectLine .documents :: fromLine d table :: (arrayJoins (requestPlan (some t) [])).map (ArrayJoin.text d)) ++
        ("WHERE (" ++ (t.condition 0).text d ++ ")") ::
          rowLines d (requestCompiled d table .all (some t, [])).statement) := by
    show String.intercalate "\n" (lines d _) = _
    rw [lines]
    simp [requestCompiled, whereLines]
  rw [hlines, h]
  simp

/-- Equal up to values, two bound queries have one statement. -/
theorem requestText_of_bare (d : Dialect) (table : Table) (page : Page) {t t' : BoundTree} (h : t.bare = t'.bare) :
    (requestCompiled d table page (some t, [])).text = (requestCompiled d table page (some t', [])).text := by
  have hplan : requestPlan (some t) [] = requestPlan (some t') [] := by
    simp only [requestPlan, Option.elim]
    rw [← t.bare_paths, h, t'.bare_paths]
  have hcondition : t.condition 0 = t'.condition 0 := by rw [← t.bare_condition, h, t'.bare_condition]
  simp only [Compiled.text, requestCompiled, hplan, hcondition, Option.map]

theorem bare_of_requestText (hs : schema.Built) (d : Dialect) (table : Table) {t t' : BoundTree}
    (ht : t.Sound schema) (ht' : t'.Sound schema)
    (h : (requestCompiled d table .all (some t, [])).text = (requestCompiled d table .all (some t', [])).text) :
    t.bare = t'.bare := by
  obtain ⟨rest, hr⟩ := requestText d table t
  obtain ⟨rest', hr'⟩ := requestText d table t'
  rw [h, hr'] at hr
  have hcondition := joinLines_cut (joins_joinLine hs d ht') (joins_joinLine hs d ht) (List.append_cancel_left hr)
  exact (tree_cut hs d ht' ht 0 (List.append_cancel_left hcondition)).1.symm

theorem select_query {d : Dialect} {table : Table} {q : Query} {c : Compiled}
    (h : select schema d table (some q) .none .all = .ok c) :
    ∃ t, boundTree schema q = .ok t ∧ c = requestCompiled d table .all (some t, []) := by
  rw [select_eq] at h
  obtain ⟨⟨_, keys⟩, hb, rfl⟩ := reported_eq_ok.mp h
  obtain ⟨hk, hq⟩ := boundRequest_ok hb
  rcases hq with ⟨e, -⟩ | ⟨_, t, e, rfl, ht⟩
  · cases e
  · cases e; cases hk
    exact ⟨t, ht, rfl⟩

/-- Two compiled queries have one text exactly when they are alike: constants and spellings do
not show in it, and everything else does. -/
theorem select_text_eq_iff (hs : schema.Built) {d : Dialect} {table : Table} {q q' : Query} {c c' : Compiled}
    (h : select schema d table (some q) .none .all = .ok c)
    (h' : select schema d table (some q') .none .all = .ok c') : c.text = c'.text ↔ q.Alike schema q' := by
  obtain ⟨t, ht, rfl⟩ := select_query h
  obtain ⟨t', ht', rfl⟩ := select_query h'
  rw [← boundTree_bare ht ht']
  exact ⟨bare_of_requestText hs d table (boundTree_sound ht) (boundTree_sound ht'), requestText_of_bare d table .all⟩

/-- Posts with comments, which have contents. -/
def commented : Schema :=
  ⟨"Post", [⟨"Comment", [⟨"Content", .scalar .string⟩]⟩, ⟨"Post", [⟨"Comments", .array (.object "Comment")⟩]⟩]⟩

/-- Two spellings of a path and two constants, one of them written to look like SQL. -/
theorem spellings_alike : ∃ c c', select commented .postgres ⟨"Post", none⟩
      (some (.unary " comments.content" (.comparison .equalTo) (.text "x"))) .none .all = .ok c ∧
    select commented .postgres ⟨"Post", none⟩
      (some (.unary "COMMENTS[3] . Content " (.comparison .equalTo) (.text "' OR 1=1 --"))) .none .all = .ok c' ∧
    c.text = c'.text := by
  obtain ⟨c, h⟩ := select_ok_iff.mpr (by decide +kernel : firstOffence? commented
    (some (.unary " comments.content" (.comparison .equalTo) (.text "x"))) Sorting.none.keys = none)
  obtain ⟨c', h'⟩ := select_ok_iff.mpr (by decide +kernel : firstOffence? commented
    (some (.unary "COMMENTS[3] . Content " (.comparison .equalTo) (.text "' OR 1=1 --"))) Sorting.none.keys = none)
  refine ⟨c, c', h, h', (select_text_eq_iff ⟨"Post", commented.types, by decide +kernel⟩ h h').mpr ⟨rfl, ?_⟩⟩
  decide +kernel

end Statement

end DocQuery
