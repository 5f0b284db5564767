/-
  DocQuery.Proofs.Path.Respelling — the spellings of one path.

  What a path says is the names that its pieces between dots spell (`Reads`). The blanks around the path are
  blanks around its first and its last piece, so the resolver, which trims, reads the same names
  (`named_segmentsOf`). Two paths say the same when their names differ in letter case at most (`Respelled`), and
  these are exactly the paths that resolve to one thing; its canonical text is one of them (`resolve_respelled`).
-/

import DocQuery.Proofs.Path.Address
import DocQuery.Proofs.Path.Exact
import DocQuery.Proofs.Text.Trim

namespace DocQuery.Path

/-- The pieces between the dots of the path spell these names. -/
def Reads (path : String) (names : List String) : Prop := List.Forall₂ Spells (path.toList.splitOn '.') names

/-- The names are the same one by one, letter case aside. -/
def SameNames (names names' : List String) : Prop :=
  List.Forall₂ (fun a b => Text.sameIgnoringCase a b = true) names names'

/-- The two paths spell the same names. -/
def Respelled (path path' : String) : Prop :=
  ∃ names names', Reads path names ∧ Reads path' names' ∧ SameNames names names'

/-! ## Blanks around a segment -/

theorem Blanks.not_dot {blanks : List Char} (h : Blanks blanks) : '.' ∉ blanks := by
  intro hdot
  have hblank := h '.' hdot
  revert hblank
  decide

theorem Blanks.of_append_left {a b : List Char} (h : Blanks (a ++ b)) : Blanks a :=
  fun c hc => h c (List.mem_append_left b hc)

theorem Blanks.append {a b : List Char} (ha : Blanks a) (hb : Blanks b) : Blanks (a ++ b) :=
  List.forall_mem_append.mpr ⟨ha, hb⟩

theorem Ends.append_blanks {rest blanks : List Char} (h : Ends rest) (hb : Blanks blanks) : Ends (rest ++ blanks) := by
  cases h with
  | bare hrest => exact .bare (hrest.append hb)
  | indexed hbefore hfront hne hdigits hback hafter =>
    simpa using Ends.indexed hbefore hfront hne hdigits hback (hafter.append hb)

/-- A blank that stands last is after the indexer. -/
theorem Ends.of_append_blank {rest : List Char} {c : Char} (hc : Text.isBlank c = true) (h : Ends (rest ++ [c])) :
    Ends rest := by
  generalize hwhole : rest ++ [c] = whole at h
  cases h with
  | bare hb => exact .bare (hwhole ▸ hb).of_append_left
  | @indexed blanks front digits back after hb hfront hne hdigits hback hafter =>
    rcases after.eq_nil_or_concat' with rfl | ⟨before, d, rfl⟩
    · have hlast : rest ++ [c] = (blanks ++ '[' :: (front ++ (digits ++ back))) ++ [']'] := by simpa using hwhole
      cases (List.append_inj' hlast rfl).2
      have hclosing : Text.isBlank ']' = true := hc
      exact absurd hclosing (by decide)
    · have hlast : rest ++ [c] = (blanks ++ '[' :: (front ++ (digits ++ (back ++ ']' :: before)))) ++ [d] := by
        simpa using hwhole
      rw [(List.append_inj' hlast rfl).1]
      exact .indexed hb hfront hne hdigits hback hafter.of_append_left

theorem Spells.of_append_blank {segment : List Char} {c : Char} {name : String} (hc : Text.isBlank c = true)
    (h : Spells (segment ++ [c]) name) : Spells segment name := by
  obtain ⟨hname, front, rest, hfront, hends, hsegment⟩ := h
  rcases rest.eq_nil_or_concat' with rfl | ⟨before, d, rfl⟩
  · -- The name itself would end on the blank.
    obtain ⟨whole, last, hname'⟩ := name.toList.eq_nil_or_concat'.resolve_left hname.ne_nil
    have hlast : segment ++ [c] = (front ++ whole) ++ [last] := by simpa [hname'] using hsegment
    cases (List.append_inj' hlast rfl).2
    rw [Name.not_blank_of_isPart (hname.isPart (c := c) (by simp [hname']))] at hc
    cases hc
  · have hlast : segment ++ [c] = (front ++ (name.toList ++ before)) ++ [d] := by simpa using hsegment
    obtain ⟨rfl, hcd⟩ := List.append_inj' hlast rfl
    cases hcd
    exact ⟨hname, front, before, hfront, hends.of_append_blank hc, rfl⟩

theorem Spells.append_blanks {segment blanks : List Char} {name : String} (h : Spells segment name)
    (hb : Blanks blanks) : Spells (segment ++ blanks) name := by
  obtain ⟨hname, front, rest, hfront, hends, rfl⟩ := h
  exact ⟨hname, front, rest ++ blanks, hfront, hends.append_blanks hb, by simp⟩

theorem Spells.of_append_blanks {segment blanks : List Char} {name : String} (hb : Blanks blanks)
    (h : Spells (segment ++ blanks) name) : Spells segment name := by
  induction blanks generalizing segment with
  | nil => simpa using h
  | cons c rest ih =>
    rw [List.append_cons] at h
    exact (ih (fun d hd => hb d (List.mem_cons_of_mem c hd)) h).of_append_blank (hb c List.mem_cons_self)

theorem segmentName?_append_blanks {segment blanks : List Char} (h : Blanks blanks) :
    segmentName? (segment ++ blanks) = segmentName? segment := by
  refine Option.ext fun name => ?_
  rw [segmentName?_eq_some_iff, segmentName?_eq_some_iff]
  exact ⟨.of_append_blanks h, fun hs => hs.append_blanks h⟩

theorem segmentName?_blanks_append {segment blanks : List Char} (h : Blanks blanks) :
    segmentName? (blanks ++ segment) = segmentName? segment := by
  have hskip : skipBlanks (blanks ++ segment) = skipBlanks segment := List.dropWhile_append_of_pos h
  simp only [segmentName?, hskip]

theorem forall₂_spells_iff {segments : List (List Char)} {names : List String} :
    List.Forall₂ Spells segments names ↔ segments.map segmentName? = names.map some := by
  rw [← List.forall₂_eq_eq_eq, List.forall₂_map_left_iff, List.forall₂_map_right_iff]
  simp only [segmentName?_eq_some_iff]

/-! ## Blanks around a path -/

/-- Characters before a text go into its first piece. -/
theorem splitOn_run_append {mark : Char} {run : List Char} (h : mark ∉ run) (s : List Char) :
    ∃ first rest, s.splitOn mark = first :: rest ∧ (run ++ s).splitOn mark = (run ++ first) :: rest := by
  obtain ⟨first, rest, hs⟩ := List.exists_cons_of_ne_nil (List.splitOn_ne_nil mark s)
  refine ⟨first, rest, hs, ?_⟩
  induction run with
  | nil => exact hs
  | cons c more ih =>
    rw [List.cons_append, List.splitOn_cons_eq_if_modifyHead, ih (List.not_mem_of_not_mem_cons h)]
    simp [(List.ne_of_not_mem_cons h).symm]

/-- Characters after a text go into its last piece. -/
theorem splitOn_append_run {mark : Char} {run : List Char} (h : mark ∉ run) (s : List Char) :
    ∃ before last, s.splitOn mark = before ++ [last] ∧ (s ++ run).splitOn mark = before ++ [last ++ run] := by
  induction s with
  | nil =>
    have hwhole : ([mark].intercalate [run]).splitOn mark = [run] :=
      List.splitOn_intercalate mark (by simpa using h) (by simp)
    exact ⟨[], [], List.splitOn_nil _, by simpa using hwhole⟩
  | cons c s ih =>
    obtain ⟨before, last, hs, hrun⟩ := ih
    rw [List.cons_append, List.splitOn_cons_eq_if_modifyHead, List.splitOn_cons_eq_if_modifyHead, hs, hrun]
    by_cases hc : c = mark
    · exact ⟨[] :: before, last, by simp [hc], by simp [hc]⟩
    · cases before with
      | nil => exact ⟨[], c :: last, by simp [hc], by simp [hc]⟩
      | cons piece more => exact ⟨(c :: piece) :: more, last, by simp [hc], by simp [hc]⟩

/-- The names in the pieces between dots, where they spell any. -/
def named (s : List Char) : List (Option String) := (s.splitOn '.').map segmentName?

theorem named_between_blanks {s front back : List Char} (hfront : Blanks front) (hback : Blanks back) :
    named (front ++ (s ++ back)) = named s := by
  obtain ⟨first, rest, hs, hrun⟩ := splitOn_run_append hfront.not_dot (s ++ back)
  obtain ⟨before, last, hs', hrun'⟩ := splitOn_append_run hback.not_dot s
  calc named (front ++ (s ++ back))
      = named (s ++ back) := by simp [named, hs, hrun, segmentName?_blanks_append hfront]
    _ = named s := by simp [named, hs', hrun', segmentName?_append_blanks hback]

/-- Trimming leaves the names in a path as they are. -/
theorem named_segmentsOf (path : String) : (segmentsOf path).map segmentName? = named path.toList := by
  obtain ⟨front, back, hfront, hback, hpath⟩ := Text.exists_trimmed path.toList
  conv_rhs => rw [hpath]
  exact (named_between_blanks hfront hback).symm

theorem reads_iff_segmentsOf {path : String} {names : List String} :
    Reads path names ↔ List.Forall₂ Spells (segmentsOf path) names := by
  rw [Reads, forall₂_spells_iff, forall₂_spells_iff, named_segmentsOf, named]

/-- A path spells one list of names at most. -/
theorem Reads.unique {path : String} {names names' : List String} (h : Reads path names) (h' : Reads path names') :
    names = names' := by
  have hnames := (forall₂_spells_iff.mp h).symm.trans (forall₂_spells_iff.mp h')
  exact List.map_injective_iff.mpr (Option.some_injective String) hnames

/-! ## Letter case -/

theorem sameNames_iff {names names' : List String} :
    SameNames names names' ↔ names.map Text.lower = names'.map Text.lower := by
  rw [← List.forall₂_eq_eq_eq, List.forall₂_map_left_iff, List.forall₂_map_right_iff]
  simp only [SameNames, Text.sameIgnoringCase, beq_iff_eq]

theorem SameNames.refl (names : List String) : SameNames names names := sameNames_iff.mpr rfl

theorem SameNames.symm {a b : List String} (h : SameNames a b) : SameNames b a :=
  sameNames_iff.mpr (sameNames_iff.mp h).symm

theorem SameNames.trans {a b c : List String} (h : SameNames a b) (h' : SameNames b c) : SameNames a c :=
  sameNames_iff.mpr ((sameNames_iff.mp h).trans (sameNames_iff.mp h'))

/-! ## Resolving -/

section
variable {s : Schema} {above : Element} {segments segments' : List (List Char)} {nodes : List Node}

/-- Segments that pass nodes spell the nodes' names in some letter case. -/
theorem Passes.spelled (h : Passes s above segments nodes) :
    ∃ names, List.Forall₂ Spells segments names ∧ SameNames (nodes.map (·.name)) names := by
  induction h with
  | nil => exact ⟨[], .nil, .nil⟩
  | cons hfinds _ ih =>
    obtain ⟨-, name, hname, hsame⟩ := hfinds
    obtain ⟨names, hnames, hsames⟩ := ih
    exact ⟨name :: names, .cons hname hnames, .cons hsame hsames⟩

/-- Where some segments pass nodes, all segments do that spell the nodes' names in some letter case. -/
theorem Passes.of_spelled (h : Passes s above segments nodes) {names : List String}
    (hnames : List.Forall₂ Spells segments' names) (hsame : SameNames (nodes.map (·.name)) names) :
    Passes s above segments' nodes := by
  induction h generalizing segments' names with
  | nil =>
    cases hsame
    cases hnames
    exact .nil
  | cons hfinds _ ih =>
    obtain _ | ⟨hone, hmore⟩ := hsame
    obtain _ | ⟨hname, hrest⟩ := hnames
    exact .cons ⟨hfinds.1, _, hname, hone⟩ (ih hrest hmore)

end

variable {s : Schema} {path : String} {r : ResolvedPath}

/-- Once a path resolves to this, exactly the paths do that spell the names of its nodes in some letter case. -/
theorem resolve_iff_reads (hs : s.Checked) (h : resolve s path = .ok r) {path' : String} :
    resolve s path' = .ok r ↔ ∃ names, Reads path' names ∧ SameNames r.names names := by
  obtain ⟨hpasses, hterminal⟩ := (resolve_ok_iff hs).mp h
  constructor
  · intro h'
    obtain ⟨names, hnames, hsame⟩ := ((resolve_ok_iff hs).mp h').1.spelled
    exact ⟨names, reads_iff_segmentsOf.mpr hnames, hsame⟩
  · rintro ⟨names, hnames, hsame⟩
    exact (resolve_ok_iff hs).mpr ⟨hpasses.of_spelled (reads_iff_segmentsOf.mp hnames) hsame, hterminal⟩

theorem reads_canonical (h : ∀ n ∈ r.names, Name.Identifier n) : Reads r.canonical r.names := by
  have hne : r.names ≠ [] := by simp [ResolvedPath.names, ResolvedPath.nodes]
  rw [Reads, ResolvedPath.canonical, toList_dotted, separated_split (by decide) h hne, List.forall₂_map_left_iff,
    List.forall₂_same]
  exact fun n hn => ⟨h n hn, [], [], by simp [Blanks], .bare (by simp [Blanks]), by simp⟩

/-- What a path resolves to, its own canonical text resolves to as well, and so do all the paths, and only
those, that spell the same names: in any letter case, with any blanks around the path, around its segments and in
their indexers, and with an indexer on a segment or none. -/
theorem resolve_respelled (hs : s.Built) (h : resolve s path = .ok r) :
    resolve s r.canonical = .ok r ∧ ∀ path', resolve s path' = .ok r ↔ Respelled path path' := by
  have hc := hs.checked
  obtain ⟨names, hnames, hsame⟩ := (resolve_iff_reads hc h).mp h
  refine ⟨(resolve_iff_reads hc h).mpr ⟨r.names, reads_canonical (ResolvedPath.names_identifier hs h), .refl _⟩,
    fun path' => ?_⟩
  rw [resolve_iff_reads hc h]
  constructor
  · rintro ⟨names', hnames', hsame'⟩
    exact ⟨names, names', hnames, hnames', hsame.symm.trans hsame'⟩
  · rintro ⟨first, names', hfirst, hnames', hsame'⟩
    obtain rfl := hnames.unique hfirst
    exact ⟨names', hnames', hsame.trans hsame'⟩

/-- Among posts with replies to replies: the second path has other letters, other blanks, a blank that is none in
ASCII, and an indexer in another script on another segment. -/
theorem replies_respelled :
    ∃ s r, Schema.ofTypes "Post" Schema.repliesTypes = .ok s ∧
      resolve s " COMMENTS [ 3 ] .replies. content " = .ok r ∧
      r.canonical = "Comments.Replies.Content" ∧ resolve s r.canonical = .ok r ∧
      Respelled " COMMENTS [ 3 ] .replies. content " "comments .Replies [\u0663 ].CONTENT\u3000" := by
  have hbuilt : Schema.ofTypes "Post" Schema.repliesTypes = .ok ⟨"Post", Schema.repliesTypes.reverse⟩ := by
    decide +kernel
  have hresolve : resolve ⟨"Post", Schema.repliesTypes.reverse⟩ " COMMENTS [ 3 ] .replies. content " =
      .ok ⟨[⟨"Comments", .objectArray, .object "Comment"⟩, ⟨"Replies", .objectArray, .object "Comment"⟩],
        ⟨"Content", .scalar, .scalar .string⟩⟩ := by
    decide +kernel
  obtain ⟨hcanonical, hrespelled⟩ := resolve_respelled ⟨_, _, hbuilt⟩ hresolve
  exact ⟨_, _, hbuilt, hresolve, by decide +kernel, hcanonical, (hrespelled _).mp (by decide +kernel)⟩

end DocQuery.Path
