/-
  DocQuery.Proofs.Path.Exact — which paths resolve, to what, and what is said of the others.

  A path is a text of segments between dots. Said without the resolver: a segment spells a name with
  blanks and possibly an indexer around it (`Spells`); it finds a node below an element when the name is, in
  some letter case, that of a field of the element's type (`Finds`); and a path passes the nodes that its
  segments find one below the other (`Passes`). A segment is read exactly as it spells
  (`segmentName?_eq_some_iff`), a step finds what its segment finds (`step_of_finds`, `step_of_misses`), and
  so a walk passes its nodes or stops at the first segment that finds nothing (`walk_of_passes`,
  `walk_of_misses`). What a path is resolved to is then one of three outcomes (`resolve_outcome`), each fixed by
  what the path passes (`resolve_exactly`).
-/

import Mathlib.Data.List.TakeWhile
import DocQuery.Proofs.Schema.Validity
import DocQuery.Proofs.Text.Cut

namespace DocQuery.Path

/-! ## Segments -/

def Blanks (s : List Char) : Prop := ∀ c ∈ s, Text.isBlank c = true

/-- What may follow the name of a segment: blanks, and an indexer among them. -/
inductive Ends : List Char → Prop
  | bare {blanks : List Char} : Blanks blanks → Ends blanks
  | indexed {blanks front digits back rest : List Char} : Blanks blanks → Blanks front →
      digits ≠ [] → (∀ c ∈ digits, Text.isDecimalDigit c = true) → Blanks back → Blanks rest →
      Ends (blanks ++ '[' :: (front ++ (digits ++ (back ++ ']' :: rest))))

/-- The segment is this name with blanks around it, and possibly an indexer. -/
def Spells (segment : List Char) (name : String) : Prop :=
  Name.Identifier name ∧ ∃ front rest, Blanks front ∧ Ends rest ∧ segment = front ++ (name.toList ++ rest)

theorem split_blanks (s : List Char) : ∃ front, Blanks front ∧ s = front ++ skipBlanks s :=
  ⟨s.takeWhile Text.isBlank, fun _ hc => List.mem_takeWhile_imp hc, (List.takeWhile_append_dropWhile ..).symm⟩

theorem skipBlanks_run {front s : List Char} (h : Blanks front) (hs : ∀ c, s.head? = some c → Text.isBlank c = false) :
    skipBlanks (front ++ s) = s := Text.dropWhile_run h hs

theorem skipBlanks_eq_nil_iff {s : List Char} : skipBlanks s = [] ↔ Blanks s := by
  simp [skipBlanks, Blanks, List.dropWhile_eq_nil_iff]

/-- The runs of digits lie between the blanks. -/
theorem digitZeros_bounds : ∀ z ∈ Text.digitZeros,
    (0x20 < z ∧ z + 10 ≤ 0x85) ∨ (0xA0 < z ∧ z + 10 ≤ 0x1680) ∨ (0x1680 < z ∧ z + 10 ≤ 0x2000) ∨ 0x3000 < z := by
  decide

theorem not_blank_of_isDecimalDigit {c : Char} (h : Text.isDecimalDigit c = true) : Text.isBlank c = false := by
  obtain ⟨z, hz, hc⟩ := List.any_eq_true.mp h
  have hbounds := digitZeros_bounds z hz
  simp only [Bool.and_eq_true, decide_eq_true_eq] at hc
  by_contra hblank
  simp only [Text.isBlank, Bool.not_eq_false, Bool.or_eq_true, Bool.and_eq_true, decide_eq_true_eq, beq_iff_eq] at hblank
  omega

theorem closesIndexer_iff {s : List Char} :
    closesIndexer s = true ↔ ∃ front digits back rest, Blanks front ∧ digits ≠ [] ∧
      (∀ c ∈ digits, Text.isDecimalDigit c = true) ∧ Blanks back ∧ Blanks rest ∧
      s = front ++ (digits ++ (back ++ ']' :: rest)) := by
  constructor
  · intro h
    obtain ⟨front, hfront, hs⟩ := split_blanks s
    obtain ⟨back, hback, hafter⟩ := split_blanks ((skipBlanks s).dropWhile Text.isDecimalDigit)
    simp only [closesIndexer, Bool.and_eq_true, Bool.not_eq_true', List.isEmpty_eq_false_iff] at h
    obtain ⟨hne, h⟩ := h
    split at h
    · rename_i rest hclosing
      rw [hclosing] at hafter
      refine ⟨front, (skipBlanks s).takeWhile Text.isDecimalDigit, back, rest, hfront, hne,
        fun c hc => List.mem_takeWhile_imp hc, hback, skipBlanks_eq_nil_iff.mp (List.isEmpty_iff.mp h), ?_⟩
      rw [← hafter, List.takeWhile_append_dropWhile, ← hs]
    · cases h
  · rintro ⟨front, digits, back, rest, hfront, hne, hdigits, hback, hrest, rfl⟩
    obtain ⟨d, more, rfl⟩ := List.exists_cons_of_ne_nil hne
    have hskip : skipBlanks (front ++ (d :: more ++ (back ++ ']' :: rest))) = d :: more ++ (back ++ ']' :: rest) :=
      skipBlanks_run hfront fun c hc => by
        cases hc
        exact not_blank_of_isDecimalDigit (hdigits d List.mem_cons_self)
    have hnext : ∀ c, (back ++ ']' :: rest).head? = some c → Text.isDecimalDigit c = false := by
      intro c hc
      cases back with
      | nil => cases hc; decide
      | cons b more =>
        have hb : b = c := Option.some.inj hc
        by_contra hd
        have hblank := not_blank_of_isDecimalDigit (eq_true_of_ne_false hd)
        rw [hback c (hb ▸ List.mem_cons_self)] at hblank
        cases hblank
    have hclosing : skipBlanks (back ++ ']' :: rest) = ']' :: rest :=
      skipBlanks_run hback fun c hc => by cases hc; decide
    have hend : skipBlanks rest = [] := skipBlanks_eq_nil_iff.mpr hrest
    simp only [closesIndexer, hskip, Text.takeWhile_run hdigits hnext, Text.dropWhile_run hdigits hnext, hclosing, hend,
      List.isEmpty_cons, List.isEmpty_nil, Bool.not_false, Bool.and_true]

theorem endsSegment_iff {s : List Char} : endsSegment s = true ↔ Ends s := by
  constructor
  · intro h
    obtain ⟨blanks, hblanks, hs⟩ := split_blanks s
    unfold endsSegment at h
    split at h
    · rename_i hskip
      exact .bare (skipBlanks_eq_nil_iff.mp hskip)
    · rename_i r hskip
      obtain ⟨front, digits, back, rest, hfront, hne, hdigits, hback, hrest, rfl⟩ := closesIndexer_iff.mp h
      rw [hskip] at hs
      exact hs ▸ .indexed hblanks hfront hne hdigits hback hrest
    · cases h
  · intro h
    cases h with
    | bare hblanks => simp [endsSegment, skipBlanks_eq_nil_iff.mpr hblanks]
    | @indexed blanks front digits back rest hblanks hfront hne hdigits hback hrest =>
      have hopening : skipBlanks (blanks ++ '[' :: (front ++ (digits ++ (back ++ ']' :: rest)))) = _ :=
        skipBlanks_run hblanks fun c hc => by cases hc; decide
      simp only [endsSegment, hopening]
      exact closesIndexer_iff.mpr ⟨_, _, _, _, hfront, hne, hdigits, hback, hrest, rfl⟩

/-- No character of a name stands at the front of what may follow it. -/
theorem Ends.head {s : List Char} (h : Ends s) : ∀ c, s.head? = some c → Name.isPart c = false := by
  have hfront : ∀ {blanks s : List Char}, Blanks blanks → (∀ c, s.head? = some c → Name.isPart c = false) →
      ∀ c, (blanks ++ s).head? = some c → Name.isPart c = false := by
    intro blanks s hb hs c hc
    cases blanks with
    | nil => exact hs c hc
    | cons b more =>
      have hbc : b = c := Option.some.inj hc
      by_contra hp
      have hblank := Name.not_blank_of_isPart (eq_true_of_ne_false hp)
      rw [hb c (hbc ▸ List.mem_cons_self)] at hblank
      cases hblank
  cases h with
  | bare hblanks => simpa using hfront (s := []) hblanks (by simp)
  | indexed hblanks _ _ _ _ _ => exact hfront hblanks fun c hc => by cases hc; decide

/-- A segment is read as the name that it spells. -/
theorem segmentName?_eq_some_iff {segment : List Char} {name : String} :
    segmentName? segment = some name ↔ Spells segment name := by
  constructor
  · intro h
    obtain ⟨front, hfront, hs⟩ := split_blanks segment
    unfold segmentName? at h
    split at h
    · rename_i c r hskip
      split_ifs at h with hname
      obtain ⟨hstart, hends⟩ := Bool.and_eq_true_iff.mp hname
      cases h
      refine ⟨?_, front, r.dropWhile Name.isPart, hfront, endsSegment_iff.mp hends, ?_⟩
      · refine Name.identifier_iff.mpr ⟨c, r.takeWhile Name.isPart, by simp, hstart, fun d hd => List.mem_takeWhile_imp hd⟩
      · rw [String.toList_ofList, List.cons_append, List.takeWhile_append_dropWhile, ← hskip]
        exact hs
    · cases h
  · rintro ⟨hname, front, rest, hfront, hends, rfl⟩
    obtain ⟨c, r, hcr, hstart, hpart⟩ := Name.identifier_iff.mp hname
    have hskip : skipBlanks (front ++ (name.toList ++ rest)) = c :: (r ++ rest) := by
      rw [hcr]
      exact skipBlanks_run hfront fun d hd => by
        cases hd
        exact Name.not_blank_of_isPart (Name.isPart_of_isStart hstart)
    simp only [segmentName?, hskip, hstart, Text.dropWhile_run hpart hends.head, Text.takeWhile_run hpart hends.head,
      endsSegment_iff.mpr hends, Bool.and_self, if_true]
    rw [← hcr, String.ofList_toList]

theorem pieces_eq_splitOn (s : List Char) : pieces s = s.splitOn '.' := by
  induction s with
  | nil => simp [pieces]
  | cons c r ih =>
    rw [pieces, ih, List.splitOn_cons_eq_if_modifyHead]
    cases h : r.splitOn '.' with
    | nil => exact absurd h (List.splitOn_ne_nil _ _)
    | cons piece rest => rfl

/-! ## Walks -/

/-- The kind and the element of a node whose field has this type. -/
inductive Shows : FieldType → Kind → Element → Prop
  | scalar (x : Scalar) : Shows (.scalar x) .scalar (.scalar x)
  | object (name : String) : Shows (.object name) .object (.object name)
  | valueArray (x : Scalar) : Shows (.array (.scalar x)) .valueArray (.scalar x)
  | objectArray (name : String) : Shows (.array (.object name)) .objectArray (.object name)

/-- The node is a field, under its declared name, of the object type that the element is of. -/
inductive Element.Has (s : Schema) : Element → Node → Prop
  | field {t : ObjectType} {f : Field} {kind : Kind} {element : Element} : t ∈ s.types → f ∈ t.fields →
      Shows f.type kind element → Element.Has s (.object t.name) ⟨f.name, kind, element⟩

/-- The segment spells, in some letter case, the name of this node below the element. -/
def Finds (s : Schema) (segment : List Char) (above : Element) (n : Node) : Prop :=
  above.Has s n ∧ ∃ name, Spells segment name ∧ Text.sameIgnoringCase n.name name = true

/-- The segments find these nodes, each below the one before it. -/
inductive Passes (s : Schema) : Element → List (List Char) → List Node → Prop
  | nil {above : Element} : Passes s above [] []
  | cons {above : Element} {segment : List Char} {n : Node} {segments : List (List Char)} {nodes : List Node} :
      Finds s segment above n → Passes s n.element segments nodes → Passes s above (segment :: segments) (n :: nodes)

namespace Element

def typeName : Element → String
  | scalar x => x.name
  | object name => name

/-- The element that a walk has come to after these nodes. -/
def after (start : Element) (nodes : List Node) : Element := nodes.foldl (fun _ n => n.element) start

@[simp] theorem after_nil (start : Element) : start.after [] = start := rfl

@[simp] theorem after_cons (start : Element) (n : Node) (nodes : List Node) :
    start.after (n :: nodes) = n.element.after nodes := rfl

/-- The place where a walk stands on an element. -/
def place (s : Schema) : Element → Place
  | scalar x => .leaf x.name
  | object name =>
    match s.type? name with
    | some t => .type t
    | none => .leaf name

/-- The element is a scalar or of a type of the schema. -/
def Known (s : Schema) (e : Element) : Prop := ∀ name, e = .object name → name ∈ s.types.map (·.name)

end Element

theorem Shows.reference {type : FieldType} {kind : Kind} {name : String} (h : Shows type kind (.object name)) :
    type.reference? = some name ∧ (kind = .object ∨ kind = .objectArray) := by
  cases h with
  | object => exact ⟨rfl, .inl rfl⟩
  | objectArray => exact ⟨rfl, .inr rfl⟩

theorem shows_iff {type : FieldType} {kind : Kind} {element : Element} :
    Shows type kind element ↔ classify type = some (kind, element) := by
  constructor
  · rintro (_ | _ | _ | _) <;> rfl
  · intro h
    cases type with
    | scalar x => cases h; exact .scalar x
    | object name => cases h; exact .object name
    | array inner =>
      cases inner with
      | scalar x => cases h; exact .valueArray x
      | object name => cases h; exact .objectArray name
      | array inner => cases h

section
variable {s : Schema} {above : Element} {segment : List Char} {n : Node} {nodes : List Node}
  {segments passed : List (List Char)}

theorem place_of_mem (hs : s.Checked) {t : ObjectType} (ht : t ∈ s.types) :
    (Element.object t.name).place s = .type t := by
  simp [Element.place, Schema.type?_of_mem hs.nodup ht]

theorem origin_eq_place (s : Schema) : origin s = (Element.object s.root).place s := rfl

theorem Element.known_root (hs : s.Checked) : (Element.object s.root).Known s := by
  rintro name ⟨⟩
  exact hs.root

/-- What a field of a checked schema leads to is known to the schema. -/
theorem Element.Has.known (hs : s.Checked) (h : above.Has s n) : n.element.Known s := by
  obtain ⟨ht, hf, hshows⟩ := h
  rintro name rfl
  exact hs.declared _ ht name (List.mem_filterMap.mpr ⟨_, hf, hshows.reference.1⟩)

theorem step_of_finds (hs : s.Checked) (path : String) (h : Finds s segment above n) :
    step s path (above.place s) segment = .ok (n, n.element.place s) := by
  obtain ⟨hhas, name, hname, hsame⟩ := h
  have hknown := hhas.known hs
  obtain @⟨t, f, kind, element, ht, hf, hshows⟩ := hhas
  have hfield : (segmentName? segment).bind t.field? = some f := by
    rw [segmentName?_eq_some_iff.mpr hname]
    exact (hs.field?_eq_some_iff ht).mpr ⟨hf, hsame⟩
  rw [place_of_mem hs ht]
  simp only [step, hfield, shows_iff.mp hshows]
  cases element with
  | scalar x => rfl
  | object typeName =>
    obtain ⟨target, htarget⟩ := Option.isSome_iff_exists.mp (Schema.type?_isSome_iff.mpr (hknown typeName rfl))
    simp [htarget, Element.place]

theorem step_of_misses (hs : s.Checked) (path : String) (hknown : above.Known s) (h : ∀ n, ¬ Finds s segment above n) :
    step s path (above.place s) segment = .error (.pathNotFound path above.typeName) := by
  cases above with
  | scalar x => rfl
  | object typeName =>
    obtain ⟨t, ht, rfl⟩ := List.mem_map.mp (hknown typeName rfl)
    rw [place_of_mem hs ht]
    cases hfield : (segmentName? segment).bind t.field? with
    | none => simp [step, hfield, Element.typeName]
    | some f =>
      obtain ⟨name, hname, hf⟩ := Option.bind_eq_some_iff.mp hfield
      obtain ⟨hmem, hsame⟩ := (hs.field?_eq_some_iff ht).mp hf
      obtain ⟨kind, element, hc⟩ := classify_isSome (hs.flat t ht f hmem)
      exact absurd ⟨.field ht hmem (shows_iff.mpr hc), name, segmentName?_eq_some_iff.mp hname, hsame⟩
        (h ⟨f.name, kind, element⟩)

theorem walk_of_passes (hs : s.Checked) (path : String) (h : Passes s above segments nodes) :
    walk s path (above.place s) segments = .ok nodes := by
  induction h with
  | nil => rfl
  | cons hfinds _ ih => simp [walk, step_of_finds hs path hfinds, ih, bind, Except.bind, pure, Except.pure]

theorem walk_of_misses (hs : s.Checked) (path : String) (hknown : above.Known s) (h : Passes s above passed nodes)
    (hm : ∀ n, ¬ Finds s segment (above.after nodes) n) (rest : List (List Char)) :
    walk s path (above.place s) (passed ++ segment :: rest) =
      .error (.pathNotFound path (above.after nodes).typeName) := by
  induction h with
  | nil => simp [walk, step_of_misses hs path hknown hm, bind, Except.bind]
  | cons hfinds _ ih =>
    simp [walk, step_of_finds hs path hfinds, ih (hfinds.1.known hs) hm, bind, Except.bind]

/-- Segments pass their nodes, or there is a first one that finds nothing. -/
theorem passes_or_misses (s : Schema) (above : Element) (segments : List (List Char)) :
    (∃ nodes, Passes s above segments nodes) ∨
      ∃ passed segment rest nodes, segments = passed ++ segment :: rest ∧ Passes s above passed nodes ∧
        ∀ n, ¬ Finds s segment (above.after nodes) n := by
  induction segments generalizing above with
  | nil => exact .inl ⟨[], .nil⟩
  | cons segment segments ih =>
    by_cases h : ∃ n, Finds s segment above n
    · obtain ⟨n, hn⟩ := h
      rcases ih n.element with ⟨nodes, hnodes⟩ | ⟨passed, missing, rest, nodes, rfl, hnodes, hm⟩
      · exact .inl ⟨n :: nodes, .cons hn hnodes⟩
      · exact .inr ⟨segment :: passed, missing, rest, n :: nodes, rfl, .cons hn hnodes, hm⟩
    · exact .inr ⟨[], segment, segments, [], rfl, .nil, not_exists.mp h⟩

theorem Passes.length_eq (h : Passes s above segments nodes) : nodes.length = segments.length := by
  induction h with
  | nil => rfl
  | cons _ _ ih => simp [ih]

theorem Passes.above_eq (h : Passes s above segments nodes) (hne : nodes ≠ []) : ∃ name, above = .object name := by
  cases h with
  | nil => exact absurd rfl hne
  | cons hfinds _ =>
    obtain ⟨⟨_, _, _⟩, -⟩ := hfinds
    exact ⟨_, rfl⟩

/-- All nodes but the last are of object types. -/
theorem Passes.before_last {before : List Node} (h : Passes s above segments (before ++ [n])) :
    ∀ m ∈ before, m.kind = .object ∨ m.kind = .objectArray := by
  induction before generalizing above segments with
  | nil => intro m hm; cases hm
  | cons first more ih =>
    cases h with
    | cons hfinds hrest =>
      obtain ⟨name, hname⟩ := hrest.above_eq (by simp)
      obtain ⟨@⟨t, f, kind, element, _, _, hshows⟩, -⟩ := hfinds
      cases hname
      exact List.forall_mem_cons.mpr ⟨hshows.reference.2, ih hrest⟩

/-- The element that the node at an index is below: that of its parent, and for the first the start. -/
def aboveAt (start : Element) (nodes : List Node) (i : Nat) : Option Element :=
  match parent? i with
  | none => some start
  | some j => nodes[j]?.map (·.element)

theorem Passes.parent (h : Passes s above segments nodes) {i : Nat} (hn : nodes[i]? = some n) :
    ∃ e, aboveAt above nodes i = some e ∧ e.Has s n := by
  induction h generalizing i with
  | nil => cases hn
  | @cons above _ first _ nodes hfinds _ ih =>
    cases i with
    | zero =>
      cases hn
      exact ⟨above, rfl, hfinds.1⟩
    | succ i =>
      obtain ⟨e, he, hhas⟩ := ih hn
      refine ⟨e, ?_, hhas⟩
      cases i with
      | zero => exact he
      | succ j => exact he

end

/-! ## Resolving -/

/-- What stands between the dots of a path without the blanks around it. -/
def segmentsOf (path : String) : List (List Char) := (Text.trimChars path.toList).splitOn '.'

theorem not_finds_nil {s : Schema} {above : Element} (n : Node) : ¬ Finds s [] above n := by
  rintro ⟨-, name, ⟨hname, front, rest, -, -, hempty⟩, -⟩
  obtain ⟨-, hrest⟩ := List.append_eq_nil_iff.mp hempty.symm
  exact hname.ne_nil (List.append_eq_nil_iff.mp hrest).1

theorem ofNodes?_append (before : List Node) (n : Node) : ResolvedPath.ofNodes? (before ++ [n]) = some ⟨before, n⟩ := by
  induction before with
  | nil => rfl
  | cons first more ih =>
    cases more with
    | nil => rfl
    | cons second more => simp only [List.cons_append, ResolvedPath.ofNodes?] at ih ⊢; rw [ih]; rfl

section
variable {s : Schema} {path : String}

theorem resolve_of_passes (hs : s.Checked) {before : List Node} {n : Node}
    (h : Passes s (.object s.root) (segmentsOf path) (before ++ [n])) :
    resolve s path = if n.kind = .objectArray then .error (.arrayTerminal path) else .ok ⟨before, n⟩ := by
  have hne : (Text.trimChars path.toList).isEmpty = false := by
    rw [Bool.eq_false_iff]
    intro hempty
    rw [segmentsOf, List.isEmpty_iff.mp hempty, List.splitOn_nil] at h
    cases hnodes : before ++ [n] with
    | nil => simp at hnodes
    | cons first more =>
      rw [hnodes] at h
      cases h with
      | cons hfinds _ => exact not_finds_nil first hfinds
  have hwalk := walk_of_passes hs path h
  rw [segmentsOf, ← pieces_eq_splitOn] at hwalk
  simp only [resolve, hne, Bool.false_eq_true, if_false, origin_eq_place, hwalk, bind, Except.bind, pure, Except.pure,
    ofNodes?_append, beq_iff_eq]
  rfl

theorem resolve_of_misses (hs : s.Checked) {passed rest : List (List Char)} {segment : List Char} {nodes : List Node}
    (hpath : segmentsOf path = passed ++ segment :: rest) (h : Passes s (.object s.root) passed nodes)
    (hm : ∀ n, ¬ Finds s segment ((Element.object s.root).after nodes) n) :
    resolve s path = .error (.pathNotFound path ((Element.object s.root).after nodes).typeName) := by
  by_cases hempty : (Text.trimChars path.toList).isEmpty = true
  · -- The empty text is one segment that finds nothing below the root.
    rw [segmentsOf, List.isEmpty_iff.mp hempty, List.splitOn_nil] at hpath
    cases passed with
    | nil =>
      cases h
      simp [resolve, hempty, throw, throwThe, MonadExceptOf.throw, bind, Except.bind, Element.typeName]
    | cons first more => simp at hpath
  · have hwalk := walk_of_misses hs path (Element.known_root hs) h hm rest
    rw [← hpath, segmentsOf, ← pieces_eq_splitOn] at hwalk
    simp only [resolve, hempty, Bool.false_eq_true, if_false, origin_eq_place, hwalk, bind, Except.bind]

/-- What a path is resolved to: the nodes that its segments find, or an error where the last of these is an array
of objects, or an error at the first segment that finds nothing. -/
inductive Outcome (s : Schema) (path : String) : Except Error ResolvedPath → Prop
  | found {before : List Node} {n : Node} : Passes s (.object s.root) (segmentsOf path) (before ++ [n]) →
      n.kind ≠ .objectArray → Outcome s path (.ok ⟨before, n⟩)
  | array {before : List Node} {n : Node} : Passes s (.object s.root) (segmentsOf path) (before ++ [n]) →
      n.kind = .objectArray → Outcome s path (.error (.arrayTerminal path))
  | missing {passed rest : List (List Char)} {segment : List Char} {nodes : List Node} :
      segmentsOf path = passed ++ segment :: rest → Passes s (.object s.root) passed nodes →
      (∀ n, ¬ Finds s segment ((Element.object s.root).after nodes) n) →
      Outcome s path (.error (.pathNotFound path ((Element.object s.root).after nodes).typeName))

theorem resolve_outcome (hs : s.Checked) (path : String) : Outcome s path (resolve s path) := by
  rcases passes_or_misses s (.object s.root) (segmentsOf path) with ⟨nodes, h⟩ | ⟨passed, segment, rest, nodes, hpath, h, hm⟩
  · rcases List.eq_nil_or_concat' nodes with rfl | ⟨before, n, rfl⟩
    · exact absurd (List.length_eq_zero_iff.mp h.length_eq.symm) (List.splitOn_ne_nil _ _)
    · rw [resolve_of_passes hs h]
      split_ifs with hk
      · exact .array h hk
      · exact .found h hk
  · rw [resolve_of_misses hs hpath h hm]
    exact .missing hpath h hm

theorem resolve_ok_iff (hs : s.Checked) {r : ResolvedPath} :
    resolve s path = .ok r ↔ Passes s (.object s.root) (segmentsOf path) r.nodes ∧ r.terminal.kind ≠ .objectArray := by
  constructor
  · intro hr
    have hout := resolve_outcome hs path
    rw [hr] at hout
    cases hout with
    | found h hk => exact ⟨h, hk⟩
  · rintro ⟨h, hk⟩
    rw [resolve_of_passes hs h, if_neg hk]

theorem resolve_arrayTerminal_iff (hs : s.Checked) :
    resolve s path = .error (.arrayTerminal path) ↔
      ∃ before n, Passes s (.object s.root) (segmentsOf path) (before ++ [n]) ∧ n.kind = .objectArray := by
  constructor
  · intro hr
    have hout := resolve_outcome hs path
    rw [hr] at hout
    cases hout with
    | array h hk => exact ⟨_, _, h, hk⟩
  · rintro ⟨before, n, h, hk⟩
    rw [resolve_of_passes hs h, if_pos hk]

theorem resolve_pathNotFound_iff (hs : s.Checked) {typeName : String} :
    resolve s path = .error (.pathNotFound path typeName) ↔
      ∃ passed segment rest nodes, segmentsOf path = passed ++ segment :: rest ∧
        Passes s (.object s.root) passed nodes ∧ (∀ n, ¬ Finds s segment ((Element.object s.root).after nodes) n) ∧
        ((Element.object s.root).after nodes).typeName = typeName := by
  constructor
  · intro hr
    have hout := resolve_outcome hs path
    rw [hr] at hout
    cases hout with
    | missing hpath h hm => exact ⟨_, _, _, _, hpath, h, hm, rfl⟩
  · rintro ⟨passed, segment, rest, nodes, hpath, h, hm, rfl⟩
    exact resolve_of_misses hs hpath h hm

theorem resolve_error_cases (hs : s.Checked) {e : Error} (he : resolve s path = .error e) :
    e = .arrayTerminal path ∨ ∃ typeName, e = .pathNotFound path typeName := by
  have hout := resolve_outcome hs path
  rw [he] at hout
  cases hout with
  | array _ _ => exact .inl rfl
  | missing _ _ _ => exact .inr ⟨_, rfl⟩

/-- A path resolves exactly to the nodes that its segments find one below the other, the last of them no array
of objects. It ends on an array where they find their nodes and the last is one; and it is not found in the type
come to before the first segment that finds nothing. There is no other outcome. -/
theorem resolve_exactly (hs : s.Built) (path : String) :
    (∀ r, resolve s path = .ok r ↔
      Passes s (.object s.root) (segmentsOf path) r.nodes ∧ r.terminal.kind ≠ .objectArray) ∧
    (∀ r, resolve s path = .ok r →
      (∀ n ∈ r.before, n.kind = .object ∨ n.kind = .objectArray) ∧
      ∀ i n, r.nodes[i]? = some n → ∃ above, aboveAt (.object s.root) r.nodes i = some above ∧ above.Has s n) ∧
    (resolve s path = .error (.arrayTerminal path) ↔
      ∃ before n, Passes s (.object s.root) (segmentsOf path) (before ++ [n]) ∧ n.kind = .objectArray) ∧
    (∀ typeName, resolve s path = .error (.pathNotFound path typeName) ↔
      ∃ passed segment rest nodes, segmentsOf path = passed ++ segment :: rest ∧
        Passes s (.object s.root) passed nodes ∧ (∀ n, ¬ Finds s segment ((Element.object s.root).after nodes) n) ∧
        ((Element.object s.root).after nodes).typeName = typeName) ∧
    ∀ e, resolve s path = .error e → e = .arrayTerminal path ∨ ∃ typeName, e = .pathNotFound path typeName := by
  have hc := hs.checked
  refine ⟨fun r => resolve_ok_iff hc, fun r hr => ?_, resolve_arrayTerminal_iff hc,
    fun typeName => resolve_pathNotFound_iff hc, fun e he => resolve_error_cases hc he⟩
  obtain ⟨hpasses, -⟩ := (resolve_ok_iff hc).mp hr
  exact ⟨hpasses.before_last, fun i n hn => hpasses.parent hn⟩

end

/-- In a schema of posts with replies to replies: blanks, indexers and letter case say nothing, an array may not
stand last, and a step below a text is not found in the text's type. -/
theorem replies_resolved :
    ∃ s, Schema.ofTypes "Post" Schema.repliesTypes = .ok s ∧
      Passes s (.object "Post") (segmentsOf " COMMENTS [ 3 ] .replies. content ")
        [⟨"Comments", .objectArray, .object "Comment"⟩, ⟨"Replies", .objectArray, .object "Comment"⟩,
          ⟨"Content", .scalar, .scalar .string⟩] ∧
      (∃ before n, Passes s (.object "Post") (segmentsOf "Comments.Replies") (before ++ [n]) ∧ n.kind = .objectArray) ∧
      ∃ passed segment rest nodes, segmentsOf "Title.Length" = passed ++ segment :: rest ∧
        Passes s (.object "Post") passed nodes ∧ (∀ n, ¬ Finds s segment ((Element.object "Post").after nodes) n) ∧
        ((Element.object "Post").after nodes).typeName = "string" := by
  have hbuilt : Schema.ofTypes "Post" Schema.repliesTypes = .ok ⟨"Post", Schema.repliesTypes.reverse⟩ := by
    decide +kernel
  have hs : (⟨"Post", Schema.repliesTypes.reverse⟩ : Schema).Built := ⟨_, _, hbuilt⟩
  refine ⟨_, hbuilt, ?_, ?_, ?_⟩
  · exact ((resolve_exactly hs " COMMENTS [ 3 ] .replies. content ").1
      ⟨[⟨"Comments", .objectArray, .object "Comment"⟩, ⟨"Replies", .objectArray, .object "Comment"⟩],
        ⟨"Content", .scalar, .scalar .string⟩⟩ |>.mp (by decide +kernel)).1
  · exact (resolve_exactly hs "Comments.Replies").2.2.1.mp (by decide +kernel)
  · exact ((resolve_exactly hs "Title.Length").2.2.2.1 "string").mp (by decide +kernel)

end DocQuery.Path
