/-
  DocQuery.Proofs.CommandLine.Answer — what a command to compile prints.

  A request is answered with the statement that the library compiles from the parts its options describe, and only
  then (`printed_as_compiled`). A binding is divided at its first equals sign, a sort key at its last colon, and of
  a name's bindings the last counts. The one thing lost between the command line and the statement is the order of
  the sort keys: those of `--order-by-desc` come after all others, wherever they stand (`grouped_eq_iff`).
-/

import DocQuery.CommandLine.Answer
import DocQuery.Proofs.CommandLine.Arguments
import DocQuery.Proofs.Outcome
import DocQuery.Proofs.Predicate.Bindings

namespace DocQuery.CommandLine

open Argument Request
open Predicate (Setting)

theorem orFault_eq_ok {α : Type} {x : Except Error α} {a : α} : orFault x = .ok a ↔ x = .ok a :=
  Except.mapError_eq_ok

/-! ## Bindings -/

/-- A binding is a name and a value around an equals sign, the first one. -/
inductive Binds : String → String × Value → Prop
  | mk {name value : String} : '=' ∉ name.toList →
      Binds (name ++ "=" ++ value) (Text.trim name, .ofLiteral (Text.trim value))

theorem binding_eq_ok {spec : String} {b : String × Value} : binding spec = .ok b ↔ Binds spec b := by
  unfold binding
  constructor
  · intro h
    by_cases hmark : '=' ∈ spec.toList
    · obtain ⟨front, back, hspec, hfront⟩ := List.eq_append_cons_of_mem hmark
      rw [hspec] at h
      simp only [Text.takeWhile_mark hfront, Text.dropWhile_mark hfront, Except.ok.injEq] at h
      have htext : spec = String.ofList front ++ "=" ++ String.ofList back := by
        rw [← String.toList_inj, hspec]
        simp
      rw [← h, htext]
      exact .mk (by rwa [String.toList_ofList])
    · simp [Text.dropWhile_unmarked hmark] at h
  · intro h
    cases h with
    | @mk name value hname => simp [Text.takeWhile_mark hname, Text.dropWhile_mark hname]

/-! ## Sort keys -/

/-- A sort key is a field, which ascends, or a field and its direction around a colon, the last one. -/
inductive Keyed : String → String → Direction → Prop
  | bare {field : String} : ':' ∉ field.toList → Keyed field field .ascending
  | marked {field mark : String} {d : Direction} : ':' ∉ mark.toList → Text.sameIgnoringCase mark d.keyword = true →
      Keyed (field ++ ":" ++ mark) field d

theorem splitAtLastColon_unmarked {spec : String} (h : ':' ∉ spec.toList) : splitAtLastColon spec = none := by
  have hreverse : ':' ∉ spec.toList.reverse := fun hm => h (List.mem_reverse.mp hm)
  unfold splitAtLastColon
  simp [Text.dropWhile_unmarked hreverse]

theorem splitAtLastColon_marked {mark : String} (h : ':' ∉ mark.toList) (field : String) :
    splitAtLastColon (field ++ ":" ++ mark) = some (field, mark) := by
  have hreverse : ':' ∉ mark.toList.reverse := fun hm => h (List.mem_reverse.mp hm)
  unfold splitAtLastColon
  simp [Text.takeWhile_mark hreverse, Text.dropWhile_mark hreverse]

theorem exists_last_colon {spec : String} (h : ':' ∈ spec.toList) :
    ∃ field mark, spec = field ++ ":" ++ mark ∧ ':' ∉ mark.toList := by
  obtain ⟨back, front, hspec, hback⟩ := List.eq_append_cons_of_mem (List.mem_reverse.mpr h)
  refine ⟨String.ofList front.reverse, String.ofList back.reverse, ?_, ?_⟩
  · rw [← String.toList_inj, ← List.reverse_reverse spec.toList, hspec]
    simp
  · rwa [String.toList_ofList, List.mem_reverse]

/-- Directions are marked in small letters and written in capitals. -/
theorem same_keyword (mark : String) :
    Text.sameIgnoringCase mark "asc" = Text.sameIgnoringCase mark Direction.ascending.keyword ∧
    Text.sameIgnoringCase mark "desc" = Text.sameIgnoringCase mark Direction.descending.keyword := by
  have hasc : Text.lower "asc" = Text.lower Direction.ascending.keyword := by decide
  have hdesc : Text.lower "desc" = Text.lower Direction.descending.keyword := by decide
  exact ⟨congrArg (Text.lower mark == ·) hasc, congrArg (Text.lower mark == ·) hdesc⟩

theorem sortKey_marked {mark : String} (h : ':' ∉ mark.toList) {d : Direction}
    (hmark : Text.sameIgnoringCase mark d.keyword = true) (field : String) :
    sortKey (field ++ ":" ++ mark) = orFault (SortKey.checked (Text.trim field) d) := by
  obtain ⟨hasc, hdesc⟩ := same_keyword mark
  have hlower : Text.lower mark = Text.lower d.keyword := beq_iff_eq.mp hmark
  unfold sortKey
  simp only [splitAtLastColon_marked h, hasc, hdesc]
  cases d with
  | ascending =>
    have hother : Text.sameIgnoringCase mark Direction.descending.keyword = false := by
      rw [Text.sameIgnoringCase, hlower]
      decide
    rw [hother, hmark]
    rfl
  | descending =>
    rw [hmark]
    rfl

theorem sortKey_eq_ok {spec : String} {key : SortKey} :
    sortKey spec = .ok key ↔ ∃ field d, Keyed spec field d ∧ SortKey.checked (Text.trim field) d = .ok key := by
  constructor
  · intro h
    by_cases hcolon : ':' ∈ spec.toList
    · obtain ⟨field, mark, rfl, hmark⟩ := exists_last_colon hcolon
      by_cases hd : ∃ d : Direction, Text.sameIgnoringCase mark d.keyword = true
      · obtain ⟨d, hd⟩ := hd
        rw [sortKey_marked hmark hd] at h
        exact ⟨field, d, .marked hmark hd, orFault_eq_ok.mp h⟩
      · have hnone : ∀ d : Direction, Text.sameIgnoringCase mark d.keyword = false :=
          fun d => Bool.eq_false_iff.mpr fun e => hd ⟨d, e⟩
        obtain ⟨hasc, hdesc⟩ := same_keyword mark
        unfold sortKey at h
        simp [splitAtLastColon_marked hmark, hasc, hdesc, hnone] at h
    · unfold sortKey at h
      rw [splitAtLastColon_unmarked hcolon] at h
      exact ⟨spec, .ascending, .bare hcolon, orFault_eq_ok.mp h⟩
  · intro ⟨field, d, hkeyed, hkey⟩
    cases hkeyed with
    | bare hcolon =>
      unfold sortKey
      rw [splitAtLastColon_unmarked hcolon]
      exact orFault_eq_ok.mpr hkey
    | marked hmark hd =>
      rw [sortKey_marked hmark hd]
      exact orFault_eq_ok.mpr hkey

/-- The sort key of an option. -/
inductive Sorts : Argument → SortKey → Prop
  | keyed {spec field : String} {d : Direction} {key : SortKey} :
      Keyed spec field d → SortKey.checked (Text.trim field) d = .ok key → Sorts (.option "order-by" spec) key
  | descending {field : String} {key : SortKey} :
      SortKey.checked field .descending = .ok key → Sorts (.option "order-by-desc" field) key

theorem sorts_keyed {spec : String} {key : SortKey} : Sorts (.option "order-by" spec) key ↔ sortKey spec = .ok key := by
  rw [sortKey_eq_ok]
  constructor
  · intro h
    generalize ha : Argument.option "order-by" spec = a at h
    cases h with
    | keyed hkeyed hkey =>
      cases ha
      exact ⟨_, _, hkeyed, hkey⟩
    | descending => exact absurd (Argument.option.inj ha).1 (by decide)
  · intro ⟨field, d, hkeyed, hkey⟩
    exact .keyed hkeyed hkey

theorem sorts_descending {field : String} {key : SortKey} :
    Sorts (.option "order-by-desc" field) key ↔ orFault (SortKey.checked field .descending) = .ok key := by
  rw [orFault_eq_ok]
  constructor
  · intro h
    generalize ha : Argument.option "order-by-desc" field = a at h
    cases h with
    | keyed => exact absurd (Argument.option.inj ha).1 (by decide)
    | descending hkey =>
      cases ha
      exact hkey
  · exact .descending

/-! ### Their order -/

def isNamed (name : String) : Argument → Bool
  | .option n _ => n == name
  | _ => false

/-- The sort options as they stand on the command line. -/
def sortOptions (args : List Argument) : List Argument :=
  args.filter fun a => isNamed "order-by" a || isNamed "order-by-desc" a

/-- The sort options as they are taken: first those that name their direction. -/
def groupedOptions (args : List Argument) : List Argument :=
  args.filter (isNamed "order-by") ++ args.filter (isNamed "order-by-desc")

theorem filter_isNamed (name : String) (args : List Argument) :
    args.filter (isNamed name) = (values name args).map (.option name) := by
  induction args with
  | nil => rfl
  | cons a args ih =>
    cases a with
    | option n value =>
      by_cases hn : n = name
      · subst hn
        simpa [isNamed, values] using ih
      · simpa [isNamed, values, hn] using ih
    | flag n => simpa [isNamed, values] using ih
    | plain value => simpa [isNamed, values] using ih

theorem filter_append_filter_iff {α : Type} {p q : α → Bool} (h : ∀ a, p a = true → q a = false) (l : List α) :
    l.filter p ++ l.filter q = l.filter (fun a => p a || q a) ↔ l.Pairwise fun a b => q a = true → p b = false := by
  induction l with
  | nil => simp
  | cons a l ih =>
    rw [List.pairwise_cons]
    cases hp : p a with
    | true => simp [hp, h a hp, ih]
    | false =>
      cases hq : q a with
      | false => simp [hp, hq, ih]
      | true =>
        have hboth : (a :: l).filter (fun a => p a || q a) = a :: l.filter (fun a => p a || q a) :=
          List.filter_cons_of_pos (by simp [hq])
        rw [List.filter_cons_of_neg (Bool.eq_false_iff.mp hp), List.filter_cons_of_pos hq, hboth]
        -- The head is of the second kind: the lists start alike only if none of the first kind is left to stand before it.
        cases hfront : l.filter p with
        | nil =>
          have hnone : ∀ b ∈ l, p b = false := fun b hb => Bool.eq_false_iff.mpr (List.filter_eq_nil_iff.mp hfront b hb)
          rw [hfront, List.nil_append] at ih
          rw [List.nil_append, List.cons.injEq, ih]
          exact ⟨fun h => ⟨fun b hb _ => hnone b hb, h.2⟩, fun h => ⟨rfl, h.2⟩⟩
        | cons b rest =>
          have hb : b ∈ l ∧ p b = true := List.mem_filter.mp (hfront ▸ List.mem_cons_self ..)
          constructor
          · intro e
            rw [← (List.cons.inj e).1, hb.2] at hp
            cases hp
          · intro hl
            have hb' := hl.1 b hb.1 rfl
            rw [hb.2] at hb'
            cases hb'

/-- The order of the sort options is kept just where no `--order-by` follows an `--order-by-desc`. -/
theorem grouped_eq_iff (args : List Argument) : groupedOptions args = sortOptions args ↔
    args.Pairwise fun a b => isNamed "order-by-desc" a = true → isNamed "order-by" b = false := by
  refine filter_append_filter_iff (fun a ha => ?_) args
  cases a with
  | option n value =>
    have hn : n = "order-by" := beq_iff_eq.mp ha
    subst hn
    rfl
  | _ => rfl

/-! ## Requests -/

/-- A request asks for the query of its text, if it has one, with the bindings it lists. -/
def Asked (r : CompileRequest) (query : Option Query) : Prop :=
  ∃ bindings, List.Forall₂ Binds r.bindings bindings ∧ match r.predicate with
    | none => query = none
    | some text => ∃ setting q, Setting.Known r.parameter bindings setting ∧ Query.ofText setting text = .ok q ∧
        query = some q

/-- The table a request names, the root type of the schema if it names none. -/
def tableOf (r : CompileRequest) (schema : Schema) : Table := ⟨r.table.getD schema.root, r.tableSchema⟩

/-- What the library compiles for a request with these sort keys. -/
def Compiles (r : CompileRequest) (keys : List SortKey) (text : String) (c : Compiled) : Prop :=
  ∃ schema query, Schema.ofText text = .ok schema ∧ Asked r query ∧
    checkTableName (r.table.getD schema.root) = .ok () ∧ (∀ s ∈ r.tableSchema, checkTableName s = .ok ()) ∧
    (if r.count then Statement.count schema r.dialect (tableOf r schema) query
      else Statement.select schema r.dialect (tableOf r schema) query ⟨keys⟩ r.page) = .ok c

theorem bindings_eq_ok {specs : List String} {bindings : List (String × Value)} :
    specs.mapM binding = .ok bindings ↔ List.Forall₂ Binds specs bindings := by
  rw [Except.mapM_forall₂]
  simp only [binding_eq_ok]

theorem query_eq_ok {r : CompileRequest} {q : Option Query} : query r = .ok q ↔ Asked r q := by
  unfold query Asked
  constructor
  · intro h
    obtain ⟨bindings, hbindings, h⟩ := Except.bind_eq_ok.mp h
    refine ⟨bindings, bindings_eq_ok.mp hbindings, ?_⟩
    cases hpredicate : r.predicate with
    | none =>
      rw [hpredicate] at h
      exact (Except.ok.inj h).symm
    | some text =>
      rw [hpredicate] at h
      obtain ⟨q', hq', h⟩ := Except.bind_eq_ok.mp h
      exact ⟨_, q', Setting.known_reverse r.parameter bindings, orFault_eq_ok.mp hq', (Except.ok.inj h).symm⟩
  · intro ⟨bindings, hbindings, h⟩
    refine Except.bind_eq_ok.mpr ⟨bindings, bindings_eq_ok.mpr hbindings, ?_⟩
    cases hpredicate : r.predicate with
    | none =>
      rw [hpredicate] at h
      exact congrArg Except.ok h.symm
    | some text =>
      rw [hpredicate] at h
      obtain ⟨setting, q', hknown, hq', hq⟩ := h
      -- The text may be read with any setting that knows the bindings, not just the one that is made of them.
      have hagree := (Setting.known_reverse r.parameter bindings).agree hknown
      refine Except.bind_eq_ok.mpr ⟨q', orFault_eq_ok.mpr ?_, congrArg Except.ok hq.symm⟩
      rw [Predicate.ofText_agree hagree, hq']

theorem table_eq_ok {name : String} {schema : Option String} {t : Table} : table name schema = .ok t ↔
    checkTableName name = .ok () ∧ (∀ s ∈ schema, checkTableName s = .ok ()) ∧ t = ⟨name, schema⟩ := by
  unfold table Table.named
  cases schema with
  | none =>
    cases checkTableName name with
    | error e => simp [bind, Except.bind]
    | ok u => simp [bind, Except.bind, pure, Except.pure, eq_comm]
  | some s =>
    unfold Table.inSchema
    cases checkTableName name with
    | error e => simp [bind, Except.bind]
    | ok u =>
      cases hs : checkTableName s with
      | error e => simp [bind, Except.bind, pure, Except.pure, hs]
      | ok u => simp [bind, Except.bind, pure, Except.pure, hs, eq_comm]

theorem keys_eq_ok {specs : List String} {keys : List SortKey} : specs.mapM sortKey = .ok keys ↔
    List.Forall₂ Sorts (specs.map (.option "order-by")) keys := by
  rw [Except.mapM_forall₂, List.forall₂_map_left_iff]
  simp only [sorts_keyed]

theorem descending_eq_ok {fields : List String} {keys : List SortKey} :
    (fields.mapM fun field => orFault (SortKey.checked field .descending)) = .ok keys ↔
      List.Forall₂ Sorts (fields.map (.option "order-by-desc")) keys := by
  rw [Except.mapM_forall₂, List.forall₂_map_left_iff]
  simp only [sorts_descending]

theorem forall₂_append_left {α β : Type} {R : α → β → Prop} {l more : List α} {out : List β}
    (h : List.Forall₂ R (l ++ more) out) :
    ∃ k rest, List.Forall₂ R l k ∧ List.Forall₂ R more rest ∧ out = k ++ rest := by
  induction l generalizing out with
  | nil => exact ⟨[], out, .nil, h, rfl⟩
  | cons a l ih =>
    obtain ⟨b, out, hb, hout, rfl⟩ := List.forall₂_cons_left_iff.mp h
    obtain ⟨k, rest, hk, hrest, rfl⟩ := ih hout
    exact ⟨b :: k, rest, .cons hb hk, hrest, rfl⟩

section
variable {args : List Argument} {r : CompileRequest} (h : Given args r)
include h

theorem sorting_eq_ok {s : Sorting} : sorting r = .ok s ↔ List.Forall₂ Sorts (groupedOptions args) s.keys := by
  unfold sorting groupedOptions
  rw [filter_isNamed, filter_isNamed, ← h.orderBy, ← h.orderByDescending]
  constructor
  · intro hs
    obtain ⟨keys, hkeys, hs⟩ := Except.bind_eq_ok.mp hs
    obtain ⟨descending, hdescending, hs⟩ := Except.bind_eq_ok.mp hs
    cases hs
    exact List.rel_append (keys_eq_ok.mp hkeys) (descending_eq_ok.mp hdescending)
  · intro hall
    obtain ⟨keys, descending, hkeys, hdescending, hsplit⟩ := forall₂_append_left hall
    refine Except.bind_eq_ok.mpr ⟨keys, keys_eq_ok.mpr hkeys, ?_⟩
    refine Except.bind_eq_ok.mpr ⟨descending, descending_eq_ok.mpr hdescending, ?_⟩
    rw [← hsplit]
    rfl

theorem compiled_eq_ok {text : String} {c : Compiled} : compiled r text = .ok c ↔
    ∃ keys, List.Forall₂ Sorts (groupedOptions args) keys ∧ Compiles r keys text c := by
  unfold compiled
  constructor
  · intro hc
    obtain ⟨schema, hschema, hc⟩ := Except.bind_eq_ok.mp hc
    obtain ⟨query, hquery, hc⟩ := Except.bind_eq_ok.mp hc
    obtain ⟨sorting, hsorting, hc⟩ := Except.bind_eq_ok.mp hc
    obtain ⟨table, htable, hc⟩ := Except.bind_eq_ok.mp hc
    obtain ⟨hname, hqualifier, rfl⟩ := table_eq_ok.mp (orFault_eq_ok.mp htable)
    exact ⟨sorting.keys, (sorting_eq_ok h).mp hsorting, schema, query, orFault_eq_ok.mp hschema,
      query_eq_ok.mp hquery, hname, hqualifier, orFault_eq_ok.mp hc⟩
  · intro ⟨keys, hkeys, schema, query, hschema, hquery, hname, hqualifier, hc⟩
    refine Except.bind_eq_ok.mpr ⟨schema, orFault_eq_ok.mpr hschema, ?_⟩
    refine Except.bind_eq_ok.mpr ⟨query, query_eq_ok.mpr hquery, ?_⟩
    refine Except.bind_eq_ok.mpr ⟨⟨keys⟩, (sorting_eq_ok h).mpr hkeys, ?_⟩
    refine Except.bind_eq_ok.mpr ⟨tableOf r schema, orFault_eq_ok.mpr (table_eq_ok.mpr ⟨hname, hqualifier, rfl⟩), ?_⟩
    exact orFault_eq_ok.mpr hc

end

/-- A statement and below it its parameters in order, a line each. -/
def plainText (d : Dialect) (c : Compiled) : String :=
  c.text ++ "\n" ++ String.join (c.numbered.map (parameterLine d))

/-- A command to compile prints what the library compiles for its options, and fails where that fails. The sort keys
are taken in groups, which is the order of the command line just where no `--order-by` follows an `--order-by-desc`. -/
theorem printed_as_compiled {words : List String} {r : CompileRequest}
    (h : ofWords? ("compile" :: words) = some (.compile r)) (hplain : r.json = false) :
    ∃ args, Spelled compileVocabulary args words ∧ Given args r ∧
      (∀ text out, answer (.compile r) (some text) = .ok out ↔
        ∃ keys c, List.Forall₂ Sorts (groupedOptions args) keys ∧ Compiles r keys text c ∧
          out = plainText r.dialect c) ∧
      (∀ text, (∀ keys c, List.Forall₂ Sorts (groupedOptions args) keys → ¬ Compiles r keys text c) →
        ∃ fault, answer (.compile r) (some text) = .error fault) ∧
      (groupedOptions args = sortOptions args ↔
        args.Pairwise fun a b => isNamed "order-by-desc" a = true → isNamed "order-by" b = false) := by
  obtain ⟨args, r', hspelled, hgiven, hr⟩ := ofWords?_compile_iff.mp h
  cases hr
  have hanswer : ∀ text out, answer (.compile r) (some text) = .ok out ↔
      ∃ keys c, List.Forall₂ Sorts (groupedOptions args) keys ∧ Compiles r keys text c ∧
        out = plainText r.dialect c := by
    intro text out
    have hprinted : ∀ c, printed r c = plainText r.dialect c := fun c => by
      rw [printed, hplain]
      rfl
    constructor
    · intro hout
      obtain ⟨c, hc, hprint⟩ := Except.map_eq_ok.mp hout
      obtain ⟨keys, hkeys, hcompiles⟩ := (compiled_eq_ok hgiven).mp hc
      exact ⟨keys, c, hkeys, hcompiles, by rw [← hprint, hprinted]⟩
    · intro ⟨keys, c, hkeys, hcompiles, hout⟩
      have hc := (compiled_eq_ok hgiven).mpr ⟨keys, hkeys, hcompiles⟩
      exact Except.map_eq_ok.mpr ⟨c, hc, by rw [hout, hprinted]⟩
  refine ⟨args, hspelled, hgiven, hanswer, fun text hnone => ?_, grouped_eq_iff args⟩
  cases hout : answer (.compile r) (some text) with
  | ok out =>
    obtain ⟨keys, c, hkeys, hcompiles, -⟩ := (hanswer text out).mp hout
    exact absurd hcompiles (hnone keys c hkeys)
  | error fault => exact ⟨fault, rfl⟩

def postsText : String :=
  "\x7b\"root\": \"Post\", \"types\": \x7b\"Post\": \x7b\"Title\": \"string\", \"Rank\": \"int\"\x7d\x7d\x7d"

def postsSchema : Schema := ⟨"Post", [⟨"Post", [⟨"Rank", .scalar .int⟩, ⟨"Title", .scalar .string⟩]⟩]⟩

/-- A name bound twice and keys of both kinds, those that name their direction first. -/
def highRanks : List String :=
  ["--schema=posts.json", "--dialect", "postgres", "--bind", "low=2", "--where", "p => p.Rank > :low",
    "--bind", "low = 3", "--order-by", "Title:Desc", "--order-by-desc", "_id", "--take", "10"]

def highRanksRequest : CompileRequest :=
  ⟨"posts.json", .postgres, none, none, some "p => p.Rank > :low", none, ["Title:Desc"], ["_id"], ⟨0, some 10⟩, false,
    ["low=2", "low = 3"], false⟩

def highRanksText : String :=
  "SELECT _doc._id, _doc._document\nFROM \"Post\" _doc\nWHERE ((_doc._document #>> '\x7bRank\x7d')::integer > $1)\n" ++
    "ORDER BY _doc._document #>> '\x7bTitle\x7d' DESC, _doc._id DESC\nLIMIT 10\n-- $1 = 3\n"

/-- The later binding counts, and the keys keep their order. -/
theorem highRanks_printed : ofWords? ("compile" :: highRanks) = some (.compile highRanksRequest) ∧
    ∃ args keys c, Spelled compileVocabulary args highRanks ∧ List.Forall₂ Sorts (sortOptions args) keys ∧
      Compiles highRanksRequest keys postsText c ∧ plainText .postgres c = highRanksText := by
  have hwords : ofWords? ("compile" :: highRanks) = some (.compile highRanksRequest) := by decide +kernel
  have hprinted : answer (.compile highRanksRequest) (some postsText) = .ok highRanksText := by decide +kernel
  obtain ⟨args, hspelled, -, hanswer, -, horder⟩ := printed_as_compiled hwords rfl
  have hkept : ((read? compileVocabulary highRanks).getD []).Pairwise fun a b =>
      isNamed "order-by-desc" a = true → isNamed "order-by" b = false := by decide +kernel
  rw [(read?_iff compileVocabulary_sound).mpr hspelled] at hkept
  obtain ⟨keys, c, hkeys, hcompiles, hout⟩ := (hanswer postsText _).mp hprinted
  rw [horder.mpr hkept] at hkeys
  exact ⟨hwords, args, keys, c, hspelled, hkeys, hcompiles, hout.symm⟩

/-- A key of each kind, the one that only descends first. -/
def ranksThenTitles : List String :=
  ["--schema", "posts.json", "--order-by-desc", "Rank", "--order-by", "Title"]

def ranksThenTitlesRequest : CompileRequest :=
  ⟨"posts.json", .sqlite, none, none, none, none, ["Title"], ["Rank"], .all, false, [], false⟩

def ranksThenTitlesText : String :=
  "SELECT _doc._id, _doc._document\nFROM \"Post\" _doc\n" ++
    "ORDER BY CAST(json_extract(_doc._document, '$.Rank') AS INTEGER) DESC, " ++
    "json_extract(_doc._document, '$.Title') ASC\n"

/-- The key that comes first on the command line is printed last. -/
theorem first_key_demoted : ofWords? ("compile" :: ranksThenTitles) = some (.compile ranksThenTitlesRequest) ∧
    ∃ args keys c, Spelled compileVocabulary args ranksThenTitles ∧ List.Forall₂ Sorts (sortOptions args) keys ∧
      Compiles ranksThenTitlesRequest keys postsText c ∧ plainText .sqlite c = ranksThenTitlesText ∧
      answer (.compile ranksThenTitlesRequest) (some postsText) ≠ .ok ranksThenTitlesText := by
  have hwords : ofWords? ("compile" :: ranksThenTitles) = some (.compile ranksThenTitlesRequest) := by decide +kernel
  have hspelled : Spelled compileVocabulary
      [.option "schema" "posts.json", .option "order-by-desc" "Rank", .option "order-by" "Title"] ranksThenTitles :=
    (read?_iff compileVocabulary_sound).mp (by decide +kernel)
  have hsorts : List.Forall₂ Sorts [.option "order-by-desc" "Rank", .option "order-by" "Title"]
      [⟨"Rank", .descending⟩, ⟨"Title", .ascending⟩] :=
    .cons (.descending (by decide)) (.cons (.keyed (.bare (by decide)) (by decide)) .nil)
  have hselect : (Statement.select postsSchema .sqlite (tableOf ranksThenTitlesRequest postsSchema) none
      ⟨[⟨"Rank", .descending⟩, ⟨"Title", .ascending⟩]⟩ .all).map (plainText .sqlite) = .ok ranksThenTitlesText := by
    decide +kernel
  obtain ⟨c, hc, hout⟩ := Except.map_eq_ok.mp hselect
  have hcompiles : Compiles ranksThenTitlesRequest [⟨"Rank", .descending⟩, ⟨"Title", .ascending⟩] postsText c :=
    ⟨postsSchema, none, by decide +kernel, ⟨[], .nil, rfl⟩, by decide, nofun, hc⟩
  exact ⟨hwords, _, _, c, hspelled, hsorts, hcompiles, hout, by decide +kernel⟩

end DocQuery.CommandLine
