/-
  DocQuery.Proofs.CommandLine.Arguments — which command lines are accepted, and as what.

  Words are arguments when they can be spelled so: options with their values attached or in a word of their own,
  flags, and words that stand for themselves, all of them once a lone `--` has come. The reader takes exactly the
  spelled ones and keeps their order (`read?_iff`). A request takes each option for what it gives, nothing where it
  is absent, and lists the values of those that may come again (`ofWords?_compile_iff`).
-/

import Mathlib.Data.Option.Basic
import DocQuery.CommandLine.Request
import DocQuery.Proofs.Text.Cut

namespace DocQuery.CommandLine

/-! ## Words -/

/-- The names are written after dashes and before an equals sign, and tell options from flags. -/
structure Vocabulary.Sound (v : Vocabulary) : Prop where
  written : ∀ name ∈ v.options ++ v.flags, name ≠ "" ∧ '=' ∉ name.toList
  apart : ∀ name ∈ v.options, name ∉ v.flags

namespace Argument

/-- How arguments are spelled in the words of a command line. -/
inductive Spelled (v : Vocabulary) : List Argument → List String → Prop
  | nil : Spelled v [] []
  | rest (words : List String) : Spelled v (words.map .plain) ("--" :: words)
  | plain {word : String} {args : List Argument} {words : List String} :
      looksLikeOption word = false → Spelled v args words → Spelled v (.plain word :: args) (word :: words)
  | attached {name value : String} {args : List Argument} {words : List String} :
      name ∈ v.options → Spelled v args words →
        Spelled v (.option name value :: args) (("--" ++ name ++ "=" ++ value) :: words)
  | next {name value : String} {args : List Argument} {words : List String} :
      name ∈ v.options → looksLikeOption value = false → Spelled v args words →
        Spelled v (.option name value :: args) (("--" ++ name) :: value :: words)
  | flag {name : String} {args : List Argument} {words : List String} :
      name ∈ v.flags → Spelled v args words → Spelled v (.flag name :: args) (("--" ++ name) :: words)

/-- A name behind dashes, with a value attached or without. -/
def longWord (name : String) : Option String → String
  | none => "--" ++ name
  | some value => "--" ++ name ++ "=" ++ value

theorem toList_longWord (name : String) (value : Option String) :
    (longWord name value).toList = '-' :: '-' :: (name.toList ++ value.elim [] ('=' :: ·.toList)) := by
  cases value <;> simp [longWord]

theorem looksLikeOption_longWord (name : String) (value : Option String) :
    looksLikeOption (longWord name value) = true := by
  simp only [looksLikeOption, toList_longWord]

theorem longWord_ne_dashes {name : String} (h : name ≠ "") (value : Option String) : longWord name value ≠ "--" := by
  intro e
  have hlist := congrArg String.toList e
  rw [toList_longWord] at hlist
  have hnil := (List.append_eq_nil_iff.mp (List.cons.inj (List.cons.inj hlist).2).2).1
  exact h (String.toList_inj.mp hnil)

theorem long?_longWord {name : String} (h : '=' ∉ name.toList) (value : Option String) :
    long? (longWord name value) = some (name, value) := by
  unfold long?
  rw [toList_longWord]
  cases value with
  | none => simp [Text.takeWhile_unmarked h, Text.dropWhile_unmarked h]
  | some value => simp [Text.takeWhile_mark h, Text.dropWhile_mark h]

theorem long?_eq_some {word name : String} {value : Option String} (h : long? word = some (name, value)) :
    word = longWord name value := by
  unfold long? at h
  split at h
  · rename_i body hword
    rw [← String.toList_inj, hword, toList_longWord]
    by_cases hmark : '=' ∈ body
    · obtain ⟨front, back, rfl, hfront⟩ := List.eq_append_cons_of_mem hmark
      simp only [Text.takeWhile_mark hfront, Text.dropWhile_mark hfront, Option.some.injEq, Prod.mk.injEq] at h
      obtain ⟨rfl, rfl⟩ := h
      simp
    · simp only [Text.takeWhile_unmarked hmark, Text.dropWhile_unmarked hmark, Option.some.injEq, Prod.mk.injEq] at h
      obtain ⟨rfl, rfl⟩ := h
      simp
  · cases h

variable {v : Vocabulary} {args : List Argument} {words : List String}

theorem spelled_of_read? (h : read? v words = some args) : Spelled v args words := by
  fun_induction read? v words generalizing args with
  | case1 =>
    cases h
    exact .nil
  | case2 word rest hdashes =>
    cases h
    rw [beq_iff_eq.mp hdashes]
    exact .rest rest
  | case3 word rest _ hword ih =>
    obtain ⟨more, hmore, rfl⟩ := Option.map_eq_some_iff.mp h
    exact .plain (by simpa using hword) (ih hmore)
  | case5 word rest _ _ name value hlong hname ih =>
    obtain ⟨more, hmore, rfl⟩ := Option.map_eq_some_iff.mp h
    rw [long?_eq_some hlong]
    exact .attached (List.contains_iff_mem.mp hname) (ih hmore)
  | case7 word rest _ _ name hlong hname ih =>
    obtain ⟨more, hmore, rfl⟩ := Option.map_eq_some_iff.mp h
    rw [long?_eq_some hlong]
    exact .flag (List.contains_iff_mem.mp hname) (ih hmore)
  | case10 word _ _ name hlong _ hname value rest hvalue ih =>
    obtain ⟨more, hmore, rfl⟩ := Option.map_eq_some_iff.mp h
    rw [long?_eq_some hlong]
    exact .next (List.contains_iff_mem.mp (by simpa using hname)) (by simpa using hvalue) (ih hmore)
  -- What is left are the refusals.
  | case4 | case6 | case8 | case9 | case11 => cases h

/-! ### Steps of the reader -/

theorem read?_plain {word : String} (h : looksLikeOption word = false) (words : List String) :
    read? v (word :: words) = (read? v words).map (.plain word :: ·) := by
  have hne : word ≠ "--" := by
    intro e
    rw [e] at h
    cases h
  rw [read?]
  simp [hne, h]

section
variable {name : String} (hv : v.Sound)
include hv

theorem read?_attached (hname : name ∈ v.options) (value : String) (words : List String) :
    read? v (longWord name (some value) :: words) = (read? v words).map (.option name value :: ·) := by
  obtain ⟨hempty, hequals⟩ := hv.written name (List.mem_append_left _ hname)
  have hne := longWord_ne_dashes hempty (some value)
  rw [read?]
  simp [hne, looksLikeOption_longWord, long?_longWord hequals, hname]

theorem read?_flag (hname : name ∈ v.flags) (words : List String) :
    read? v (longWord name none :: words) = (read? v words).map (.flag name :: ·) := by
  obtain ⟨hempty, hequals⟩ := hv.written name (List.mem_append_right _ hname)
  have hne := longWord_ne_dashes hempty none
  rw [read?]
  simp [hne, looksLikeOption_longWord, long?_longWord hequals, hname]

theorem read?_next (hname : name ∈ v.options) {value : String} (hvalue : looksLikeOption value = false)
    (words : List String) :
    read? v (longWord name none :: value :: words) = (read? v words).map (.option name value :: ·) := by
  obtain ⟨hempty, hequals⟩ := hv.written name (List.mem_append_left _ hname)
  have hne := longWord_ne_dashes hempty none
  rw [read?]
  simp [hne, looksLikeOption_longWord, long?_longWord hequals, hname, hv.apart name hname, hvalue]

/-- What can be spelled is read, and read as what it spells. -/
theorem read?_iff : read? v words = some args ↔ Spelled v args words := by
  refine ⟨spelled_of_read?, fun h => ?_⟩
  induction h with
  | nil => rfl
  | rest words =>
    rw [read?]
    rfl
  | plain hword _ ih => rw [read?_plain hword, ih, Option.map_some]
  | attached hname _ ih =>
    refine (read?_attached hv hname _ _).trans ?_
    rw [ih, Option.map_some]
  | next hname hvalue _ ih =>
    refine (read?_next hv hname hvalue _).trans ?_
    rw [ih, Option.map_some]
  | flag hname _ ih =>
    refine (read?_flag hv hname _).trans ?_
    rw [ih, Option.map_some]

end

end Argument

/-! ## Requests -/

namespace Request

open Argument

/-- What an option gives: its one value as `f` reads it, or nothing where it is absent. -/
def Gives {α : Type} (f : String → Option α) (name : String) (args : List Argument) (given : Option α) : Prop :=
  (values name args).map f = given.toList.map some

theorem gives_iff {α : Type} {f : String → Option α} {name : String} {args : List Argument} {given : Option α} :
    (single? name args).bind (convert f) = some given ↔ Gives f name args given := by
  unfold single? Gives
  split
  · rename_i hnil
    cases given <;> simp [hnil, convert]
  · rename_i value hone
    cases given <;> simp [hone, convert]
  · -- Two values or more are none that is given, and none that is absent.
    rename_i hnil hone
    simp only [Option.bind_none, reduceCtorEq, false_iff]
    intro hmap
    cases given with
    | none => exact hnil (List.map_eq_nil_iff.mp hmap)
    | some a =>
      obtain ⟨value, hvalue, -⟩ := List.map_eq_singleton_iff.mp hmap
      exact hone value hvalue

theorem single?_iff {name : String} {args : List Argument} {given : Option String} :
    single? name args = some given ↔ Gives some name args given := by
  have hsome : (single? name args).bind (convert some) = single? name args := by
    cases single? name args with
    | none => rfl
    | some o => cases o <;> rfl
  rw [← gives_iff, hsome]

theorem given?_iff {name : String} {args : List Argument} {b : Bool} :
    given? name args = some b ↔ args.count (.flag name) = b.toNat := by
  unfold given?
  split
  · rename_i h
    cases b <;> simp [h]
  · rename_i h
    cases b <;> simp [h]
  · rename_i h h'
    cases b with
    | false => simpa using h
    | true => simpa using h'

/-- A request to compile has from its arguments what they give. -/
structure Given (args : List Argument) (r : CompileRequest) : Prop where
  plain : ∀ value, .plain value ∉ args
  schema : Gives path? "schema" args (some r.schema)
  dialect : ∃ d, Gives Dialect.ofOption? "dialect" args d ∧ r.dialect = d.getD .sqlite
  table : Gives some "table" args r.table
  tableSchema : Gives some "table-schema" args r.tableSchema
  predicate : Gives some "where" args r.predicate
  parameter : Gives some "param" args r.parameter
  orderBy : r.orderBy = values "order-by" args
  orderByDescending : r.orderByDescending = values "order-by-desc" args
  skip : ∃ n, Gives Decimal.unsigned64? "skip" args n ∧ r.page.skip = n.getD 0
  take : Gives Decimal.unsigned64? "take" args r.page.take
  count : args.count (.flag "count") = r.count.toNat
  bindings : r.bindings = values "bind" args
  json : args.count (.flag "json") = r.json.toNat

section
variable {α β : Type} {name : String} {args : List Argument} {b : β}

theorem convert_bind {f : String → Option α} {k : Option α → Option β} :
    ((single? name args).bind fun given => (convert f given).bind k) = some b ↔
      ∃ given, Gives f name args given ∧ k given = some b := by
  rw [← Option.bind_assoc, Option.bind_eq_some_iff]
  simp only [gives_iff]

theorem single?_bind {k : Option String → Option β} :
    (single? name args).bind k = some b ↔ ∃ given, Gives some name args given ∧ k given = some b := by
  rw [Option.bind_eq_some_iff]
  simp only [single?_iff]

theorem given?_bind {k : Bool → Option β} :
    (given? name args).bind k = some b ↔ ∃ given, args.count (.flag name) = given.toNat ∧ k given = some b := by
  rw [Option.bind_eq_some_iff]
  simp only [given?_iff]

end

theorem plains_isEmpty {args : List Argument} : (plains args).isEmpty = true ↔ ∀ value, .plain value ∉ args := by
  rw [List.isEmpty_iff, plains, List.filterMap_eq_nil_iff]
  constructor
  · intro h value hm
    cases h _ hm
  · intro h a ha
    cases a with
    | plain value => exact absurd ha (h value)
    | _ => rfl

theorem compileOf?_iff {args : List Argument} {r : CompileRequest} : compileOf? args = some r ↔ Given args r := by
  unfold compileOf?
  constructor
  · intro h
    obtain ⟨_, hplain, h⟩ := Option.bind_eq_some_iff.mp h
    obtain ⟨schema?, hschema, h⟩ := convert_bind.mp h
    obtain ⟨dialect, hdialect, h⟩ := convert_bind.mp h
    obtain ⟨skip, hskip, h⟩ := convert_bind.mp h
    obtain ⟨take, htake, h⟩ := convert_bind.mp h
    obtain ⟨schema, rfl, h⟩ := Option.bind_eq_some_iff.mp h
    obtain ⟨table, htable, h⟩ := single?_bind.mp h
    obtain ⟨tableSchema, htableSchema, h⟩ := single?_bind.mp h
    obtain ⟨predicate, hpredicate, h⟩ := single?_bind.mp h
    obtain ⟨parameter, hparameter, h⟩ := single?_bind.mp h
    obtain ⟨count, hcount, h⟩ := given?_bind.mp h
    obtain ⟨json, hjson, h⟩ := given?_bind.mp h
    have hempty : (plains args).isEmpty = true := by
      by_contra hne
      rw [guard, if_neg hne] at hplain
      cases hplain
    cases h
    exact {
      plain := plains_isEmpty.mp hempty
      schema := hschema
      dialect := ⟨dialect, hdialect, rfl⟩
      table := htable
      tableSchema := htableSchema
      predicate := hpredicate
      parameter := hparameter
      orderBy := rfl
      orderByDescending := rfl
      skip := ⟨skip, hskip, rfl⟩
      take := htake
      count := hcount
      bindings := rfl
      json := hjson }
  · intro h
    obtain ⟨dialect, hdialect, hdialectValue⟩ := h.dialect
    obtain ⟨skip, hskip, hskipValue⟩ := h.skip
    rw [guard, if_pos (plains_isEmpty.mpr h.plain)]
    refine convert_bind.mpr ⟨_, h.schema, ?_⟩
    refine convert_bind.mpr ⟨_, hdialect, ?_⟩
    refine convert_bind.mpr ⟨_, hskip, ?_⟩
    refine convert_bind.mpr ⟨_, h.take, ?_⟩
    refine single?_bind.mpr ⟨_, h.table, ?_⟩
    refine single?_bind.mpr ⟨_, h.tableSchema, ?_⟩
    refine single?_bind.mpr ⟨_, h.predicate, ?_⟩
    refine single?_bind.mpr ⟨_, h.parameter, ?_⟩
    refine given?_bind.mpr ⟨_, h.count, ?_⟩
    refine given?_bind.mpr ⟨_, h.json, ?_⟩
    rw [← hdialectValue, ← hskipValue, ← h.orderBy, ← h.orderByDescending, ← h.bindings]
    rfl

theorem compileVocabulary_sound : compileVocabulary.Sound where
  written := by decide
  apart := by decide

/-- The words after `compile` make a request when they spell arguments that give one. -/
theorem ofWords?_compile_iff {words : List String} {q : Request} : ofWords? ("compile" :: words) = some q ↔
    ∃ args r, Spelled compileVocabulary args words ∧ Given args r ∧ q = .compile r := by
  have hwords : ofWords? ("compile" :: words) =
      (read? compileVocabulary words).bind fun args => (compileOf? args).bind fun r => some (.compile r) := rfl
  rw [hwords, Option.bind_eq_some_iff]
  constructor
  · intro ⟨args, hargs, h⟩
    obtain ⟨r, hr, hq⟩ := Option.bind_eq_some_iff.mp h
    exact ⟨args, r, (read?_iff compileVocabulary_sound).mp hargs, compileOf?_iff.mp hr, (Option.some.inj hq).symm⟩
  · intro ⟨args, r, hargs, hr, hq⟩
    exact ⟨args, (read?_iff compileVocabulary_sound).mpr hargs,
      Option.bind_eq_some_iff.mpr ⟨r, compileOf?_iff.mpr hr, congrArg some hq.symm⟩⟩

end Request

end DocQuery.CommandLine
