import HistoryGuard.CommandLine.Arguments

/-! # Options with their values

What a command line comes to that has options with values, then a check. A value may be in one
argument with its option, and then it is any text at all. In an argument of its own it has to be a
word.
-/

namespace HistoryGuard.CommandLine

open Arguments (textOf)

/-- A spelling of an option that takes a value. -/
structure Spelling where
  parameter : Parameter
  text : String
  listed : (text, parameter) ∈ Parameter.table Parameter.main
  valued : parameter ≠ .help

/-- An argument that is neither an option nor the double dash. -/
structure Word where
  text : String
  plain : text ≠ "--"
  kind : Item.classify Parameter.main text = .ok .word

inductive Given
  /-- The value follows an equals sign. -/
  | joined (name : Spelling) (value : String)
  /-- The value is the next argument. -/
  | separate (name : Spelling) (value : Word)

namespace Given

def parameter : Given → Parameter
  | joined name _ | separate name _ => name.parameter

def value : Given → String
  | joined _ value => value
  | separate _ value => value.text

def args : Given → List String
  | joined name value => [name.text ++ "=" ++ value]
  | separate name value => [name.text, value.text]

def items : Given → List Item
  | joined name value =>
    [⟨name.text ++ "=" ++ value,
      .option name.parameter (Item.attachedAfter name.text.toList value.toList)⟩]
  | separate name value => [⟨name.text, .option name.parameter .none⟩, ⟨value.text, .word⟩]

def values (p : Parameter) (options : List Given) : List String :=
  (options.filter (·.parameter = p)).map value

theorem values_cons (p : Parameter) (o : Given) (options : List Given) :
    values p (o :: options) =
      if o.parameter = p then o.value :: values p options else values p options := by
  by_cases h : o.parameter = p <;> simp [values, h]

end Given

/-- What the options come to before a check. -/
def requested (options : List Given) (commit : String) : Arguments where
  location := ((Given.values .location options).getLast?.map .path).getD .current
  patterns := (Given.values .pattern options).map textOf
  logLevel := (Given.values .logLevel options).getLast?.bind textOf
  request := .check commit

section Classify

namespace Spelling

variable (s : Spelling)

theorem lookup_text : (Parameter.table Parameter.main).lookup s.text = some s.parameter := by
  have distinct : ∀ e ∈ Parameter.table Parameter.main,
      (Parameter.table Parameter.main).lookup e.1 = some e.2 := by
    decide
  exact distinct _ s.listed

theorem dashed : ∃ c cs, s.text.toList = '-' :: c :: cs := by
  have all : ∀ e ∈ Parameter.table Parameter.main, ∃ c cs, e.1.toList = '-' :: c :: cs := by
    simp [Parameter.table, Parameter.main, Parameter.spellings]
  exact all _ s.listed

end Spelling

theorem equals_not_mem {e : String × Parameter} (h : e ∈ Parameter.table Parameter.main) :
    '=' ∉ e.1.toList := by
  revert e
  decide

theorem lookup_of_equals {arg : String} (h : '=' ∈ arg.toList) :
    (Parameter.table Parameter.main).lookup arg = none := by
  rw [List.lookup_eq_none_iff]
  intro e he
  rw [bne_iff_ne]
  rintro rfl
  exact equals_not_mem he h

theorem cutAtEquals_append {name : List Char} (value : List Char) (h : '=' ∉ name) :
    Item.cutAtEquals (name ++ '=' :: value) = (name, some value) := by
  have differ : ∀ c ∈ name, (c != '=') = true := by
    intro c hc
    rw [bne_iff_ne]
    rintro rfl
    exact h hc
  simp [Item.cutAtEquals, List.takeWhile_append_of_pos differ, List.dropWhile_append_of_pos differ]

theorem classify_spelling (s : Spelling) :
    Item.classify Parameter.main s.text = .ok (.option s.parameter .none) := by
  obtain ⟨c, cs, dashed⟩ := s.dashed
  simp [Item.classify, dashed, Item.fullSpelling?, s.lookup_text]

theorem classify_joined (s : Spelling) (value : String) :
    Item.classify Parameter.main (s.text ++ "=" ++ value) =
      .ok (.option s.parameter (Item.attachedAfter s.text.toList value.toList)) := by
  have text : (s.text ++ "=" ++ value).toList = s.text.toList ++ '=' :: value.toList := by simp
  have unlisted : (Parameter.table Parameter.main).lookup (s.text ++ "=" ++ value) = none :=
    lookup_of_equals (by simp [text])
  have full : Item.fullSpelling? Parameter.main (s.text ++ "=" ++ value) =
      some (.option s.parameter (Item.attachedAfter s.text.toList value.toList)) := by
    rw [Item.fullSpelling?, unlisted, text, cutAtEquals_append _ (equals_not_mem s.listed)]
    simp [s.lookup_text]
  obtain ⟨c, cs, dashed⟩ := s.dashed
  simp [Item.classify, text, dashed, full]

section Fewer

variable {ps qs : List Parameter} {arg : String}

theorem lookup_of_subset {name : String} (fewer : Parameter.table qs ⊆ Parameter.table ps)
    (h : (Parameter.table ps).lookup name = none) : (Parameter.table qs).lookup name = none := by
  rw [List.lookup_eq_none_iff] at h ⊢
  intro e he
  exact h e (fewer he)

theorem fullSpelling?_of_subset (fewer : Parameter.table qs ⊆ Parameter.table ps)
    (h : Item.fullSpelling? ps arg = none) : Item.fullSpelling? qs arg = none := by
  unfold Item.fullSpelling? at h ⊢
  cases hl : (Parameter.table ps).lookup arg with
  | some p => simp [hl] at h
  | none =>
    rcases hc : Item.cutAtEquals arg.toList with ⟨name, _ | value⟩
    · simp [lookup_of_subset fewer hl]
    · simp only [hl, hc, Option.map_eq_none_iff] at h
      simp [lookup_of_subset fewer hl, lookup_of_subset fewer h]

theorem candidates_of_subset {s : List Char} (fewer : Parameter.table qs ⊆ Parameter.table ps)
    (h : Item.candidates ps s = []) : Item.candidates qs s = [] := by
  unfold Item.candidates at h ⊢
  split at h
  · simp only [List.map_eq_nil_iff, List.filter_eq_nil_iff] at h ⊢
    exact fun e he => h e (fewer he)
  · simp only [List.map_eq_nil_iff, List.filter_eq_nil_iff] at h ⊢
    exact fun e he => h e (fewer he)
  · rfl

theorem fullSpelling?_ne_word : Item.fullSpelling? ps arg ≠ some .word := by
  unfold Item.fullSpelling?
  split <;> simp

theorem kind_ne_word {s : List Char} {e : String × ItemKind} (h : e ∈ Item.candidates ps s) :
    e.2 ≠ .word := by
  unfold Item.candidates at h
  split at h
  · obtain ⟨_, -, rfl⟩ := List.mem_map.mp h
    simp
  · obtain ⟨_, -, rfl⟩ := List.mem_map.mp h
    simp
  · cases h

theorem candidates_of_word (h : Item.classifyShortened ps arg = .ok .word) :
    Item.candidates ps arg.toList = [] := by
  unfold Item.classifyShortened at h
  split at h
  · next e he =>
    have listed : e ∈ Item.candidates ps arg.toList := by simp [he]
    exact absurd (Except.ok.inj h) (kind_ne_word listed)
  · next he => exact he
  · cases h

/-- A word stays a word where fewer options are known, as they are after a subcommand. -/
theorem classify_word_of_subset (fewer : Parameter.table qs ⊆ Parameter.table ps)
    (h : Item.classify ps arg = .ok .word) : Item.classify qs arg = .ok .word := by
  unfold Item.classify at h ⊢
  split at h
  · split at h
    · next kind hk =>
      -- a full spelling is an option
      obtain rfl := Except.ok.inj h
      exact absurd hk fullSpelling?_ne_word
    · next hk =>
      have none := candidates_of_word h
      rw [fullSpelling?_of_subset fewer hk]
      simpa [Item.classifyShortened, none, candidates_of_subset fewer none] using h
  · rfl

end Fewer

end Classify

section Read

variable {arg : String} {args : List String}

theorem readAll_cons {ps : List Parameter} {kind : ItemKind} (plain : arg ≠ "--")
    (h : Item.classify ps arg = .ok kind) :
    Item.readAll ps (arg :: args) = (Item.readAll ps args).map (⟨arg, kind⟩ :: ·) := by
  rw [Item.readAll, if_neg plain, h]
  cases Item.readAll ps args <;> rfl

theorem readAll_given (o : Given) :
    Item.readAll Parameter.main (o.args ++ args) =
      (Item.readAll Parameter.main args).map (o.items ++ ·) := by
  cases o with
  | joined name value =>
    have plain : name.text ++ "=" ++ value ≠ "--" := by
      intro same
      have equals : '=' ∈ (name.text ++ "=" ++ value).toList := by simp
      simp [same] at equals
    exact readAll_cons plain (classify_joined name value)
  | separate name value =>
    have plain : name.text ≠ "--" := by
      have all : ∀ e ∈ Parameter.table Parameter.main, e.1 ≠ "--" := by decide
      exact all _ name.listed
    have first : Item.readAll Parameter.main (name.text :: value.text :: args) = _ :=
      readAll_cons plain (classify_spelling name)
    apply first.trans
    rw [readAll_cons value.plain value.kind]
    cases Item.readAll Parameter.main args <;> rfl

/-- Each option is read by itself, because no value in an argument of its own looks like one. -/
theorem readAll_options (options : List Given) :
    Item.readAll Parameter.main (options.flatMap Given.args ++ args) =
      (Item.readAll Parameter.main args).map (options.flatMap Given.items ++ ·) := by
  induction options with
  | nil => cases h : Item.readAll Parameter.main args <;> simp [h, Except.map]
  | cons o options ih =>
    rw [List.flatMap_cons, List.append_assoc, readAll_given, ih]
    cases Item.readAll Parameter.main args <;> simp [Except.map]

theorem readAll_check (commit : Word) :
    Item.readAll Parameter.main ["check", commit.text] =
      .ok [⟨"check", .word⟩, ⟨commit.text, .word⟩] := by
  have word : Item.classify Parameter.main "check" = .ok .word := rfl
  rw [readAll_cons (by decide) word, readAll_cons commit.plain commit.kind]
  rfl

end Read

section Note

theorem read_value {a : Arguments} {extras : List String} {rest : List Item} {p : Parameter}
    (valued : p ≠ .help) (text : String) (name value : List Char) :
    Arguments.read a extras (⟨text, .option p (Item.attachedAfter name value)⟩ :: rest) =
      Arguments.read (a.note p (textOf (String.ofList value))) extras rest := by
  unfold Item.attachedAfter
  cases p with
  | help => exact absurd rfl valued
  | _ => split <;> simp [Arguments.read]

namespace Given

def note (a : Arguments) (o : Given) : Arguments := a.note o.parameter (textOf o.value)

theorem read_items (o : Given) (a : Arguments) (extras : List String) (rest : List Item) :
    Arguments.read a extras (o.items ++ rest) = Arguments.read (note a o) extras rest := by
  cases o with
  | joined name value =>
    apply (read_value name.valued _ _ _).trans
    simp [note, parameter, Given.value]
  | separate name value =>
    obtain ⟨p, text, -, valued⟩ := name
    cases p with
    | help => exact absurd rfl valued
    | _ => simp [items, Arguments.read, Item.isWord, note, parameter, Given.value]

theorem read_options (options : List Given) (a : Arguments) (extras : List String)
    (rest : List Item) :
    Arguments.read a extras (options.flatMap items ++ rest) =
      Arguments.read (options.foldl note a) extras rest := by
  induction options generalizing a with
  | nil => rfl
  | cons o options ih => rw [List.flatMap_cons, List.append_assoc, read_items, ih, List.foldl_cons]

theorem foldl_note {options : List Given} (a : Arguments)
    (placed : ∀ o ∈ options, o.parameter = .location → o.value ≠ "--") :
    options.foldl note a = { a with
      location := ((values .location options).getLast?.map .path).getD a.location
      patterns := a.patterns ++ (values .pattern options).map textOf
      logLevel := ((values .logLevel options).getLast?.map textOf).getD a.logLevel } := by
  induction options generalizing a with
  | nil => simp [values]
  | cons o options ih =>
    obtain ⟨first, later⟩ := List.forall_mem_cons.mp placed
    rw [List.foldl_cons, ih _ later, note]
    cases hp : o.parameter with
    | help => simp [values_cons, hp, Arguments.note]
    | location =>
      -- a double dash would leave the place without a text
      have text : textOf o.value = some o.value := if_neg (first hp)
      simp [values_cons, hp, Arguments.note, text, List.getLast?_cons, Option.getD_map]
    | pattern => simp [values_cons, hp, Arguments.note]
    | logLevel =>
      simp [values_cons, hp, Arguments.note, List.getLast?_cons, Option.getD_map]

end Given

theorem read_check {a : Arguments} (commit : Word) :
    Arguments.read a [] [⟨"check", .word⟩, ⟨commit.text, .word⟩] =
      .ok ({ a with request := .check commit.text }, []) := by
  have fewer : Parameter.table Parameter.sub ⊆ Parameter.table Parameter.main := by decide
  have items : Item.readAll Parameter.sub [commit.text] = .ok [⟨commit.text, .word⟩] := by
    rw [readAll_cons commit.plain (classify_word_of_subset fewer commit.kind)]
    rfl
  have tail : Tail.ofArguments .check [commit.text] = .ok ⟨some commit.text, []⟩ := by
    rw [Tail.ofArguments, items]
    rfl
  have request : readRequest "check" [commit.text] = .ok (.check commit.text, []) := by
    rw [readRequest, if_neg (by decide), if_pos rfl, tail]
    rfl
  simp only [Arguments.read, List.map_cons, List.map_nil, request]
  rfl

/-- Options with their values and a check are read as they are meant. -/
theorem parse_options {options : List Given} (commit : Word)
    (placed : ∀ o ∈ options, o.parameter = .location → o.value ≠ "--") :
    Arguments.parse (options.flatMap Given.args ++ ["check", commit.text]) =
      .ok (requested options commit.text) := by
  have items : (Item.readAll Parameter.main (options.flatMap Given.args ++
      ["check", commit.text])).mapError (Halt.misuse .main) =
        .ok (options.flatMap Given.items ++ [⟨"check", .word⟩, ⟨commit.text, .word⟩]) := by
    rw [readAll_options, readAll_check]
    rfl
  have chosen : Arguments.read {} []
      (options.flatMap Given.items ++ [⟨"check", .word⟩, ⟨commit.text, .word⟩]) =
        .ok (requested options commit.text, []) := by
    rw [Given.read_options, read_check, Given.foldl_note _ placed, requested]
    cases (Given.values .logLevel options).getLast? <;> rfl
  simp only [Arguments.parse, items, bind, Except.bind, chosen]
  rfl

end Note

end HistoryGuard.CommandLine
