import HistoryGuard.Proofs.Settings.Patterns

/-! # Layers of settings

The patterns and the flag of a protection are layered each by itself: what the environment holds
lies over what the store holds, and the default lies below both. A layer holds patterns if one of
its pieces says something, and it holds a flag if it is there at all.
-/

namespace HistoryGuard.Protection

open Text

inductive Listing : Value → Prop
  | null : Listing .null
  | text (s : String) : Listing (.text s)
  | list (items : List Value) : Listing (.list items)

/-- The pieces that a value falls into where patterns are read from it. -/
def pieces : Value → List String
  | .text s => commaParts s
  | .list items => items.map Value.toText
  | _ => []

/-- The patterns that a layer holds, unless all its pieces are blank. -/
def patterns? (v : Value) : Option (List String) :=
  if ∀ piece ∈ pieces v, Blank piece.toList then none else some (keep (pieces v))

/-- What the environment and the store have for a field. -/
structure Layers where
  given : Value
  stored : Value

namespace Layers

def patterns (l : Layers) : List String :=
  ((patterns? l.given).or (patterns? l.stored)).getD ["main", "master"]

def flag (l : Layers) : Bool := ((flagOf l.given).or (flagOf l.stored)).getD true

end Layers

def stored (store : Option Store) (name : String) : Value := (store.map (·.get name)).getD .null

def patternLayers (store : Option Store) (env : Environment) : Layers :=
  ⟨textValue (env.get? patternsVariable), stored store patternsName⟩

def flagLayers (store : Option Store) (env : Environment) : Layers :=
  ⟨textValue (env.get? enabledVariable), stored store enabledName⟩

section Patterns

variable {parts earlier : List String} {v : Value} {pattern : String}

theorem keep_eq_nil_iff : keep parts = [] ↔ ∀ part ∈ parts, Blank part.toList := by
  simp [keep, List.filter_eq_nil_iff, strip_eq_empty_iff]

theorem bare_of_mem_keep (h : pattern ∈ keep parts) : pattern ≠ "" ∧ strip pattern = pattern := by
  obtain ⟨ne, part, -, rfl⟩ := mem_keep.mp h
  exact ⟨ne, strip_strip part⟩

theorem listing_textValue (text? : Option String) : Listing (textValue text?) := by
  cases text? with
  | none => exact .null
  | some s => exact .text s

theorem readPatterns_of_listing (h : Listing v) : readPatterns v = .ok (keep (pieces v)) := by
  cases h <;> rfl

theorem orEarlier_keep : orEarlier (keep (pieces v)) earlier = (patterns? v).getD earlier := by
  unfold orEarlier patterns?
  simp only [keep_eq_nil_iff]
  split_ifs <;> rfl

theorem keep_of_patterns? {patterns : List String} (h : patterns? v = some patterns) :
    keep (pieces v) = patterns ∧ patterns ≠ [] := by
  unfold patterns? at h
  split_ifs at h with blank
  obtain rfl := Option.some.inj h
  exact ⟨rfl, mt keep_eq_nil_iff.mp blank⟩

namespace Layers

theorem patterns_ne_nil (l : Layers) : l.patterns ≠ [] := by
  unfold patterns
  cases hg : patterns? l.given with
  | some patterns => exact (keep_of_patterns? hg).2
  | none =>
    cases hs : patterns? l.stored with
    | some patterns => exact (keep_of_patterns? hs).2
    | none => exact List.cons_ne_nil _ _

theorem bare_of_mem_patterns {l : Layers} (h : pattern ∈ l.patterns) :
    pattern ≠ "" ∧ strip pattern = pattern := by
  unfold patterns at h
  cases hg : patterns? l.given with
  | some patterns =>
    rw [hg, ← (keep_of_patterns? hg).1] at h
    exact bare_of_mem_keep h
  | none =>
    cases hs : patterns? l.stored with
    | some patterns =>
      rw [hg, hs, ← (keep_of_patterns? hs).1] at h
      exact bare_of_mem_keep h
    | none =>
      rw [hg, hs] at h
      have defaults : ∀ pattern ∈ ["main", "master"], pattern ≠ "" ∧ strip pattern = pattern := by
        decide
      exact defaults pattern h

end Layers

end Patterns

/-- Each field is the topmost of its own layers. -/
theorem load_of_listing {store : Option Store} {env : Environment}
    (listing : Listing (patternLayers store env).stored) :
    load store env = .ok ⟨(patternLayers store env).patterns, (flagLayers store env).flag⟩ := by
  have kept : readPatterns ((store.map (·.get patternsName)).getD .null) =
      .ok (keep (pieces (patternLayers store env).stored)) := readPatterns_of_listing listing
  have given : readPatterns (textValue (env.get? patternsVariable)) =
      .ok (keep (pieces (patternLayers store env).given)) :=
    readPatterns_of_listing (listing_textValue _)
  have topmost (l : Layers) : l.patterns =
      (patterns? l.given).getD ((patterns? l.stored).getD ["main", "master"]) := by
    unfold Layers.patterns
    cases patterns? l.given <;> rfl
  unfold load
  simp only [kept, given, topmost, ← orEarlier_keep]
  rfl

/-- A protection is loaded from any two layers of values that patterns may be read from. Each field
is the topmost of its own layers, so that no blank layer hides the patterns of a lower one and no
patterns are ever missing, and neither field depends on the layers of the other. -/
theorem load_layers {store : Option Store} (env : Environment)
    (listing : Listing (patternLayers store env).stored) :
    ∃ p, load store env = .ok p ∧
      p.patterns = (patternLayers store env).patterns ∧
      p.enabled = (flagLayers store env).flag ∧
      p.patterns ≠ [] ∧
      (∀ pattern ∈ p.patterns, pattern ≠ "" ∧ strip pattern = pattern) ∧
      ∀ store' env', Listing (patternLayers store' env').stored →
        ∃ q, load store' env' = .ok q ∧
          (patternLayers store' env' = patternLayers store env → q.patterns = p.patterns) ∧
          (flagLayers store' env' = flagLayers store env → q.enabled = p.enabled) := by
  refine ⟨_, load_of_listing listing, rfl, rfl, Layers.patterns_ne_nil _,
    fun _ => Layers.bare_of_mem_patterns, fun store' env' listing' => ?_⟩
  refine ⟨_, load_of_listing listing', fun same => ?_, fun same => ?_⟩
  · exact congrArg Layers.patterns same
  · exact congrArg Layers.flag same

/-- Blank patterns come from nowhere, but a blank flag counts. -/
theorem load_layers_blank :
    let store : Store := ⟨[(patternsName, .list [.text " "]), (enabledName, .bool true)]⟩
    let env : Environment := [(patternsVariable, " , ,"), (enabledVariable, "")]
    ∃ p, load (some store) env = .ok p ∧ p.patterns = ["main", "master"] ∧ p.enabled = false := by
  intro store env
  have listing : Listing (patternLayers (some store) env).stored := .list _
  obtain ⟨p, loaded, patterns, enabled, -⟩ := load_layers env listing
  exact ⟨p, loaded, patterns.trans rfl, enabled.trans (by decide +kernel)⟩

end HistoryGuard.Protection
