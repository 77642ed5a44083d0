import HistoryGuard.Proofs.Settings.Patterns

/-! # Saving and loading

What a protection is loaded back as, once it has been saved. The flag is kept. The patterns are kept
as long as each is plain and there is one at all: without any, the defaults come back.
-/

namespace HistoryGuard.Protection

open Text

/-- The patterns that a load finds where these have been saved. -/
def reloaded (patterns : List String) : List String :=
  orEarlier (keep (commaParts (",".intercalate patterns))) ({} : Protection).patterns

theorem load_save (p : Protection) (store : Store) :
    load (some (p.save store)) [] = .ok ⟨reloaded p.patterns, p.enabled⟩ := by
  have patterns : (p.save store).get patternsName = .text (",".intercalate p.patterns) := by
    rw [save, Store.get_set_other (by decide), Store.get_set_same]
  have enabled : (p.save store).get enabledName = .bool p.enabled := Store.get_set_same ..
  simp only [load, Option.map_some, Option.getD_some, patterns, enabled]
  rfl

section Patterns

variable {patterns : List String}

theorem plain_of_mem_reloaded {pattern : String} (h : pattern ∈ reloaded patterns) :
    Plain pattern := by
  rw [reloaded, orEarlier] at h
  split at h
  · have defaults : ∀ pattern ∈ ({} : Protection).patterns, Plain pattern := by decide
    exact defaults pattern h
  · exact plain_of_mem_keep_commaParts h

theorem reloaded_ne_nil (patterns : List String) : reloaded patterns ≠ [] := by
  rw [reloaded, orEarlier]
  split
  · simp
  · assumption

theorem reloaded_of_plain (ne : patterns ≠ []) (plain : ∀ pattern ∈ patterns, Plain pattern) :
    reloaded patterns = patterns := by
  rw [reloaded, commaParts_intercalate ne fun pattern hp => (plain pattern hp).whole,
    keep_of_plain plain, orEarlier, if_neg ne]

theorem reloaded_eq_iff :
    reloaded patterns = patterns ↔ patterns ≠ [] ∧ ∀ pattern ∈ patterns, Plain pattern := by
  constructor
  · intro same
    rw [← same]
    exact ⟨reloaded_ne_nil patterns, fun _ => plain_of_mem_reloaded⟩
  · rintro ⟨ne, plain⟩
    exact reloaded_of_plain ne plain

example : reloaded ["release/*, hotfix", " "] = ["release/*", "hotfix"] ∧
    reloaded [] = ["main", "master"] := by decide

end Patterns

/-- A protection that has been saved, in whatever store, is loaded back as it was exactly if it has
patterns and each of them is plain. The flag always comes back, and what has come back once comes
back unchanged from then on. -/
theorem saved_reloads (p : Protection) (store : Store) :
    ∃ q, load (some (p.save store)) [] = .ok q ∧
      (q = p ↔ p.patterns ≠ [] ∧ ∀ pattern ∈ p.patterns, Plain pattern) ∧
      q.enabled = p.enabled ∧
      ∀ later, load (some (q.save later)) [] = .ok q := by
  refine ⟨⟨reloaded p.patterns, p.enabled⟩, load_save p store, ?_, rfl, fun later => ?_⟩
  · rw [← reloaded_eq_iff]
    exact ⟨congrArg patterns, fun same => by rw [same]⟩
  · have stable : reloaded (reloaded p.patterns) = reloaded p.patterns :=
      reloaded_of_plain (reloaded_ne_nil _) fun _ => plain_of_mem_reloaded
    rw [load_save, stable]

end HistoryGuard.Protection
