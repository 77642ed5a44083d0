import HistoryGuard.Proofs.Text.Listing
import HistoryGuard.Settings.Protection

/-! # Patterns as they are read

A text with commas is read as its pieces without their blank ends, and blank pieces are left out.
Patterns that look like such pieces are read back from the text that joins them.
-/

namespace HistoryGuard

open Text

namespace Text

theorem comma_not_mem_of_mem_commaParts {s part : String} (h : part ∈ commaParts s) :
    ',' ∉ part.toList := by
  obtain ⟨piece, hp, rfl⟩ := List.mem_map.mp h
  rw [List.splitOn_eq_splitOnP] at hp
  intro comma
  rw [String.toList_ofList] at comma
  simpa using not_of_mem_splitOnP hp ',' comma

theorem commaParts_intercalate {parts : List String} (ne : parts ≠ [])
    (whole : ∀ part ∈ parts, ',' ∉ part.toList) :
    commaParts (",".intercalate parts) = parts := by
  have pieces : (",".intercalate parts).toList.splitOn ',' = parts.map String.toList := by
    rw [String.toList_intercalate]
    exact List.splitOn_intercalate ',' (by simpa using whole) (by simpa using ne)
  rw [commaParts, pieces, List.map_map]
  simp

end Text

namespace Protection

/-- The pattern is what reading may leave of a piece between commas. -/
structure Plain (pattern : String) : Prop where
  ne : pattern ≠ ""
  bare : strip pattern = pattern
  whole : ',' ∉ pattern.toList

instance (pattern : String) : Decidable (Plain pattern) :=
  decidable_of_iff (pattern ≠ "" ∧ strip pattern = pattern ∧ ',' ∉ pattern.toList)
    ⟨fun ⟨ne, bare, whole⟩ => ⟨ne, bare, whole⟩, fun ⟨ne, bare, whole⟩ => ⟨ne, bare, whole⟩⟩

theorem mem_keep {parts : List String} {pattern : String} :
    pattern ∈ keep parts ↔ pattern ≠ "" ∧ ∃ part ∈ parts, strip part = pattern := by
  simp [keep, and_comm]

theorem plain_of_mem_keep_commaParts {s pattern : String} (h : pattern ∈ keep (commaParts s)) :
    Plain pattern := by
  obtain ⟨ne, part, hp, rfl⟩ := mem_keep.mp h
  refine ⟨ne, strip_strip part, fun comma => ?_⟩
  rw [toList_strip] at comma
  exact comma_not_mem_of_mem_commaParts hp (trim_subset _ comma)

/-- What reading leaves of a piece, it leaves as it is. -/
theorem keep_of_bare {patterns : List String}
    (bare : ∀ pattern ∈ patterns, pattern ≠ "" ∧ strip pattern = pattern) :
    keep patterns = patterns := by
  have same : patterns.map strip = patterns.map id :=
    List.map_congr_left fun pattern hp => (bare pattern hp).2
  rw [keep, same, List.map_id, List.filter_eq_self]
  intro pattern hp
  simpa using (bare pattern hp).1

theorem keep_of_plain {patterns : List String} (plain : ∀ pattern ∈ patterns, Plain pattern) :
    keep patterns = patterns :=
  keep_of_bare fun pattern hp => ⟨(plain pattern hp).ne, (plain pattern hp).bare⟩

end Protection

end HistoryGuard
