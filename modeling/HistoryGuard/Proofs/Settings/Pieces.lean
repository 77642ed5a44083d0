import HistoryGuard.Proofs.Settings.Layers

/-! # Patterns piece by piece

A text with commas is read as the list of the pieces between them, and each piece by itself: the
patterns of two texts with a comma between are those of the first and then those of the second.
What has been read once is read again as it is.
-/

namespace HistoryGuard

open Text

namespace Text

/-- These are the parts of the text between its commas. -/
structure Splits (s : String) (parts : List String) : Prop where
  ne : parts ≠ []
  whole : ∀ part ∈ parts, ',' ∉ part.toList
  joined : ",".intercalate parts = s

theorem intercalate_commaParts (s : String) : ",".intercalate (commaParts s) = s := by
  have pieces : (commaParts s).map String.toList = s.toList.splitOn ',' := by
    rw [commaParts, List.map_map]
    exact (List.map_congr_left fun _ _ => String.toList_ofList).trans (List.map_id _)
  rw [← String.toList_inj, String.toList_intercalate, pieces]
  exact List.intercalate_splitOn ','

theorem splits_commaParts (s : String) : Splits s (commaParts s) where
  ne := by simp [commaParts, List.splitOn_ne_nil]
  whole _ := comma_not_mem_of_mem_commaParts
  joined := intercalate_commaParts s

theorem splits_iff {s : String} {parts : List String} : Splits s parts ↔ parts = commaParts s := by
  constructor
  · rintro ⟨ne, whole, rfl⟩
    exact (commaParts_intercalate ne whole).symm
  · rintro rfl
    exact splits_commaParts s

/-- A comma between two texts parts them, wherever else they have commas. -/
theorem commaParts_append (a b : String) :
    commaParts (a ++ "," ++ b) = commaParts a ++ commaParts b := by
  have parted : (a ++ "," ++ b).toList = a.toList ++ ',' :: b.toList := by simp
  rw [commaParts, parted, List.splitOn_eq_splitOnP, List.splitOnP_append_cons _ _ (by simp),
    List.map_append]
  rfl

end Text

namespace Protection

def texts (parts : List String) : Value := .list (parts.map .text)

section Reading

variable {parts : List String}

theorem pieces_texts : pieces (texts parts) = parts := by
  rw [texts, pieces, List.map_map]
  exact List.map_id parts

theorem readPatterns_texts : readPatterns (texts parts) = .ok (keep parts) := by
  have listing : Listing (texts parts) := .list _
  rw [readPatterns_of_listing listing, pieces_texts]

theorem keep_append (more : List String) : keep (parts ++ more) = keep parts ++ keep more := by
  rw [keep, List.map_append, List.filter_append, keep, keep]

theorem keep_keep : keep (keep parts) = keep parts := keep_of_bare fun _ => bare_of_mem_keep

theorem readPatterns_append (a b : String) :
    ∃ left right, readPatterns (.text a) = .ok left ∧ readPatterns (.text b) = .ok right ∧
      readPatterns (.text (a ++ "," ++ b)) = .ok (left ++ right) := by
  refine ⟨keep (commaParts a), keep (commaParts b), rfl, rfl, ?_⟩
  rw [readPatterns, commaParts_append, keep_append]

end Reading

/-- Two texts with a comma between are read as the patterns of the first and then those of the
second. From a text or a list come the pieces that are not blank, without their blank ends. The same
patterns come from the list of the pieces, and again from the list of the patterns themselves. The
pieces of a text are its parts between the commas, so that none of its patterns holds a comma. -/
theorem patterns_piecewise (a b : String) {v : Value} (listing : Listing v) :
    (∃ left right, readPatterns (.text a) = .ok left ∧ readPatterns (.text b) = .ok right ∧
      readPatterns (.text (a ++ "," ++ b)) = .ok (left ++ right)) ∧
    ∃ patterns, readPatterns v = .ok patterns ∧
      (∀ pattern, pattern ∈ patterns ↔ pattern ≠ "" ∧ ∃ piece ∈ pieces v, strip piece = pattern) ∧
      (∀ pattern ∈ patterns, pattern ≠ "" ∧ strip pattern = pattern) ∧
      readPatterns (texts (pieces v)) = .ok patterns ∧
      readPatterns (texts patterns) = .ok patterns ∧
      ∀ s, v = .text s →
        (∀ parts, Splits s parts ↔ parts = pieces v) ∧
        ∀ pattern ∈ patterns, ',' ∉ pattern.toList := by
  refine ⟨readPatterns_append a b, keep (pieces v), readPatterns_of_listing listing,
    fun _ => mem_keep, fun _ => bare_of_mem_keep, readPatterns_texts, ?_, ?_⟩
  · rw [readPatterns_texts, keep_keep]
  · rintro s rfl
    exact ⟨fun _ => splits_iff, fun _ found => (plain_of_mem_keep_commaParts found).whole⟩

theorem patterns_piecewise_mixed :
    let items : List Value :=
      [.text "\u3000a, b ", .bool true, .text "\u2028", .null, .list [.text "x"],
        .decimal ⟨true, 25, -1⟩]
    let patterns := ["a, b", "True", "None", "['x']", "-2.5"]
    Listing (.list items) ∧ readPatterns (.list items) = .ok patterns ∧
      readPatterns (texts patterns) = .ok patterns ∧
      readPatterns (.text (" release/*,,\t" ++ "," ++ ", hot fix\u00a0")) =
        .ok (["release/*"] ++ ["hot fix"]) := by
  intro items patterns
  obtain ⟨⟨left, right, readLeft, readRight, readBoth⟩, found, read, -, -, -, again, -⟩ :=
    patterns_piecewise " release/*,,\t" ", hot fix\u00a0" (.list items)
  have expected : readPatterns (.list items) = .ok patterns := by decide +kernel
  obtain rfl : found = patterns := Except.ok.inj (read.symm.trans expected)
  obtain rfl : left = ["release/*"] := Except.ok.inj (readLeft.symm.trans (by decide +kernel))
  obtain rfl : right = ["hot fix"] := Except.ok.inj (readRight.symm.trans (by decide +kernel))
  exact ⟨.list items, read, again, readBoth⟩

end Protection

end HistoryGuard
