import Mathlib.Data.List.Basic
import HistoryGuard.Git.Refs

/-! # The longest remote

Remotes may be nested, and then several of them lead the path of a branch. The branch belongs to the
longest one. There is at most one of them, in whatever order the remotes are listed.
-/

namespace HistoryGuard.Git

theorem foldl_longest {f : Option String → String → Option String}
    (step : ∀ b r, f (some b) r = if b.length < r.length then some r else some b)
    (l : List String) (b : String) :
    ∃ r, l.foldl f (some b) = some r ∧ r ∈ b :: l ∧ ∀ x ∈ b :: l, x.length ≤ r.length := by
  induction l generalizing b with
  | nil => exact ⟨b, rfl, List.mem_cons_self, by simp⟩
  | cons a l ih =>
    rw [List.foldl_cons, step]
    split
    · next shorter =>
      obtain ⟨r, hr, hm, hl⟩ := ih a
      refine ⟨r, hr, List.mem_cons_of_mem _ hm, ?_⟩
      intro x hx
      rcases List.mem_cons.mp hx with rfl | hx
      · have := hl a List.mem_cons_self
        omega
      · exact hl x hx
    · next longer =>
      obtain ⟨r, hr, hm, hl⟩ := ih b
      refine ⟨r, hr, ?_, ?_⟩
      · rcases List.mem_cons.mp hm with rfl | hm
        · exact List.mem_cons_self
        · exact List.mem_cons_of_mem _ (List.mem_cons_of_mem _ hm)
      · intro x hx
        rcases List.mem_cons.mp hx with rfl | hx
        · exact hl x List.mem_cons_self
        · rcases List.mem_cons.mp hx with rfl | hx
          · have := hl b List.mem_cons_self
            omega
          · exact hl x (List.mem_cons_of_mem _ hx)

/-- The remote is one of those configured, and no longer one leads the path. -/
structure IsLongest (remotes : List String) (remote : String) (path : List Char) : Prop where
  mem : remote ∈ remotes
  leads : remote.toList ++ ['/'] <+: path
  longest : ∀ r ∈ remotes, r.toList ++ ['/'] <+: path → r.length ≤ remote.length

namespace IsLongest

variable {remotes remotes' : List String} {r r' : String} {path : List Char}

theorem unique (h : IsLongest remotes r path) (h' : IsLongest remotes r' path) : r = r' := by
  -- two leading texts of one length are the same
  have length : r.length = r'.length :=
    Nat.le_antisymm (h'.longest r h.mem h.leads) (h.longest r' h'.mem h'.leads)
  have lengths : (r.toList ++ ['/']).length = (r'.toList ++ ['/']).length := by
    simp [String.length_toList, length]
  have same : r.toList ++ ['/'] = r'.toList ++ ['/'] :=
    (List.prefix_of_prefix_length_le h.leads h'.leads (Nat.le_of_eq lengths)).eq_of_length lengths
  exact String.toList_inj.mp (List.append_cancel_right same)

theorem congr (same : ∀ r, r ∈ remotes ↔ r ∈ remotes') :
    IsLongest remotes r path ↔ IsLongest remotes' r path := by
  constructor
  · rintro ⟨mem, leads, longest⟩
    exact ⟨(same r).mp mem, leads, fun x hx => longest x ((same x).mpr hx)⟩
  · rintro ⟨mem, leads, longest⟩
    exact ⟨(same r).mpr mem, leads, fun x hx => longest x ((same x).mp hx)⟩

end IsLongest

section Search

variable {remotes : List String} {remote : String} {path : List Char}

/-- Where some remote leads the path, the search finds one of the longest. -/
theorem exists_longestRemote (mem : remote ∈ remotes) (leads : remote.toList ++ ['/'] <+: path) :
    ∃ r, longestRemote remotes path = some r ∧ IsLongest remotes r path := by
  have leading {r : String} : r ∈ remotes.filter (fun r => (r.toList ++ ['/']).isPrefixOf path) ↔
      r ∈ remotes ∧ r.toList ++ ['/'] <+: path := by
    rw [List.mem_filter, List.isPrefixOf_iff_prefix]
  have some := List.ne_nil_of_mem (leading.mpr ⟨mem, leads⟩)
  obtain ⟨first, rest, hl⟩ := List.exists_cons_of_ne_nil some
  have chosen : ∃ r, longestRemote remotes path = .some r ∧ r ∈ first :: rest ∧
      ∀ x ∈ first :: rest, x.length ≤ r.length := by
    rw [longestRemote, hl, List.foldl_cons]
    exact foldl_longest (fun _ _ => rfl) rest first
  obtain ⟨r, found, hr, longest⟩ := chosen
  rw [← hl] at hr longest
  obtain ⟨mem', leads'⟩ := leading.mp hr
  exact ⟨r, found, mem', leads', fun x hx lx => longest x (leading.mpr ⟨hx, lx⟩)⟩

theorem longestRemote_eq_some_iff :
    longestRemote remotes path = some remote ↔ IsLongest remotes remote path := by
  constructor
  · intro found
    have some : remotes.filter (fun r => (r.toList ++ ['/']).isPrefixOf path) ≠ [] := by
      intro none
      simp [longestRemote, none] at found
    obtain ⟨r, hr⟩ := List.exists_mem_of_ne_nil _ some
    obtain ⟨mem, leads⟩ := List.mem_filter.mp hr
    obtain ⟨r', found', longest⟩ :=
      exists_longestRemote mem (List.isPrefixOf_iff_prefix.mp leads)
    rw [found] at found'
    rw [Option.some.inj found']
    exact longest
  · intro longest
    obtain ⟨r, found, longest'⟩ := exists_longestRemote longest.mem longest.leads
    rw [found, longest.unique longest']

end Search

end HistoryGuard.Git
