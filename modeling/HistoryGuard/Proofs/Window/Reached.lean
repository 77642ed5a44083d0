import HistoryGuard.Proofs.Window.Course

/-! # What a window comes through

A window is opened, and then the user works with it while tasks are carried out in the background.
The states that it comes through are in good order: it has forgotten no root but its own directory,
and what the cache remembers is fresh.
-/

namespace HistoryGuard

open Run Workspace Containment

namespace Window

variable {full : String → Prop} {dir : String} {start w v u : Window}
  {working : List (Nat × Task)} {s : Selection}

/-- Nothing has been asked for yet, and nothing is listed. -/
structure Initial (w : Window) : Prop where
  cache : w.workspace.cache = {}
  journal : w.workspace.shell.journal = []
  rows : w.rows = []

/-- A window that is opened comes to this state, in which these computations are under way. A menu
stays open while the work in the background goes on, and an action can be chosen from it later. If
git behaves differently from some point on, it is canonical again. -/
inductive Reaches (full : String → Prop) (start : Window) : List (Nat × Task) → Window → Prop
  | opened : Reaches full start [] (Window.start start).2
  | step {working : List (Nat × Task)} {v : Window} {s : WindowStep}
      (reached : Reaches full start working v)
      (canonical : ∀ git, s = .git git → git.Canonical start.dir full) :
      Reaches full start working (Window.step s v).2
  | chosen {working : List (Nat × Task)} {v u : Window} {row : Option Nat} {s : Selection}
      (reached : Reaches full start working v) (opened : Window.chosen row v = (.ok (some s), u)) :
      Reaches full start working u
  | acts {working earlier : List (Nat × Task)} {w v u : Window} {row : Option Nat} {s : Selection}
      (before : Reaches full start earlier w) (opened : Window.chosen row w = (.ok (some s), u))
      (reached : Reaches full start working v) (action : Action) (response : Dialog.Response) :
      Reaches full start working (runAction action s response v).2
  | works {working working' : List (Nat × Task)} {v : Window} {y : Workspace Unit}
      (reached : Reaches full start working v)
      (move : Works (fun _ => True) (working, v.workspace) (working', y)) :
      Reaches full start working' { v with workspace := y }

/-- The window shows the directory and forgets no other root, git is canonical, and the cache is
orderly and takes on further tasks. -/
structure Kept (dir : String) (full : String → Prop) (working : List (Nat × Task)) (v : Window) :
    Prop where
  aligned : Aligned dir full v
  orderly : Orderly working v.workspace
  unclosed : v.workspace.cache.closed = false
  named : ∀ e ∈ v.workspace.shell.journal, e.Naming dir

theorem named_of_within {P : Event → Prop} {x y : Workspace Unit} (h : Within P x y)
    (named : ∀ e ∈ x.shell.journal, P e) : ∀ e ∈ y.shell.journal, P e := by
  obtain ⟨es, journal, more⟩ := h.journal
  intro e he
  rw [journal] at he
  rcases List.mem_append.mp he with he | he
  · exact more e he
  · exact named e he

theorem Kept.along (h : Kept dir full working w)
    (goes : ∀ (R : Workspace Unit → Workspace Unit → Prop) [Std.Refl R]
      [IsTrans (Workspace Unit) R], Serves dir R → Along dir full R w v) :
    Kept dir full working v := by
  obtain ⟨aligned, onward⟩ := goes Onward (serves_onward dir) h.aligned
  obtain ⟨-, unclosed⟩ := goes Unclosed (serves_unclosed dir) h.aligned
  obtain ⟨-, within⟩ := goes (Within (Event.Naming dir)) (serves_naming dir) h.aligned
  exact ⟨aligned, h.orderly.onward onward, Eq.trans unclosed h.unclosed,
    named_of_within within h.named⟩

theorem Kept.works {P : Except Failure Branches → Prop} {working' : List (Nat × Task)}
    {y : Workspace Unit} (h : Kept dir full working v)
    (move : Works P (working, v.workspace) (working', y)) :
    Kept dir full working' { v with workspace := y } := by
  have within : Within (Event.Naming dir) v.workspace y :=
    move.within (by rintro _ _ _ ⟨⟩) (by rintro _ _ _ ⟨⟩) (by rintro _ _ _ _ ⟨⟩)
  constructor
  · refine ⟨h.aligned.here, ?_, h.aligned.rows⟩
    rw [show y.shell.git = v.workspace.shell.git from within.git]
    exact h.aligned.git
  · exact move.orderly h.orderly
  · exact move.closed.trans h.unclosed
  · exact named_of_within within h.named

theorem Initial.kept (initial : Initial start)
    (canonical : start.workspace.shell.git.Canonical start.dir full) :
    Kept start.dir full [] start := by
  constructor
  · exact ⟨rfl, canonical, by simp [initial.rows]⟩
  · constructor
    · constructor
      · simp [initial.cache, Cache.get?, Table.empty]
      · simp [initial.journal, Numbered]
      · simp [initial.cache, Cache.Timely, Cache.outstanding]
    · intro root
      rw [initial.cache, initial.journal]
      rfl
    · rw [initial.cache]
      exact Cache.booked_empty
    · simp [initial.cache]
    · simp
  · rw [initial.cache]
  · simp [initial.journal]

theorem kept_of_reaches (initial : Initial start)
    (canonical : start.workspace.shell.git.Canonical start.dir full)
    (reaches : Reaches full start working v) : Kept start.dir full working v := by
  induction reaches with
  | opened => exact (initial.kept canonical).along fun R _ _ h => along_start h start
  | @step working v s _ canonical ih =>
    by_cases swaps : ∃ git, s = .git git
    · obtain ⟨git, rfl⟩ := swaps
      have same : SoundLater v.workspace (Window.step (.git git) v).2.workspace :=
        soundLater_of_plain ⟨rfl, rfl, rfl, [], rfl, by simp⟩
      have counted : Counted (Window.step (.git git) v).2.workspace := ih.orderly.counted
      exact ⟨⟨ih.aligned.here, canonical git rfl, ih.aligned.rows⟩,
        ih.orderly.onward ⟨same, fun _ => counted, rfl, id⟩, ih.unclosed, ih.named⟩
    · exact ih.along fun R _ _ h => along_step h (not_exists.mp swaps) v
  | @chosen working v u row s _ opened ih =>
    exact ih.along fun R _ _ h => (along_chosen h row).of_eq opened
  | @acts working earlier w v u row s _ opened _ action response before ih =>
    have single (commit : Commit) : s = [commit] → commit.root = start.dir :=
      root_of_chosen before.aligned opened
    exact ih.along fun R _ _ h => along_runAction h single action response v
  | works _ move ih => exact ih.works move

theorem reaches_of_works {P : Except Failure Branches → Prop} {working' : List (Nat × Task)}
    {y : Workspace Unit} (reached : Reaches full start working v)
    (moves : Relation.ReflTransGen (Works P) (working, v.workspace) (working', y)) :
    Reaches full start working' { v with workspace := y } := by
  suffices h : ∀ q : List (Nat × Task) × Workspace Unit,
      Relation.ReflTransGen (Works P) (working, v.workspace) q →
      Reaches full start q.1 { v with workspace := q.2 } from h _ moves
  intro q moves
  induction moves with
  | refl => exact reached
  | @tail p q _ move ih =>
    have move : Works (fun _ => True) (p.1, p.2) (q.1, q.2) := move.mono fun _ _ => trivial
    exact ih.works move

end Window

end HistoryGuard
