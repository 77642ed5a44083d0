import HistoryGuard.Proofs.Gate.Cases
import HistoryGuard.Proofs.Git.Reception
import HistoryGuard.Proofs.Registry

/-! # The gate and the replies of git

The lookup of a repository and the verdict go on as long as the replies of git answer them. The
first reply that does not ends them, in a way that tells which kind it was.
-/

namespace HistoryGuard

open Run

variable {ι α : Type}

theorem Failure.isOwn_of_isCommand {e : Failure} (h : e.isCommand = true) : e.isOwn = true := by
  cases e with
  | commandFailed => rfl
  | _ => simp [isCommand] at h

namespace Shell

theorem course_log {e : Event} (he : e.call? = none) (s : Shell) : Course .answered s (s.log e) :=
  (Course.refl s).log he

end Shell

namespace Registry

open Shell

theorem find_cases (r : Registry) (dir : String) (s : Shell) :
    (∃ e t, r.find dir s = (.error e, t) ∧ e.isOwn = false ∧ Course .escaped s t) ∨
    (∃ t, r.find dir s = (.ok (none, r), t) ∧ Course .failed s t) ∨
    ∃ tree r' t, r.find dir s = (.ok (some tree, r'), t) ∧ r'.workDir = r.workDir ∧
      r'.known (r.keyOf dir) = some tree ∧ Course .answered s t := by
  cases hk : r.known (r.keyOf dir) with
  | some tree => exact .inr (.inr ⟨tree, r, s, find_of_known hk s, rfl, hk, .refl s⟩)
  | none =>
    have unknown := find_of_unknown hk s
    obtain ⟨k, tells, course⟩ := Git.shows_topLevel (r.keyOf dir) s
    rcases ht : Git.topLevel (r.keyOf dir) s with ⟨e | top, t⟩
    · rw [ht] at unknown tells course
      cases tells with
      | command h =>
        refine .inr (.inl ⟨t, ?_, course⟩)
        rw [unknown]
        simp [h]
      | other h =>
        refine .inl ⟨e, t, ?_, h, course⟩
        have foreign : ¬ e.isCommand = true := by
          intro hc
          simp [Failure.isOwn_of_isCommand hc] at h
        rw [unknown]
        simp only [if_neg foreign]
    · rw [ht] at unknown tells course
      cases tells
      exact .inr (.inr ⟨_, _, t, unknown, r.record_workDir _ top, r.record_known _ top, course⟩)

end Registry

namespace Workspace

/-- Between the two workspaces queries were made, and the last of them was taken in this way. -/
structure Course (k : Reception) (w v : Workspace ι) : Prop where
  shell : w.shell.Course k v.shell
  policy : v.policy = w.policy

theorem sequential_course : Sequential (Course (ι := ι)) where
  refl w := ⟨.refl w.shell, rfl⟩
  trans h h' := ⟨h.shell.trans h'.shell, h'.policy.trans h.policy⟩

theorem shows_onShell {x : Run Shell α} {w : Workspace ι} (h : Shows Shell.Course x w.shell) :
    Shows Course (onShell x) w := by
  obtain ⟨k, tells, course⟩ := h
  exact ⟨k, tells, course, rfl⟩

theorem shows_read (f : Workspace ι → α) (w : Workspace ι) : Shows Course (Run.read f) w :=
  ⟨.answered, .value _, sequential_course.refl w⟩

theorem shows_getNow (key : Key) (w : Workspace ι) :
    Shows Course (Containment.getNow compute key) w := by
  cases hc : w.cache.get? key with
  | some b =>
    rw [Shows, Containment.getNow_of_hit compute hc]
    exact ⟨.answered, .value b, sequential_course.refl w⟩
  | none =>
    have start : Course .answered w (Containment.begun key w) := ⟨Shell.course_log rfl _, rfl⟩
    obtain ⟨k, tells, course⟩ :=
      shows_onShell (w := Containment.begun key w) (Git.shows_containing key.root key.sha _)
    have whole := sequential_course.trans start course
    rw [Shows, Containment.getNow_of_miss compute hc, compute]
    rcases hv : onShell (Git.containing key.root key.sha) (Containment.begun key w) with ⟨e | b, v⟩
    · rw [hv] at tells whole
      exact ⟨k, tells, whole.shell.log rfl, whole.policy⟩
    · rw [hv] at tells whole
      exact ⟨k, tells, whole.shell.log rfl, whole.policy⟩

section Lookup

variable {w : Workspace ι}

theorem repository?_registry {r : Registry} (root : String) (registry : w.lookup = .registry r) :
    repository? root w = match r.find root w.shell with
      | (.ok (tree?, r'), s) =>
        (.ok (tree?.map .worktree), { w with shell := s, lookup := .registry r' })
      | (.error e, s) => (.error e, { w with shell := s }) := by
  have read : Run.read (·.lookup) w = (.ok (.registry r), w) := read_eq_ok.mpr ⟨registry, rfl⟩
  rw [repository?, bind_of_ok read]
  dsimp only
  rw [bind_apply, onShell, focus]
  rcases r.find root w.shell with ⟨e | ⟨tree?, r'⟩, s⟩ <;> rfl

theorem repository?_cases {r : Registry} (root : String) (registry : w.lookup = .registry r) :
    (∃ e v, repository? root w = (.error e, v) ∧ e.isOwn = false ∧ Course .escaped w v) ∨
    (∃ v, repository? root w = (.ok none, v) ∧ Course .failed w v) ∨
    ∃ repository v, repository? root w = (.ok (some repository), v) ∧
      repository? root v = (.ok (some repository), v) ∧ Course .answered w v := by
  have lookup := repository?_registry root registry
  rcases r.find_cases root w.shell with ⟨e, s, found, foreign, course⟩ | ⟨s, found, course⟩ |
    ⟨tree, r', s, found, workDir, known, course⟩
  · rw [found] at lookup
    exact .inl ⟨e, _, lookup, foreign, course, rfl⟩
  · rw [found] at lookup
    exact .inr (.inl ⟨_, lookup, course, rfl⟩)
  · rw [found] at lookup
    have known' : r'.known (r'.keyOf root) = some tree := by
      rw [Registry.keyOf, workDir]
      exact known
    refine .inr (.inr ⟨.worktree tree, _, lookup, ?_, course, rfl⟩)
    rw [repository?_registry root rfl, Registry.find_of_known known' s]
    rfl

end Lookup

end Workspace

theorem Repository.shows_currentBranch (r : Repository) (s : Shell) :
    Shows Shell.Course r.currentBranch s := by
  cases r with
  | recorded branch _ => exact Git.sequential_course.pure branch
  | worktree tree => exact Git.shows_currentBranch tree.root s

theorem Repository.shows_remoteBranches (r : Repository) (s : Shell) :
    Shows Shell.Course r.remoteBranches s := by
  cases r with
  | recorded _ remotes => exact Git.sequential_course.pure remotes
  | worktree tree => exact Git.shows_remoteBranches tree.root s

namespace Gate

open Workspace

variable {p : Protection} {w : Workspace ι}

theorem shows_containing (commit : Commit) (w : Workspace ι) :
    Shows Course (containing compute commit) w := by
  refine (shows_read _ w).bind sequential_course fun cached v _ => ?_
  cases cached with
  | some b => exact sequential_course.pure b
  | none => exact shows_getNow commit.key v

/-- A protection covers any name or does not, so that only git can keep the gate from its
verdict. -/
theorem shows_findProtected (r : Repository) (b : Branches) (h : w.policy = .protection p) :
    Shows Course (findProtected r b) w := by
  refine (shows_onShell (r.shows_remoteBranches _)).bind sequential_course fun remotes v hv => ?_
  refine ⟨.answered, ?_, sequential_course.refl v⟩
  show Tells _ (firstProtected v.policy b remotes)
  rw [hv.policy, h, firstProtected_protection]
  exact .value _

theorem shows_verdict (r : Repository) (b : Branches) (h : w.policy = .protection p) :
    Shows Course (verdict r b) w := by
  refine (shows_onShell (r.shows_currentBranch _)).bind sequential_course fun current v hv => ?_
  split
  · refine (shows_findProtected r b (hv.policy.trans h)).bind sequential_course
      fun found u _ => ?_
    cases found with
    | some _ => exact sequential_course.pure _
    | none => exact sequential_course.pure _
  · exact sequential_course.pure _

end Gate

end HistoryGuard
