import HistoryGuard.Proofs.Gate.Reception
import HistoryGuard.Proofs.Git.Tame
import HistoryGuard.Proofs.Step

/-! # How the gate fails

Over tame git the gate fails in no other way than git does, unless it is misused or the policy
cannot be matched. It is not misused where an action was offered before: then a single commit is
selected, and its repository is found again.
-/

namespace HistoryGuard

open Run Workspace Containment

/-- If the program raises the failure itself, a git command has failed. -/
def Failure.Regular (e : Failure) : Prop := e.isOwn = true → e.isCommand = true

theorem Failure.regular_of_isCommand {e : Failure} (h : e.isCommand = true) : e.Regular :=
  fun _ => h

def Lookup.Finds (root : String) : Lookup → Prop
  | fixed entries => ∃ r, entries.lookup root = some r
  | registry r => ∃ tree, r.known (r.keyOf root) = some tree

namespace Workspace

variable {ι α : Type} {w v : Workspace ι} {root : String}

section Finds

theorem repository?_of_finds (h : w.lookup.Finds root) :
    ∃ r, repository? root w = (.ok (some r), w) := by
  cases hl : w.lookup with
  | fixed entries =>
    rw [hl] at h
    obtain ⟨r, listed⟩ := h
    exact ⟨r, by rw [Gate.repository?_fixed hl, listed]⟩
  | registry r =>
    rw [hl] at h
    obtain ⟨tree, known⟩ := h
    refine ⟨.worktree tree, ?_⟩
    rw [repository?_registry root hl, Registry.find_of_known known]
    dsimp only
    rw [← hl]
    rfl

theorem finds_of_repository? {r : Repository} (h : repository? root w = (.ok (some r), v)) :
    v.lookup.Finds root := by
  cases hl : w.lookup with
  | fixed entries =>
    rw [Gate.repository?_fixed hl] at h
    obtain ⟨listed, rfl⟩ : entries.lookup root = some r ∧ w = v := by simpa using h
    rw [hl]
    exact ⟨r, listed⟩
  | registry registry =>
    rw [repository?_registry root hl] at h
    rcases registry.find_cases root w.shell with ⟨e, s, found, -⟩ | ⟨s, found, -⟩ |
      ⟨tree, r', s, found, workDir, known, -⟩
    · simp [found] at h
    · simp [found] at h
    · rw [found] at h
      cases h
      exact ⟨tree, by rw [Registry.keyOf, workDir]; exact known⟩

def FindsAgain (root : String) (w v : Workspace ι) : Prop :=
  w.lookup.Finds root → v.lookup.Finds root

instance : Std.Refl (FindsAgain (ι := ι) root) := ⟨fun _ h => h⟩

instance : IsTrans (Workspace ι) (FindsAgain root) := ⟨fun _ _ _ h h' found => h' (h found)⟩

theorem upholds_findsAgain : Upholds (FindsAgain (ι := ι) root) := by
  constructor
  case query => exact fun _ _ h => h
  case repository? =>
    intro other w h
    cases hl : w.lookup with
    | fixed entries =>
      rw [Gate.repository?_fixed hl]
      exact h
    | registry r =>
      rw [repository?_registry other hl]
      rw [hl] at h
      obtain ⟨tree, known⟩ := h
      rcases found : r.find other w.shell with ⟨e | ⟨tree?, r'⟩, s⟩
      · dsimp only
        rw [hl]
        exact ⟨tree, known⟩
      · obtain ⟨grows, -⟩ := Registry.grows_of_find found
        exact ⟨tree, grows.keyOf root ▸ grows.known _ tree known⟩

end Finds

section Tame

variable {P : Failure → Prop}

theorem raises_onShell {x : Run Shell α} (h : Raises (·.git.Tame) P x) :
    Raises (G := fun w : Workspace ι => w.shell.git.Tame) P (onShell x) :=
  h.focus (fun _ tame => tame) fun _ _ tame => tame

/-- A question to tame git fails only as a git command does, also where it goes through the
cache. -/
theorem raises_of_shows {x : Run (Workspace ι) α} (h : ∀ w, Shows Course x w) :
    Raises (·.shell.git.Tame) (·.isCommand = true) x :=
  Run.raises_of_shows (fun _ _ _ course => course.shell.tame) h

theorem raises_repository? (root : String) :
    Raises (G := fun w : Workspace ι => w.shell.git.Tame) P (repository? root) := by
  intro w tame
  cases hl : w.lookup with
  | fixed entries =>
    rw [Gate.repository?_fixed hl]
    exact ⟨tame, by simp⟩
  | registry r =>
    rcases repository?_cases root hl with ⟨e, v, -, -, course⟩ | ⟨v, found, course⟩ |
      ⟨repository, v, found, -, course⟩
    · exact absurd rfl (course.shell.tame tame).2
    · rw [found]
      exact ⟨(course.shell.tame tame).1, by simp⟩
    · rw [found]
      exact ⟨(course.shell.tame tame).1, by simp⟩

end Tame

section Within

variable {P : Event → Prop}

/-- Git stays the same, and the events that come in between satisfy `P`. -/
def Within (P : Event → Prop) (w v : Workspace ι) : Prop := w.shell.Grows P v.shell

instance : Std.Refl (Within (ι := ι) P) := ⟨fun w => refl_of (Shell.Grows _) w.shell⟩

instance : IsTrans (Workspace ι) (Within P) := ⟨fun _ _ _ h h' => trans_of (Shell.Grows _) h h'⟩

theorem within_of_log {e : Event} (logged : v.shell = w.shell.log e) (h : P e) : Within P w v := by
  rw [Within, logged]
  exact Shell.keeps_note h w.shell

variable (calls : ∀ c started, P (.called c started))
include calls

theorem upholds_within : Upholds (Within (ι := ι) P) := by
  have asked {α : Type} {x : Run Shell α} (h : Git.Asks x) :
      Keeps (Within P) (onShell (ι := ι) x) :=
    (Edit.grows_of_asks calls h).focus fun _ _ grows => grows
  constructor
  case query => exact asked
  case repository? =>
    intro root
    refine Keeps.bind (keeps_read _) fun lookup => ?_
    cases lookup with
    | fixed entries => exact keeps_pure _
    | registry r =>
      apply (asked (r.asks_find root)).bind
      intro _
      exact Keeps.bind (keeps_modify fun w => refl_of (Shell.Grows _) w.shell) fun _ =>
        keeps_pure _

theorem within_traced (computing : ∀ n key, P (.computing n key))
    (computed : ∀ n key outcome, P (.computed n key outcome)) (key : Key) :
    Keeps (Within (ι := ι) P) (traced compute key) := by
  have begins : Keeps (Within (ι := ι) P) (numbered key) :=
    fun w => within_of_log rfl (computing ..)
  refine begins.bind fun serial => ?_
  apply ((upholds_within calls).query (Git.asks_containing key.root key.sha)).attempt.bind
  intro outcome
  exact Keeps.bind (fun w => within_of_log rfl (computed ..)) fun _ => keeps_ofExcept _

theorem within_getNow (computing : ∀ n key, P (.computing n key))
    (computed : ∀ n key outcome, P (.computed n key outcome)) (key : Key) :
    Keeps (Within (ι := ι) P) (getNow compute key) := by
  refine Keeps.bind (keeps_read _) fun cache => ?_
  dsimp only
  split
  · exact keeps_pure _
  · apply (within_traced calls computing computed key).bind
    intro b
    exact Keeps.bind (fun w => refl_of (Shell.Grows _) w.shell) fun _ => keeps_pure b

end Within

/-- In between nobody is told anything, and git stays the same. -/
def Silent (w v : Workspace ι) : Prop := w.shell.Grows (·.isNotice = false) v.shell

instance : Std.Refl (Silent (ι := ι)) := ⟨fun w => refl_of (Shell.Grows _) w.shell⟩

instance : IsTrans (Workspace ι) Silent := ⟨fun _ _ _ h h' => trans_of (Shell.Grows _) h h'⟩

theorem silent_of_log {e : Event} (logged : v.shell = w.shell.log e) (h : e.isNotice = false) :
    Silent w v :=
  within_of_log (P := (·.isNotice = false)) logged h

theorem upholds_silent : Upholds (Silent (ι := ι)) :=
  upholds_within (P := (·.isNotice = false)) fun _ _ => rfl

theorem silent_getNow (key : Key) : Keeps (Silent (ι := ι)) (getNow compute key) :=
  within_getNow (P := (·.isNotice = false)) (fun _ _ => rfl) (fun _ _ => rfl) (fun _ _ _ => rfl) key

end Workspace

namespace Gate

variable {ι : Type} {w v : Workspace ι} {s : Selection}

/-- A policy fails only at a pattern that it cannot match. -/
theorem firstProtected_fails {policy : Policy} {b : Branches} {remotes : List RemoteBranch}
    {e : Failure} (h : firstProtected policy b remotes = .error e) : e.isOwn = false := by
  induction remotes with
  | nil => cases h
  | cons r rest ih =>
    have unfolded : firstProtected policy b (r :: rest) =
        policy.covers r.localName >>= fun covered =>
          if covered && decide (r.qualifiedName ∈ b) then .ok (some r)
          else firstProtected policy b rest := rfl
    rw [unfolded] at h
    cases covers : policy.covers r.localName with
    | error f =>
      rw [covers] at h
      cases h
      cases policy with
      | protection p => cases covers
      | brokenAfter patterns =>
        rw [Policy.covers] at covers
        split at covers
        · cases covers
        · cases covers
          rfl
    | ok covered =>
      rw [covers] at h
      change (if covered && decide (r.qualifiedName ∈ b) then _ else _) = _ at h
      split at h
      · cases h
      · exact ih h

theorem raises_findProtected (r : Repository) (b : Branches) :
    Raises (G := fun w : Workspace ι => w.shell.git.Tame) Failure.Regular (findProtected r b) := by
  have remotes := (Git.raises_of_shows r.shows_remoteBranches).mono
    fun _ => Failure.regular_of_isCommand
  apply (raises_onShell remotes).bind
  intro listed
  apply (raises_read _).bind
  intro policy
  refine raises_ofExcept fun e failed own => ?_
  rw [firstProtected_fails failed] at own
  cases own

theorem raises_verdict (r : Repository) (b : Branches) :
    Raises (G := fun w : Workspace ι => w.shell.git.Tame) Failure.Regular (verdict r b) := by
  have current := (Git.raises_of_shows r.shows_currentBranch).mono
    fun _ => Failure.regular_of_isCommand
  apply (raises_onShell current).bind
  intro branch
  split
  · apply (raises_findProtected r b).bind
    intro found
    cases found with
    | none => exact raises_pure _
    | some _ => exact raises_pure _
  · exact raises_pure _

theorem raises_enablement (s : Selection) :
    Raises (G := fun w : Workspace ι => w.shell.git.Tame) Failure.Regular (enablement s) := by
  match s with
  | [] => exact raises_pure _
  | _ :: _ :: _ => exact raises_pure _
  | [commit] =>
    apply (raises_repository? commit.root).bind
    intro found
    cases found with
    | none => exact raises_pure _
    | some repository =>
      dsimp only
      split
      · apply (raises_read _).bind
        intro cached
        cases cached with
        | none => exact raises_pure _
        | some b => exact (raises_verdict repository b).bind fun _ => raises_pure _
      · exact raises_pure _

/-- What is offered is offered for a single commit, whose repository is found again. -/
theorem finds_of_available (h : enablement s w = (.ok .available, v)) :
    ∃ commit, s = [commit] ∧ v.lookup.Finds commit.root := by
  by_cases one : s.length = 1
  case neg =>
    rw [enablement_many one] at h
    cases h
  obtain ⟨commit, rfl⟩ := List.length_eq_one_iff.mp one
  refine ⟨commit, rfl, ?_⟩
  rcases found : repository? commit.root w with ⟨e | _ | repository, u⟩
  · rw [enablement, bind_of_error found] at h
    cases h
  · rw [enablement_unknown found] at h
    cases h
  · have finds := finds_of_repository? found
    by_cases parent : commit.parentCount = 1
    case neg =>
      rw [enablement_not_single_parent found parent] at h
      cases h
    rcases enablement_of_found found parent with ⟨-, available⟩ | ⟨b, -, ruled⟩
    · rw [available] at h
      cases h
      exact finds
    · rw [ruled, map_eq_pure_bind, bind_pure_apply] at h
      obtain ⟨-, rfl⟩ := Prod.mk.inj h
      exact upholds_findsAgain.verdict repository b u finds

/-- The gate is not misused where the repository of the selected commit is found. -/
theorem judge_regular {commit : Commit} (finds : w.lookup.Finds commit.root)
    (tame : w.shell.git.Tame) :
    (judge compute [commit] w).2.shell.git.Tame ∧
      ∀ e, (judge compute [commit] w).1 = .error e → e.Regular := by
  obtain ⟨repository, found⟩ := repository?_of_finds finds
  have contained := (Workspace.raises_of_shows (shows_containing (ι := ι) commit)).mono
    fun _ => Failure.regular_of_isCommand
  rw [judge_found found]
  split
  · exact (contained.bind fun b => raises_verdict repository b) w tame
  · exact ⟨tame, by simp⟩

theorem attemptEdit_regular {commit : Commit} (finds : w.lookup.Finds commit.root)
    (tame : w.shell.git.Tame) (title : String) :
    (attemptEdit compute [commit] title w).2.shell.git.Tame ∧
      ∀ e, (attemptEdit compute [commit] title w).1 = .error e → e.Regular := by
  obtain ⟨stays, fails⟩ := judge_regular finds tame
  rcases came : judge compute [commit] w with ⟨e | verdict, v⟩
  · rw [came] at stays fails
    rw [attemptEdit, bind_of_error came]
    refine ⟨stays, ?_⟩
    rintro _ ⟨⟩
    exact fails e rfl
  · rw [came] at stays
    rw [attemptEdit_of_verdict title came]
    exact ⟨stays, by simp⟩

theorem silent_of_allowed {title : String} (h : attemptEdit compute s title w = (.ok true, v)) :
    Silent w v := by
  obtain ⟨verdict, u, judged, h⟩ := bind_eq_ok.mp h
  have silent : Silent w u := (upholds_silent.judge silent_getNow s).of_eq judged
  cases verdict with
  | allowed =>
    cases h
    exact silent
  | denied reason => cases h

end Gate

end HistoryGuard
