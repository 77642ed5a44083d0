import HistoryGuard.Proofs.Gate.Failing
import HistoryGuard.Window.Step

/-! # The history in the window

The window reads the history without ever failing, as long as git starts and prints text: where git
fails to name the head, the title says so, and where it fails to list the commits, a box does.
-/

namespace HistoryGuard

open Run Workspace Containment

theorem Event.notice?_of_not_isNotice {e : Event} (h : e.isNotice = false) : e.notice? = none := by
  cases e with
  | noticed notice => cases h
  | _ => rfl

namespace Workspace

variable {ι : Type} {w v u : Workspace ι} {boxes more : List Notice}

/-- In between these boxes were shown, and git stays the same. -/
structure Told (boxes : List Notice) (w v : Workspace ι) : Prop where
  git : v.shell.git = w.shell.git
  journal : ∃ es, v.shell.journal = es ++ w.shell.journal ∧
    es.reverse.filterMap Event.notice? = boxes

theorem Told.trans (h : Told boxes w v) (h' : Told more v u) : Told (boxes ++ more) w u := by
  obtain ⟨es, he, shown⟩ := h.journal
  obtain ⟨es', he', shown'⟩ := h'.journal
  refine ⟨h'.git.trans h.git, es' ++ es, by rw [he', he, List.append_assoc], ?_⟩
  rw [List.reverse_append, List.filterMap_append, shown, shown']

theorem Silent.told (h : Silent w v) : Told [] w v := by
  obtain ⟨git, es, journal, silent⟩ := h
  refine ⟨git, es, journal, ?_⟩
  rw [List.filterMap_eq_nil_iff]
  intro e he
  exact Event.notice?_of_not_isNotice (silent e (List.mem_reverse.mp he))

theorem Told.tame (h : Told boxes w v) (tame : w.shell.git.Tame) : v.shell.git.Tame := by
  rw [h.git]
  exact tame

theorem told_notice (notice : Notice) (w : Workspace ι) :
    Told [notice] w { w with shell := w.shell.log (.noticed notice) } :=
  ⟨rfl, [.noticed notice], rfl, rfl⟩

end Workspace

namespace Window

variable {α : Type} {w v u : Window} {P : Failure → Prop}

/-- The directory stays, nobody is told anything, and git stays the same. -/
structure Still (w v : Window) : Prop where
  dir : v.dir = w.dir
  silent : Silent w.workspace v.workspace

instance : Std.Refl Still := ⟨fun w => ⟨rfl, refl_of Silent w.workspace⟩⟩

instance : IsTrans Window Still where
  trans _ _ _ h h' := ⟨h'.dir.trans h.dir, trans_of Silent h.silent h'.silent⟩

theorem onWorkspace_of_eq {x : Run (Workspace Unit) α} {r : Except Failure α} {y : Workspace Unit}
    (h : x w.workspace = (r, y)) : onWorkspace x w = (r, { w with workspace := y }) := by
  rw [onWorkspace, Run.focus, h]

theorem still_onWorkspace {x : Run (Workspace Unit) α} (h : Keeps Silent x) :
    Keeps Still (onWorkspace x) :=
  h.focus fun _ _ silent => ⟨rfl, silent⟩

theorem still_query {x : Run Shell α} (h : Git.Asks x) : Keeps Still (onShell x) :=
  still_onWorkspace (upholds_silent.query h)

abbrev Tame (w : Window) : Prop := w.workspace.shell.git.Tame

theorem Still.tame (h : Still w v) (tame : w.Tame) : v.Tame := by
  rw [Tame, h.silent.git]
  exact tame

theorem raises_onWorkspace {x : Run (Workspace Unit) α} (h : Raises (·.shell.git.Tame) P x) :
    Raises Tame P (onWorkspace x) :=
  h.focus (fun _ tame => tame) fun _ _ tame => tame

theorem raises_query {x : Run Shell α} (h : ∀ s, Shows Shell.Course x s) :
    Raises Tame (·.isCommand = true) (onShell x) :=
  raises_onWorkspace (raises_onShell (Git.raises_of_shows h))

theorem onGitFailure_apply (x : Run Window α) (other : Failure → Run Window α) (w : Window) :
    onGitFailure x other w = match x w with
      | (.ok a, v) => (.ok a, v)
      | (.error e, v) => if e.isCommand then other e v else (.error e, v) := by
  rw [onGitFailure, bind_apply, attempt]
  rcases x w with ⟨e | a, v⟩
  · dsimp only
    split <;> rfl
  · rfl

theorem raises_onGitFailure {x : Run Window α} {other : Failure → Run Window α}
    (hx : Raises Tame (·.isCommand = true) x) (ho : ∀ e, Raises Tame P (other e)) :
    Raises Tame P (onGitFailure x other) := by
  intro w tame
  obtain ⟨stays, fails⟩ := hx w tame
  rw [onGitFailure_apply]
  rcases came : x w with ⟨e | a, v⟩
  · rw [came] at stays fails
    simp only [fails e rfl, if_true]
    exact ho e v stays
  · rw [came] at stays
    exact ⟨stays, by simp⟩

theorem asks_headNames (dir : String) : Git.Asks (headNames dir) :=
  (Git.asks_currentBranch dir).bind fun _ => (Git.asks_headSha dir).bind fun _ => keeps_pure _

theorem shows_headNames (dir : String) (s : Shell) : Shows Shell.Course (headNames dir) s :=
  (Git.shows_currentBranch dir s).bind Git.sequential_course fun _ t _ =>
    (Git.shows_headSha dir t).bind Git.sequential_course fun _ _ _ => Git.sequential_course.pure _

/-- The box of a failure that no other box tells of. -/
def errorBox (e : Failure) : Notice := ⟨.critical, "Error", e.message⟩

def historyBoxes (dir : String) (s : Shell) : List Notice :=
  match (Git.log dir 500 (headNames dir s).2).1 with
  | .ok _ => []
  | .error e => [errorBox e]

theorem updateTitle_apply (tame : w.Tame) :
    ∃ title, updateTitle w = (.ok (), { w with
      title
      workspace := { w.workspace with shell := (headNames w.dir w.workspace.shell).2 } }) := by
  have dir : Run.read Window.dir w = (.ok w.dir, w) := rfl
  have fails := (raises_query (shows_headNames w.dir) w tame).2
  have asked : onShell (headNames w.dir) w = ((headNames w.dir w.workspace.shell).1,
      { w with workspace := { w.workspace with
        shell := (headNames w.dir w.workspace.shell).2 } }) := rfl
  rw [asked] at fails
  rw [updateTitle, bind_of_ok dir, bind_apply, onGitFailure_apply, asked]
  generalize (headNames w.dir w.workspace.shell).1 = names at fails
  cases names with
  | ok names => exact ⟨_, rfl⟩
  | error e =>
    simp only [fails e rfl, if_true]
    exact ⟨_, rfl⟩

theorem fillRows_apply (w : Window) :
    fillRows w = match Git.log w.dir 500 w.workspace.shell with
      | (.ok rows, t) => (.ok (), { w with rows, workspace := { w.workspace with shell := t } })
      | (.error e, t) => (.error e, { w with workspace := { w.workspace with shell := t } }) := by
  have dir : Run.read Window.dir w = (.ok w.dir, w) := rfl
  rw [fillRows, bind_of_ok dir, bind_apply, onShell, onWorkspace, focus, Workspace.onShell, focus]
  rcases Git.log w.dir 500 w.workspace.shell with ⟨e | rows, t⟩ <;> rfl

theorem fillRows_told (tame : w.Tame) :
    ∃ v, onGitFailure fillRows showError w = (.ok (), v) ∧
      Told (match (Git.log w.dir 500 w.workspace.shell).1 with
        | .ok _ => []
        | .error e => [errorBox e]) w.workspace v.workspace := by
  have fails := (Git.raises_of_shows (Git.shows_log w.dir · 500) w.workspace.shell tame).2
  have asked : Silent w.workspace { w.workspace with
      shell := (Git.log w.dir 500 w.workspace.shell).2 } :=
    upholds_silent.query (Git.asks_log w.dir 500) w.workspace
  rw [onGitFailure_apply, fillRows_apply]
  rcases listed : Git.log w.dir 500 w.workspace.shell with ⟨e | rows, t⟩
  · rw [listed] at fails asked
    simp only [fails e rfl, if_true]
    exact ⟨_, rfl, asked.told.trans (told_notice (errorBox e) _)⟩
  · rw [listed] at asked
    exact ⟨_, rfl, asked.told⟩

/-- Reading the history never fails. If git does not list it, the user is shown why. -/
theorem loadHistory_told (tame : w.Tame) :
    ∃ v, loadHistory w = (.ok (), v) ∧
      Told (historyBoxes w.dir w.workspace.shell) w.workspace v.workspace := by
  obtain ⟨title, titled⟩ := updateTitle_apply tame
  let named : Workspace Unit :=
    { w.workspace with shell := (headNames w.dir w.workspace.shell).2 }
  have quiet : Told [] w.workspace named :=
    Silent.told (upholds_silent.query (asks_headNames w.dir) w.workspace)
  obtain ⟨v, filled, told⟩ := fillRows_told
    (w := { w with title, workspace := named, rows := [], selected := [] }) (quiet.tame tame)
  refine ⟨v, ?_, quiet.trans told⟩
  rw [loadHistory, bind_of_ok titled]
  exact filled

end Window

end HistoryGuard
