import HistoryGuard.Proofs.Containment.Background
import HistoryGuard.Proofs.Window.Menu

/-! # The course of a window

Whatever the user does with a window, it works on the workspace by a few operations, and it forgets
no other root than its own directory, if git takes the directory for the top of its work tree and
knows every listed commit under the hash that it was listed with.
-/

namespace HistoryGuard

open Run Workspace Containment

/-- If the event forgets anything, then this root. -/
def Event.Naming (root : String) (e : Event) : Prop :=
  ∀ target, e = .invalidated target → target = some root

namespace Workspace

variable {root : String} {P : Event → Prop}

/-- The operations of a window on the workspace keep the relation. None but one root is
forgotten. -/
structure Serves (root : String) (R : Workspace Unit → Workspace Unit → Prop) : Prop where
  upholds : Upholds R
  tells : ∀ notice, Keeps R (note (.noticed notice))
  looks : ∀ key, Keeps R (getNow compute key)
  requests : ∀ key, Keeps R (request key)
  works : Keeps R (runNext compute)
  forgets : Keeps R (invalidate (some root))
  edits : ∀ (edit : Edit) (commit : Commit), Keeps R (onShell (edit.carryOut commit))

variable {R : Workspace Unit → Workspace Unit → Prop}

theorem serves_of_maintains (h : Maintains R compute)
    (edits : ∀ (edit : Edit) (commit : Commit), Keeps R (onShell (edit.carryOut commit))) :
    Serves root R where
  upholds := h.upholds
  tells _ := (beside_note (P := (Event.isAside ·)) rfl).mono h.beside
  looks := h.getNow
  requests := h.request
  works := h.runNext
  forgets := h.invalidate _
  edits := edits

theorem serves_naming (root : String) : Serves root (Within (Event.Naming root)) := by
  have calls : ∀ c started, Event.Naming root (.called c started) := by rintro _ _ _ ⟨⟩
  have computing : ∀ n key, Event.Naming root (.computing n key) := by rintro _ _ _ ⟨⟩
  have computed : ∀ n key outcome, Event.Naming root (.computed n key outcome) := by
    rintro _ _ _ _ ⟨⟩
  have asks : ∀ commit prompt, Event.Naming root (.asked commit prompt) := by rintro _ _ _ ⟨⟩
  constructor
  case upholds => exact upholds_within calls
  case tells => exact fun notice w => within_of_log rfl (by rintro _ ⟨⟩)
  case looks => exact within_getNow calls computing computed
  case requests =>
    intro key w
    rw [request_snd]
    exact refl_of (Shell.Grows _) w.shell
  case works =>
    have cached (w : Workspace Unit) (c : Cache) :
        Within (Event.Naming root) w { w with cache := c } :=
      refl_of (Shell.Grows _) w.shell
    exact keeps_runNext (fun _ _ w _ => cached w _) (within_traced calls computing computed)
      (fun _ _ w => cached w _) fun _ w => cached w _
  case forgets => exact fun w => within_of_log rfl (by rintro _ ⟨⟩; rfl)
  case edits =>
    exact fun edit commit => (edit.grows_carryOut calls asks commit).focus fun _ _ grows => grows

/-- Nothing that a window does keeps the cache from taking on further tasks. -/
def Unclosed (w v : Workspace Unit) : Prop := v.cache.closed = w.cache.closed

instance : Std.Refl Unclosed := ⟨fun _ => rfl⟩

instance : IsTrans (Workspace Unit) Unclosed := ⟨fun _ _ _ h h' => h'.trans h⟩

theorem serves_unclosed (root : String) : Serves root Unclosed := by
  have aside {P : Event → Prop} {w v : Workspace Unit} (h : Beside P w v) : Unclosed w v :=
    congrArg Cache.closed h.cache
  have traced (key : Key) : Keeps Unclosed (traced compute key) := by
    intro w
    have asked : Unclosed (begun key w) (compute key (begun key w)).2 := aside (asks_compute key _)
    exact asked
  constructor
  case upholds =>
    exact ⟨fun hx w => aside (beside_onShell hx w), fun r w => aside (asks_repository? r w)⟩
  case tells => exact fun _ _ => rfl
  case looks =>
    intro key
    refine Keeps.bind (keeps_read _) fun c => ?_
    cases c.get? key with
    | some b => exact keeps_pure b
    | none =>
      refine (traced key).bind fun b => Keeps.bind (fun w => ?_) fun _ => keeps_pure b
      exact Cache.closed_store ..
  case requests =>
    intro key w
    rw [request_snd]
    exact Cache.closed_request key
  case works =>
    exact keeps_runNext (fun _ _ _ _ => rfl) traced (fun _ _ _ => Cache.closed_store ..)
      fun _ _ => rfl
  case forgets => exact fun _ => rfl
  case edits => exact fun edit commit w => aside (beside_onShell (edit.outward_carryOut commit) w)

theorem serves_onward (root : String) : Serves root Onward := by
  apply serves_of_maintains
  · exact maintains_onward fun key w => onward_of_asks (asks_compute key w)
  · exact fun edit commit w => onward_of_beside (beside_onShell (edit.outward_carryOut commit) w)

namespace Serves

variable [Std.Refl R] [IsTrans (Workspace Unit) R] (h : Serves root R)
include h

theorem entries (s : Selection) : Keeps R (Window.entries s) :=
  keeps_mapM (fun _ => (h.upholds.enablement s).bind fun _ => keeps_pure _) _

omit [Std.Refl R] in
theorem carriedOut (edit : Edit) (commit : Commit) (w : Workspace Unit) :
    R w (edit.carriedOut commit w) := by
  have carried := h.edits edit commit w
  cases came : (edit.carryOut commit w.shell).1 with
  | ok done =>
    rw [Edit.carriedOut]
    simp only [came]
    exact carried
  | error e =>
    rw [Edit.carriedOut]
    simp only [came, Edit.notices]
    split
    · exact trans_of R carried (h.tells _ _)
    · exact carried

/-- An edit forgets no other root than that of its commit. -/
theorem perform {s : Selection} (single : ∀ commit, s = [commit] → commit.root = root)
    (edit : Edit) : Keeps R (edit.perform compute s) := by
  have tell (title text : String) : Keeps R (Gate.tell (ι := Unit) title text) := h.tells _
  intro w
  have attempted := h.upholds.attemptEdit h.looks tell s edit.action.failureTitle w
  by_cases ha : ∃ t, Gate.attemptEdit compute s edit.action.failureTitle w = (.ok true, t)
  · obtain ⟨t, allowed⟩ := ha
    obtain ⟨approval⟩ := Gate.attemptEdit_eq_true_iff.mp allowed
    obtain ⟨commit, rfl⟩ : ∃ commit, s = [commit] := ⟨_, approval.single⟩
    rw [allowed] at attempted
    rw [Edit.perform_of_allowed allowed, single commit rfl]
    exact trans_of R attempted (trans_of R (h.carriedOut edit commit t) (h.forgets _))
  · rw [(edit.perform_of_denied (not_exists.mp ha)).1]
    exact attempted

end Serves

end Workspace

namespace Git

/-- Git takes the directory for the top of its work tree, lists the commits with their full hashes,
and names a commit that is asked for by its full hash by the same hash. -/
structure Canonical (git : Git) (dir : String) (full : String → Prop) : Prop where
  top : ∀ s t root, s.git = git → topLevel dir s = (.ok root, t) → root = dir
  listed : ∀ s t rows, s.git = git → log dir 500 s = (.ok rows, t) → ∀ row ∈ rows, full row.sha
  named : ∀ sha, full sha → ∀ s t answer, s.git = git → parents dir sha s = (.ok answer, t) →
    answer.1 = sha

variable {git : Git} {dir sha : String} {full : String → Prop}

theorem Canonical.key_eq (h : git.Canonical dir full) (hs : full sha) {s t : Shell} {c : Commit}
    (same : s.git = git) (told : Git.commit dir sha s = (.ok c, t)) : c.key = ⟨dir, sha⟩ := by
  obtain ⟨root, u, topped, rest⟩ := bind_eq_ok.mp told
  obtain ⟨⟨name, parents⟩, v, named, rest⟩ := bind_eq_ok.mp rest
  obtain ⟨rfl, -⟩ := pure_eq_ok.mp rest
  have here := h.top s u root same topped
  have same' : u.git = git := ((asks_topLevel _).of_eq topped).git.trans same
  rw [here] at named
  rw [Commit.key, Key.mk.injEq]
  exact ⟨here, h.named sha hs u v _ same' named⟩

end Git

namespace Window

variable {dir : String} {full : String → Prop} {R : Workspace Unit → Workspace Unit → Prop}
  {w v u : Window}

/-- The window shows the directory, git is canonical there, and the rows are commits that were
listed. -/
structure Aligned (dir : String) (full : String → Prop) (w : Window) : Prop where
  here : w.dir = dir
  git : w.workspace.shell.git.Canonical dir full
  rows : ∀ row ∈ w.rows, full row.sha

/-- An aligned window stays aligned, and its workspace comes to a related one. -/
def Along (dir : String) (full : String → Prop) (R : Workspace Unit → Workspace Unit → Prop)
    (w v : Window) : Prop :=
  Aligned dir full w → Aligned dir full v ∧ R w.workspace v.workspace

instance [Std.Refl R] : Std.Refl (Along dir full R) := ⟨fun w h => ⟨h, refl_of R w.workspace⟩⟩

instance [IsTrans (Workspace Unit) R] : IsTrans Window (Along dir full R) where
  trans _ _ _ h h' aligned := by
    obtain ⟨aligned, first⟩ := h aligned
    obtain ⟨aligned, second⟩ := h' aligned
    exact ⟨aligned, trans_of R first second⟩

theorem along_onWorkspace {α : Type} {x : Run (Workspace Unit) α} {P : Event → Prop}
    (git : Keeps (Within P) x) (hx : Keeps R x) : Keeps (Along dir full R) (onWorkspace x) := by
  intro w aligned
  refine ⟨⟨aligned.here, ?_, aligned.rows⟩, hx w.workspace⟩
  have same : (x w.workspace).2.shell.git = w.workspace.shell.git := (git w.workspace).git
  rw [onWorkspace, Run.focus, same]
  exact aligned.git

theorem along_modify [Std.Refl R] {f : Window → Window}
    (workspace : ∀ w, (f w).workspace = w.workspace) (here : ∀ w, (f w).dir = w.dir)
    (rows : ∀ w, (f w).rows ⊆ w.rows) : Keeps (Along dir full R) (Run.modify f) := by
  intro w aligned
  refine ⟨⟨(here w).trans aligned.here, ?_, fun row hr => aligned.rows row (rows w hr)⟩, ?_⟩
  · show (f w).workspace.shell.git.Canonical dir full
    rw [workspace]
    exact aligned.git
  · show R w.workspace (f w).workspace
    rw [workspace]
    exact refl_of R w.workspace

theorem along_setFont [Std.Refl R] (size : Int) : Keeps (Along dir full R) (setFont size) :=
  along_modify (fun _ => rfl) (fun _ => rfl) fun _ => List.Subset.refl _

section Operations

variable (h : Serves dir R)
include h

omit h in
theorem along_query {α : Type} {x : Run Shell α} (h : Upholds R) (hx : Git.Asks x) :
    Keeps (Along dir full R) (onShell x) :=
  along_onWorkspace ((serves_naming dir).upholds.query hx) (h.query hx)

theorem along_showBox (kind : NoticeKind) (title text : String) :
    Keeps (Along dir full R) (showBox kind title text) :=
  along_onWorkspace ((serves_naming dir).tells _) (h.tells _)

variable [Std.Refl R] [IsTrans (Workspace Unit) R]

omit h in
theorem along_onGitFailure {α : Type} {x : Run Window α} {other : Failure → Run Window α}
    (hx : Keeps (Along dir full R) x) (ho : ∀ e, Keeps (Along dir full R) (other e)) :
    Keeps (Along dir full R) (onGitFailure x other) := by
  apply hx.attempt.bind
  intro outcome
  cases outcome with
  | ok a => exact keeps_pure a
  | error e =>
    dsimp only
    split
    · exact ho e
    · exact keeps_fail e

theorem along_updateTitle : Keeps (Along dir full R) updateTitle := by
  refine Keeps.bind (keeps_read _) fun here => ?_
  have asked : Keeps (Along dir full R) (onShell (headNames here)) :=
    along_query h.upholds (asks_headNames here)
  refine (along_onGitFailure asked fun _ => keeps_pure _).bind fun _ => ?_
  exact along_modify (fun _ => rfl) (fun _ => rfl) fun _ => List.Subset.refl _

omit [Std.Refl R] [IsTrans (Workspace Unit) R] in
theorem along_fillRows : Keeps (Along dir full R) fillRows := by
  intro w aligned
  obtain rfl := aligned.here
  have asked := along_query h.upholds (Git.asks_log w.dir 500) w aligned
  have listed := aligned.git.listed w.workspace.shell
  rw [onShell, onWorkspace, Run.focus, Workspace.onShell, Run.focus] at asked
  rw [fillRows_apply]
  rcases came : Git.log w.dir 500 w.workspace.shell with ⟨e | rows, t⟩
  all_goals
    rw [came] at asked
    obtain ⟨aligned, related⟩ := asked
  · exact ⟨aligned, related⟩
  · exact ⟨⟨rfl, aligned.git, listed t rows rfl came⟩, related⟩

theorem along_loadHistory : Keeps (Along dir full R) loadHistory := by
  apply (along_updateTitle h).bind
  intro _
  refine Keeps.bind (along_modify (fun _ => rfl) (fun _ => rfl) fun _ => List.nil_subset _) ?_
  exact fun _ => along_onGitFailure (along_fillRows h) fun e => along_showBox h _ _ _

theorem along_start : Keeps (Along dir full R) start := by
  refine Keeps.bind (keeps_read _) fun store => Keeps.bind (keeps_ofExcept _) fun size => ?_
  refine Keeps.bind (along_modify (fun _ => rfl) (fun _ => rfl) fun _ => List.Subset.refl _) ?_
  exact fun _ => (along_setFont size).bind fun _ => along_loadHistory h

theorem along_select (numbers : List Nat) : Keeps (Along dir full R) (select numbers) := by
  have prefetch : Keeps (Along dir full R) prefetch := by
    refine Keeps.bind keeps_get fun w => ?_
    split
    · exact (along_onWorkspace ((serves_naming dir).requests _) (h.requests _)).bind fun _ =>
        keeps_pure _
    · exact keeps_pure _
  refine Keeps.bind keeps_get fun w => ?_
  dsimp only
  split
  · exact keeps_pure _
  · refine Keeps.bind (along_modify (fun _ => rfl) (fun _ => rfl) fun _ => List.Subset.refl _) ?_
    exact fun _ => prefetch

theorem along_selectCommit (start : String) : Keeps (Along dir full R) (selectCommit start) := by
  refine Keeps.bind keeps_get fun w => ?_
  split
  · exact (along_select h _).bind fun _ => keeps_pure _
  · exact keeps_pure _

theorem along_focus (i : Nat) : Keeps (Along dir full R) (focus i) := by
  refine Keeps.bind keeps_get fun w => ?_
  split
  · exact along_select h _
  · exact keeps_pure _

def keyOf (w : Window) (row : Git.LogEntry) : Key := ⟨w.dir, row.sha⟩

omit h in
theorem along_selection (h : Upholds R) : Keeps (Along dir full R) selection := by
  refine Keeps.bind keeps_get fun w => ?_
  have asked (row : Git.LogEntry) : Keeps (Along dir full R) (onShell (Git.commit w.dir row.sha)) :=
    along_query h (Git.asks_commit w.dir row.sha)
  exact keeps_mapM asked w.selectedRows

theorem along_chosen (row : Option Nat) : Keeps (Along dir full R) (chosen row) := by
  refine Keeps.bind keeps_get fun w => ?_
  split
  · exact keeps_pure _
  · refine (along_focus h _).bind fun _ => along_onGitFailure ?_ fun e => ?_
    · rw [map_eq_pure_bind]
      exact (along_selection h.upholds).bind fun _ => keeps_pure _
    · exact (along_showBox h _ _ _).bind fun _ => keeps_pure _

theorem along_refresh : Keeps (Along dir full R) refresh := by
  intro w aligned
  obtain rfl := aligned.here
  have forgets : Keeps (Along w.dir full R) (onWorkspace (invalidate (some w.dir))) :=
    along_onWorkspace (serves_naming w.dir).forgets h.forgets
  exact (forgets.bind fun _ => along_loadHistory h) w aligned

theorem along_click (button : Button) : Keeps (Along dir full R) (click button) := by
  cases button with
  | zoomIn => exact Keeps.bind (keeps_read _) fun size => along_setFont _
  | zoomOut =>
    refine Keeps.bind (keeps_read _) fun size => ?_
    split
    · exact along_setFont _
    · exact keeps_pure _
  | refresh => exact along_refresh h
  | exit => exact keeps_pure _

end Operations

section Menu

variable [Std.Refl R] [IsTrans (Workspace Unit) R] (h : Serves dir R) {s : Selection}

def reload (changed : Bool) : Run Window Unit := do
  if changed then showBox .information "Success" "History rewritten successfully."
  loadHistory

include h in
theorem along_reload (changed : Bool) : Keeps (Along dir full R) (reload changed) := by
  cases changed with
  | false => exact along_loadHistory h
  | true => exact (along_showBox h _ _ _).bind fun _ => along_loadHistory h

variable (single : ∀ commit, s = [commit] → commit.root = dir)
include h single

theorem along_runAction (action : Action) (response : Dialog.Response) :
    Keeps (Along dir full R) (runAction action s response) := by
  have performs : Keeps (Along dir full R)
      (onWorkspace ((response.edit action).perform Workspace.compute s)) :=
    along_onWorkspace ((serves_naming dir).perform single _) (h.perform single _)
  exact performs.bind fun changed => along_reload h changed

theorem along_showMenu (choice : Option Nat) (response : Dialog.Response) :
    Keeps (Along dir full R) (showMenu s choice response) := by
  have offers : Keeps (Along dir full R) (onWorkspace (entries s)) :=
    along_onWorkspace ((serves_naming dir).entries s) (h.entries s)
  refine offers.bind fun menu => ?_
  refine Keeps.bind (along_modify (fun _ => rfl) (fun _ => rfl) fun _ => List.Subset.refl _) ?_
  intro _
  split
  · exact along_runAction h single _ response
  · exact keeps_pure _

end Menu

section Keys

variable {s : Selection} {row : Option Nat}

def Framed (w v : Window) : Prop := v = { w with workspace := v.workspace }

instance : Std.Refl Framed := ⟨fun _ => rfl⟩

instance : IsTrans Window Framed where
  trans w v u h h' := by
    rw [Framed] at h h' ⊢
    rw [h', h]

theorem framed_selection : Keeps Framed selection := by
  refine Keeps.bind keeps_get fun w => ?_
  have asked (row : Git.LogEntry) : Keeps Framed (onShell (Git.commit w.dir row.sha)) :=
    fun _ => rfl
  exact keeps_mapM asked w.selectedRows

/-- Git names the commits of the rows by the keys of the rows. -/
theorem keys_of_mapM {rows : List Git.LogEntry} (listed : ∀ row ∈ rows, full row.sha)
    (aligned : Aligned dir full w)
    (told : rows.mapM (fun row => onShell (Git.commit dir row.sha)) w = (.ok s, u)) :
    s.map Commit.key = rows.map (Key.mk dir ·.sha) := by
  induction rows generalizing w s with
  | nil =>
    cases told
    rfl
  | cons row rest ih =>
    rw [List.mapM_cons] at told
    obtain ⟨commit, v, first, told⟩ := bind_eq_ok.mp told
    obtain ⟨others, v', later, told⟩ := bind_eq_ok.mp told
    obtain ⟨rfl, rfl⟩ := pure_eq_ok.mp told
    have asked : Keeps (Along dir full (Beside (Event.isQuery ·)))
        (onShell (Git.commit dir row.sha)) :=
      along_query upholds_asking (Git.asks_commit dir row.sha)
    have key : commit.key = ⟨dir, row.sha⟩ := by
      apply aligned.git.key_eq (listed row List.mem_cons_self) rfl
      exact eq_of_fst (congrArg Prod.fst first)
    rw [List.map_cons, List.map_cons, key,
      ih (fun row hr => listed row (List.mem_cons_of_mem _ hr)) (asked.of_eq first aligned).1 later]

theorem keys_of_chosen (aligned : Aligned dir full w) (opened : chosen row w = (.ok (some s), u)) :
    s.map Commit.key = u.selectedRows.map w.keyOf := by
  obtain ⟨i, v, -, -, focused, told⟩ := selection_of_chosen opened
  have aligned' : Aligned dir full v :=
    ((along_focus (serves_naming dir) i).of_eq focused aligned).1
  have framed : Framed v u := framed_selection.of_eq told
  have here : w.keyOf = (Key.mk dir ·.sha) := by
    funext row
    rw [keyOf, aligned.here]
  have rows : u.selectedRows = v.selectedRows := by rw [framed]; rfl
  have listed : ∀ row ∈ v.selectedRows, full row.sha := by
    intro row hr
    obtain ⟨i, -, got⟩ := List.mem_filterMap.mp hr
    exact aligned'.rows row (List.mem_of_getElem? got)
  rw [selection, bind_get, aligned'.here] at told
  rw [here, rows]
  exact keys_of_mapM listed aligned' told

theorem root_of_chosen (aligned : Aligned dir full w) (opened : chosen row w = (.ok (some s), u))
    {commit : Commit} (single : s = [commit]) : commit.root = dir := by
  have keys := keys_of_chosen aligned opened
  have member : commit.key ∈ u.selectedRows.map w.keyOf := by
    rw [← keys, single]
    exact List.mem_cons_self
  obtain ⟨row, -, key⟩ := List.mem_map.mp member
  calc commit.root
    _ = (w.keyOf row).root := (congrArg Key.root key).symm
    _ = dir := aligned.here

end Keys

section Steps

variable [Std.Refl R] [IsTrans (Workspace Unit) R] (h : Serves dir R)
include h

theorem along_contextMenu (row choice : Option Nat) (response : Dialog.Response) :
    Keeps (Along dir full R) (contextMenu row choice response) := by
  intro w aligned
  have first : Along dir full R w (chosen row w).2 := along_chosen h row w
  rw [contextMenu_eq]
  rcases opened : chosen row w with ⟨e | _ | s, u⟩
  all_goals rw [opened] at first
  · rw [bind_of_error opened]
    exact first aligned
  · rw [bind_of_ok opened]
    exact first aligned
  · rw [bind_of_ok opened]
    have single (commit : Commit) : s = [commit] → commit.root = dir :=
      root_of_chosen aligned opened
    exact trans_of (Along dir full R) first (along_showMenu h single choice response u) aligned

/-- Every step goes on along the window, unless git behaves differently after it. -/
theorem along_step {s : WindowStep} (same : ∀ git, s ≠ .git git) :
    Keeps (Along dir full R) (step s) := by
  cases s with
  | click button => exact (along_click h button).bind fun _ => keeps_pure _
  | select numbers => exact (along_select h numbers).bind fun _ => keeps_pure _
  | selectCommit start => exact (along_selectCommit h start).bind fun _ => keeps_pure _
  | contextMenu row choice response =>
    exact (along_contextMenu h row choice response).bind fun _ => keeps_pure _
  | runNext =>
    have runs {S : Workspace Unit → Workspace Unit → Prop} [Std.Refl S] [IsTrans _ S]
        (serves : Serves dir S) : Keeps S (Step.runNext.run compute) := by
      apply serves.works.bind
      intro carried
      cases carried with
      | none => exact keeps_pure _
      | some b => exact keeps_pure _
    exact along_onWorkspace (runs (serves_naming dir)) (runs h)
  | git git => exact absurd rfl (same git)

end Steps

end Window

end HistoryGuard
