import HistoryGuard.Proofs.Git.Answers
import HistoryGuard.Proofs.Window.Contained
import HistoryGuard.Proofs.Window.Reached

/-! # One key for each commit

The window requests the branches of a commit under the directory and the hash of its row, the gate
reads them under the root and the hash that git tells, and a refresh forgets the directory. These
are the same if the directory is the top of its work tree. So a menu or an edit never goes by what
was asked for before the last refresh, and a row that was selected in time is judged by the rule.
-/

namespace HistoryGuard

open Run Workspace Containment

namespace Gate

variable {commit : Commit} {key : Key} {b : Branches} {w v : Workspace Unit}

/-- The gate goes by the branches that are remembered under the key, and where an edit needs them,
they are computed and remembered under the key. -/
structure Reads (commit : Commit) (key : Key) : Prop where
  presentation : ∀ (w v : Workspace Unit) repository,
    repository? commit.root w = (.ok (some repository), v) → commit.parentCount = 1 →
    enablement [commit] w = match w.cache.get? key with
      | none => (.ok .available, v)
      | some b => (Verdict.presentation <$> verdict repository b) v
  attempt : containing Workspace.compute commit = getNow (ι := Unit) Workspace.compute key

theorem reads (commit : Commit) : Reads commit commit.key := by
  constructor
  · intro w v repository found one
    rcases enablement_of_found found one with ⟨miss, shown⟩ | ⟨b, hit, shown⟩
    · rw [shown, miss]
    · rw [shown, hit]
  · funext w
    cases known : w.cache.get? commit.key with
    | none => exact containing_of_miss known
    | some b => rw [containing_of_hit known, getNow_of_hit _ known]

/-- The gate comes to a set of branches for the commit, and then to the second workspace. A
presentation takes the remembered set, and the attempt of an edit may compute one. -/
inductive Uses (commit : Commit) (b : Branches) (w : Workspace Unit) : Workspace Unit → Prop
  | presentation (hit : w.cache.get? commit.key = some b) : Uses commit b w w
  | attempt {v : Workspace Unit} (came : containing Workspace.compute commit w = (.ok b, v)) :
      Uses commit b w v

inductive Ruled (commit : Commit) (w : Workspace Unit) : Presentation → Prop
  | hidden {v : Workspace Unit} (unknown : repository? commit.root w = (.ok none, v)) :
      Ruled commit w .hidden
  | judged {verdict : Verdict} {v : Workspace Unit}
      (judged : judge Workspace.compute [commit] w = (.ok verdict, v)) :
      Ruled commit w verdict.presentation

theorem ruled_of_hit {p : Presentation} (hit : w.cache.get? commit.key = some b)
    (shown : enablement [commit] w = (.ok p, v)) : Ruled commit w p := by
  rcases found : repository? commit.root w with ⟨e | _ | repository, u⟩
  · rw [enablement, bind_of_error found] at shown
    cases shown
  · rw [enablement_unknown found] at shown
    cases shown
    exact .hidden found
  · have judged : judge Workspace.compute [commit] w = _ := judge_found found
    by_cases one : commit.parentCount = 1
    case neg =>
      rw [if_neg one] at judged
      rw [enablement_not_single_parent found one] at shown
      cases shown
      exact .judged judged
    have same : u.cache = w.cache := ((asks_repository? commit.root).of_eq found).cache
    rw [if_pos one, bind_of_ok (containing_of_hit (same ▸ hit))] at judged
    rw [(reads commit).presentation w u repository found one, hit] at shown
    dsimp only at shown
    rw [map_eq_pure_bind, bind_pure_apply] at shown
    rcases came : verdict repository b u with ⟨e | verdict, z⟩
    all_goals rw [came] at shown judged
    · cases shown
    · cases shown
      exact .judged judged

theorem known_of_getNow (came : getNow Workspace.compute key w = (.ok b, v)) :
    v.cache.get? key = some b := by
  cases known : w.cache.get? key with
  | some b' =>
    rw [getNow_of_hit _ known] at came
    cases came
    exact known
  | none =>
    have same := (asks_compute key (begun key w)).cache
    rw [getNow_of_miss _ known] at came
    rcases computed : Workspace.compute key (begun key w) with ⟨e | b', u⟩
    all_goals rw [computed] at came same
    · cases came
    · cases came
      exact Cache.get?_store.trans (if_pos ⟨congrArg (Cache.stamp · key.root) same, rfl⟩)

theorem known_of_uses (uses : Uses commit b w v) : v.cache.get? commit.key = some b := by
  cases uses with
  | presentation hit => exact hit
  | attempt came =>
    rw [(reads commit).attempt] at came
    exact known_of_getNow came

end Gate

namespace Window

variable {full : String → Prop} {dir : String} {start w v u : Window}
  {working : List (Nat × Task)} {s : Selection}

/-! ## The key of a row -/

/-- A single row that becomes selected is requested under its key, and the gate reads the commits of
a menu under the keys of their rows. -/
structure Keyed (v : Window) : Prop where
  requested : ∀ numbers row, let u := (select numbers v).2
    u.selected ≠ v.selected → u.selectedRows = [row] →
      u.workspace = (request (v.keyOf row) v.workspace).2
  read : ∀ row s u, chosen row v = (.ok (some s), u) →
    List.Forall₂ Gate.Reads s (u.selectedRows.map v.keyOf)

theorem framed_prefetch : Keeps Framed prefetch := by
  refine Keeps.bind keeps_get fun w => ?_
  split
  · exact Keeps.bind (fun _ => rfl) fun _ => keeps_pure _
  · exact keeps_pure _

theorem prefetch_snd {row : Git.LogEntry} (single : w.selectedRows = [row]) :
    (prefetch w).2 = { w with workspace := (request (w.keyOf row) w.workspace).2 } := by
  rw [prefetch, bind_get]
  simp only [single]
  exact congrArg Prod.snd (bind_pure_apply ..)

theorem select_apply (numbers : List Nat) (v : Window) :
    let selected := (List.range v.rows.length).filter fun i => numbers.contains i
    select numbers v =
      if selected = v.selected then (.ok (), v) else prefetch { v with selected } := by
  intro selected
  rw [select, bind_get]
  by_cases same : selected = v.selected
  · rw [if_pos same, if_pos same]
    rfl
  · rw [if_neg same, if_neg same]
    rfl

theorem select_of_changed {numbers : List Nat}
    (changed : (select numbers v).2.selected ≠ v.selected) :
    ∃ selected, select numbers v = prefetch { v with selected } := by
  rw [select_apply] at changed ⊢
  split at changed
  · exact absurd rfl changed
  · next other => exact ⟨_, if_neg other⟩

theorem Kept.keyed (h : Kept dir full working v) : Keyed v := by
  constructor
  · intro numbers row u changed single
    obtain ⟨selected, came⟩ := select_of_changed changed
    have after : u = (prefetch { v with selected }).2 := congrArg Prod.snd came
    have framed : Framed { v with selected } u := after ▸ framed_prefetch _
    have before : ({ v with selected } : Window).selectedRows = [row] := by
      rw [← single, framed]
      rfl
    rw [after, prefetch_snd before]
    rfl
  · intro row s u opened
    rw [← keys_of_chosen h.aligned opened, List.forall₂_map_right_iff, List.forall₂_same]
    exact fun commit _ => Gate.reads commit

/-! ## The root that is forgotten -/

/-- No root but the directory of the window has been forgotten. A refresh forgets it, and so does
every edit that the gate allows, at once from the menu or later. -/
structure Rooted (v : Window) : Prop where
  only : ∀ target, .invalidated target ∈ v.workspace.shell.journal → target = some v.dir
  refresh : .invalidated (some v.dir) :: v.workspace.shell.journal <:+
    (step (.click .refresh) v).2.workspace.shell.journal
  action : ∀ s action response y, (∀ commit, s = [commit] → commit.root = v.dir) →
    Gate.attemptEdit Workspace.compute s action.failureTitle v.workspace = (.ok true, y) →
    ∃ earlier, y.shell.journal <:+ earlier ∧ .invalidated (some v.dir) :: earlier <:+
      (runAction action s response v).2.workspace.shell.journal
  menu : ∀ row choice response s u action y, chosen row v = (.ok (some s), u) →
    allowedAction s choice u.workspace = (.ok (some action), y) →
    ∃ earlier, y.shell.journal <:+ earlier ∧ .invalidated (some v.dir) :: earlier <:+
      (step (.contextMenu row choice response) v).2.workspace.shell.journal

theorem suffix_of_along (aligned : Aligned dir full v)
    (h : Along dir full (Within (Event.Naming dir)) v u) :
    v.workspace.shell.journal <:+ u.workspace.shell.journal := by
  obtain ⟨-, -, es, journal, -⟩ := h aligned
  rw [journal]
  exact List.suffix_append es _

theorem suffix_of_allowed {action : Action} {y : Workspace Unit} (response : Dialog.Response)
    (aligned : Aligned dir full w) (single : ∀ commit, s = [commit] → commit.root = dir)
    (allowed : Gate.attemptEdit Workspace.compute s action.failureTitle w.workspace =
      (.ok true, y)) :
    ∃ earlier, y.shell.journal <:+ earlier ∧ .invalidated (some dir) :: earlier <:+
      (runAction action s response w).2.workspace.shell.journal := by
  obtain ⟨approval⟩ := Gate.attemptEdit_eq_true_iff.mp allowed
  obtain ⟨commit, rfl⟩ : ∃ commit, s = [commit] := ⟨_, approval.single⟩
  let edit := response.edit action
  let performs := onWorkspace (edit.perform Workspace.compute [commit])
  have performed : performs w = (Edit.answer (edit.carryOut commit y.shell).1,
      { w with workspace := (invalidate (some commit.root) (edit.carriedOut commit y)).2 }) := by
    apply onWorkspace_of_eq
    exact Edit.perform_of_allowed ((action_edit response action).symm ▸ allowed)
  have serves := serves_naming dir
  have first : Along dir full (Within (Event.Naming dir)) w (performs w).2 :=
    along_onWorkspace (serves.perform single edit) (serves.perform single edit) w
  have rest : Along dir full (Within (Event.Naming dir)) (performs w).2
      (runAction action [commit] response w).2 :=
    Keeps.after (fun changed => along_reload serves changed) performs w
  have grown := suffix_of_along (first aligned).1 rest
  rw [performed] at grown
  obtain ⟨es, journal, -⟩ := edit.carriedOut_journal commit y
  refine ⟨(edit.carriedOut commit y).shell.journal, ⟨es, journal.symm⟩, ?_⟩
  rw [← single commit rfl]
  exact grown

theorem Kept.rooted (h : Kept dir full working v) : Rooted v := by
  have aligned := h.aligned
  obtain rfl := aligned.here
  have serves := serves_naming v.dir
  constructor
  · exact fun target he => h.named _ he target rfl
  · let w : Window := { v with workspace := (invalidate (some v.dir) v.workspace).2 }
    have loaded : Along v.dir full (Within (Event.Naming v.dir)) w (loadHistory w).2 :=
      along_loadHistory serves w
    have same : (step (.click .refresh) v).2 = (loadHistory w).2 :=
      congrArg Prod.snd (bind_pure_apply ..)
    rw [same]
    exact suffix_of_along (v := w) ⟨rfl, aligned.git, aligned.rows⟩ loaded
  · exact fun s action response y single allowed =>
      suffix_of_allowed response aligned single allowed
  · intro row choice response s u action y opened asked
    obtain ⟨menu, x, offered, allowed, ran⟩ := showMenu_of_allowed response asked
    have same : (step (.contextMenu row choice response) v).2 =
        (showMenu s choice response u).2 := by
      rw [show step (.contextMenu row choice response) v = _ from bind_pure_apply ..,
        contextMenu_eq, bind_of_ok opened]
    have there := ((along_chosen serves row).of_eq opened aligned).1
    have within : Within (Event.Naming v.dir) u.workspace x := (serves.entries s).of_eq offered
    have shown : Aligned v.dir full { u with workspace := x, menus := menu :: u.menus } :=
      ⟨there.here, (show x.shell.git = _ from within.git) ▸ there.git, there.rows⟩
    rw [same, ran]
    exact suffix_of_allowed response shown (fun commit => root_of_chosen aligned opened) allowed

/-! ## After a root was forgotten -/

/-- What the gate takes for a commit of the window has been computed after these events, and what
was outstanding before is never remembered. -/
structure Renewed (full : String → Prop) (start : Window) (events : List Event) (v : Window) :
    Prop where
  used : ∀ commit b y z, commit.root = v.dir → Beside (Event.isQuery ·) v.workspace y →
    Gate.Uses commit b y z → ∃ later, z.shell.journal = later ++ events ∧
      Session.Computed later commit.key b
  stale : ∀ working t, Reaches full start working t → t.workspace.shell.journal <:+ events.tail →
    ∀ task ∈ t.workspace.cache.outstanding, task.key.root = v.dir →
      ∀ b, (v.workspace.cache.finish task b).entries = v.workspace.cache.entries

theorem onward_of_uses {commit : Commit} {b : Branches} {y z : Workspace Unit}
    (uses : Gate.Uses commit b y z) : Onward y z := by
  cases uses with
  | presentation hit => exact refl_of Onward y
  | attempt came =>
    rw [(Gate.reads commit).attempt] at came
    exact ((serves_onward "").looks commit.key).of_eq came

theorem renewed_of_reaches (initial : Initial start)
    (canonical : start.workspace.shell.git.Canonical start.dir full)
    (reaches : Reaches full start working v) {earlier : List Event}
    (forgotten : .invalidated (some v.dir) :: earlier <:+ v.workspace.shell.journal) :
    Renewed full start (.invalidated (some v.dir) :: earlier) v := by
  have kept := kept_of_reaches initial canonical reaches
  constructor
  · intro commit b y z here beside uses
    have onward : Onward v.workspace z :=
      trans_of Onward (onward_of_asks beside) (onward_of_uses uses)
    obtain ⟨es, journal, -⟩ := onward.sound.later.journal
    have fresh := (onward.sound.sound kept.orderly.sound).fresh _ _ (Gate.known_of_uses uses)
    rw [← here]
    apply Session.computed_of_fresh fresh
    rw [journal, show commit.key.root = v.dir from here]
    exact forgotten.trans (List.suffix_append es _)
  · intro working' t reached before task outstanding root b
    have then? := kept_of_reaches initial canonical reached
    have stale : v.workspace.cache.stamp task.key.root ≠ task.stamp :=
      stale_of_counted then?.orderly.counted kept.orderly.counted (.inr (congrArg some root.symm))
        before forgotten (then?.orderly.sound.timely task outstanding)
    rw [Cache.finish, Cache.store_of_stale b (by exact stale)]
    rfl

/-! ## A row that was selected in time -/

/-- If a single row becomes selected, and all work in the background comes to its results, the menu
over the row is what the rule says of the commit, with the branches remembered that contain it. -/
def Prefetches (working : List (Nat × Task)) (v : Window) : Prop :=
  ∀ i row working' y s u, v.rows[i]? = some row → v.selected ≠ [i] →
    let selected := (select [i] v).2
    Relation.ReflTransGen (Works Succeeds) (working, selected.workspace) (working', y) →
    y.cache.outstanding = [] →
    chosen (some i) { selected with workspace := y } = (.ok (some s), u) →
    ∃ commit b, s = [commit] ∧ commit.key = v.keyOf row ∧
      u.workspace.cache.get? (v.keyOf row) = some b ∧
      ∀ menu z, entries s u.workspace = (.ok menu, z) → ∀ e ∈ menu, ∃ x,
        Beside (Event.isQuery ·) u.workspace x ∧ Gate.Ruled commit x e.presentation

theorem filter_range_single {i n : Nat} (inside : i < n) :
    ((List.range n).filter fun j => [i].contains j) = [i] := by
  have same : (fun j => [i].contains j) = (· == i) := by
    funext j
    rw [List.contains_cons, List.contains_nil, Bool.or_false]
  rw [same, List.filter_beq, List.count_eq_one_of_mem List.nodup_range (List.mem_range.mpr inside)]
  rfl

variable {i : Nat} {row : Git.LogEntry} {b : Branches}

theorem selectedRows_single (only : w.selected = [i]) (listed : w.rows[i]? = some row) :
    w.selectedRows = [row] := by
  simp [selectedRows, only, listed]

theorem select_single (listed : v.rows[i]? = some row) (other : v.selected ≠ [i]) :
    (select [i] v).2 =
      { v with selected := [i], workspace := (request (v.keyOf row) v.workspace).2 } := by
  obtain ⟨inside, -⟩ := List.getElem?_eq_some_iff.mp listed
  let w : Window := { v with selected := [i] }
  have single : w.selectedRows = [row] := selectedRows_single rfl listed
  rw [select_apply, filter_range_single inside, if_neg (Ne.symm other)]
  exact prefetch_snd single

theorem selection_of_selected (here : i ∈ w.selected)
    (opened : chosen (some i) w = (.ok (some s), u)) : selection w = (.ok s, u) := by
  obtain ⟨_, v, ⟨⟩, -, focused, told⟩ := selection_of_chosen opened
  have still : focus i w = (.ok (), w) := by
    rw [focus, bind_get, if_neg (by simpa using here)]
    rfl
  rw [still] at focused
  cases focused
  exact told

/-- The menu over the only selected row goes by the rule, if the key of the row is remembered. -/
theorem ruled_of_known (aligned : Aligned dir full w) (only : w.selected = [i])
    (listed : w.rows[i]? = some row) (known : w.workspace.cache.get? (w.keyOf row) = some b)
    (opened : chosen (some i) w = (.ok (some s), u)) :
    ∃ commit, s = [commit] ∧ commit.key = w.keyOf row ∧
      u.workspace.cache.get? (w.keyOf row) = some b ∧
      ∀ menu z, entries s u.workspace = (.ok menu, z) → ∀ e ∈ menu, ∃ x,
        Beside (Event.isQuery ·) u.workspace x ∧ Gate.Ruled commit x e.presentation := by
  have told : selection w = (.ok s, u) := selection_of_selected (by simp [only]) opened
  have asked := ((along_selection upholds_asking).of_eq told aligned).2
  have keys : s.map Commit.key = [w.keyOf row] := by
    have framed : Framed w u := framed_selection.of_eq told
    have rows : u.selectedRows = [row] := by
      rw [framed]
      exact selectedRows_single only listed
    rw [keys_of_chosen aligned opened, rows]
    rfl
  obtain ⟨commit, rest, rfl, key, none⟩ := List.map_eq_cons_iff.mp keys
  obtain rfl := List.map_eq_nil_iff.mp none
  have hit : u.workspace.cache.get? (w.keyOf row) = some b := by rw [asked.cache, known]
  refine ⟨commit, rfl, key, hit, fun menu z offered e he => ?_⟩
  obtain ⟨x, x', beside, shown⟩ := shown_of_offered offered he
  refine ⟨x, beside, Gate.ruled_of_hit (b := b) ?_ shown⟩
  rw [beside.cache, key, hit]

theorem prefetches_of_reaches (initial : Initial start)
    (canonical : start.workspace.shell.git.Canonical start.dir full)
    (reaches : Reaches full start working v) : Prefetches working v := by
  intro i row working' y s u listed other selected drained idle opened
  have kept := kept_of_reaches initial canonical reaches
  have same : (step (.select [i]) v).2 = selected := congrArg Prod.snd (bind_pure_apply ..)
  have reached : Reaches full start working selected :=
    same ▸ .step reaches (s := .select [i]) nofun
  have later := kept_of_reaches initial canonical (reaches_of_works reached drained)
  have after : selected = _ := select_single listed other
  have requested : selected.workspace.cache.Owed (v.keyOf row) := by
    rw [after, request_snd]
    exact kept.orderly.booked.owed_request kept.unclosed _
  have owed : y.cache.Owed (v.keyOf row) := owed_of_works drained requested
  obtain ⟨b, known⟩ :=
    Option.ne_none_iff_exists'.mp (owed.resolve_right (idle ▸ List.not_mem_nil))
  have waited : ({ selected with workspace := y } : Window) =
      { v with selected := [i], workspace := y } := by rw [after]
  rw [waited] at later opened
  obtain ⟨commit, ruled⟩ := ruled_of_known later.aligned rfl listed known opened
  exact ⟨commit, b, ruled⟩

/-- A window that is about to be opened on the commit `c`. -/
def closedWindow : Window where
  dir := "/work"
  workspace :=
    { shell := { git := workGit "" }
      policy := .protection {}
      lookup := .registry { workDir := "/work" }
      own := () }

theorem output_workGit (text : String) {args : List String} {out : String} {x y : Shell}
    (prints : ∀ past, workGit "" past { args, dir := "/work" } =
      .ended 0 text.toByteArray "".toByteArray)
    (plain : Shell.decode text.toByteArray = some text) (same : x.git = workGit "")
    (told : Shell.output "/work" args x = (.ok out, y)) : out = text := by
  have always : Prints (workGit "") { args, dir := "/work" } 0 text :=
    fun past => ⟨_, _, "", prints past, plain, rfl⟩
  obtain ⟨_, _, printed, rfl, -⟩ := always.output x same
  rw [told] at printed
  cases printed
  rfl

theorem canonical_workGit : (workGit "").Canonical "/work" (· = "c") := by
  constructor
  · intro x y root same told
    obtain ⟨out, _, printed, told⟩ := bind_eq_ok.mp told
    obtain ⟨rfl, -⟩ := pure_eq_ok.mp told
    obtain rfl := output_workGit "/work\n" (fun _ => rfl) rfl same printed
    decide +kernel
  · intro x y rows same told
    obtain ⟨out, _, printed, told⟩ := bind_eq_ok.mp told
    obtain ⟨rfl, -⟩ := pure_eq_ok.mp told
    obtain rfl := output_workGit "c m\n" (fun _ => rfl) rfl same printed
    decide +kernel
  · rintro sha rfl x y answer same told
    obtain ⟨out, _, printed, told⟩ := bind_eq_ok.mp told
    obtain rfl := output_workGit "c p\n" (fun _ => rfl) rfl same printed
    have words : Text.fields "c p\n" = ["c", "p"] := by decide +kernel
    rw [words] at told
    obtain ⟨rfl, -⟩ := pure_eq_ok.mp told
    rfl

end Window

end HistoryGuard
