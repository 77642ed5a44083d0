import HistoryGuard.Proofs.Window.Menu

/-! # Failures that end in a box

The window catches the failures of git and shows each in a box, and goes on. Only what the gate
asks for the menu, and for the action that is chosen from it, is not caught: if git fails there,
the failure leaves the window.
-/

namespace HistoryGuard.Window

open Run Workspace Containment

variable {w v u : Window}

/-- The step ends without a failure, and these boxes are shown. -/
def EndsIn (step : WindowStep) (w : Window) (boxes : List Notice) : Prop :=
  let r := report (Window.step step) w
  r.outcome = .ok .nothing ∧ r.events.filterMap Event.notice? = boxes

theorem endsIn_of_told {handler : Run Window Unit} {which : WindowStep} {boxes : List Notice}
    (handles : step which = handler >>= fun _ => pure .nothing) (done : handler w = (.ok (), v))
    (told : Told boxes w.workspace v.workspace) : EndsIn which w boxes := by
  obtain ⟨-, es, journal, shown⟩ := told
  have ended : step which w = (.ok .nothing, v) := by
    rw [handles, bind_of_ok done]
    rfl
  rw [EndsIn, report, ended]
  dsimp only
  rw [journal, added_append]
  exact ⟨rfl, shown⟩

theorem contextMenu_fails (row choice : Option Nat) (response : Dialog.Response) (tame : w.Tame)
    {e : Failure} (own : e.isOwn = true) :
    (contextMenu row choice response w).1 = .error e ↔ e.isCommand = true ∧
      ∃ s u, chosen row w = (.ok (some s), u) ∧
        (allowedAction s choice u.workspace).1 = .error e := by
  obtain ⟨stays, fails⟩ := raises_chosen row w tame
  rw [contextMenu_eq, bind_apply]
  rcases opened : chosen row w with ⟨f | _ | s, u⟩
  · rw [opened] at fails
    constructor
    · rintro ⟨⟩
      simp [fails e rfl] at own
    · rintro ⟨-, s, v, ⟨⟩, -⟩
  · constructor
    · rintro ⟨⟩
    · rintro ⟨-, s, v, ⟨⟩, -⟩
  · rw [opened] at stays
    have follows := showMenu_follows s choice response stays
    constructor
    · intro failed
      exact ⟨follows.regular failed own, s, u, rfl, follows.fails_iff.mp failed⟩
    · rintro ⟨-, _, _, ⟨⟩, failed⟩
      exact follows.fails_iff.mpr failed

/-- The window shows the failures of git instead of passing them on, whether git fails to list the
history, to tell the commits under the menu, or to carry an edit out. Of the failures that the
program raises itself only that of a git command leaves the window, and only where the gate asks
git for the menu or for the action that is chosen from it. -/
theorem failures_contained (tame : w.Tame) :
    EndsIn (.click .refresh) w
      (historyBoxes w.dir (w.workspace.shell.log (.invalidated (some w.dir)))) ∧
    ∀ row choice response,
      let r := report (step (.contextMenu row choice response)) w
      (∀ e, e.isOwn = true → (r.outcome = .error e ↔ e.isCommand = true ∧
        ∃ s u, chosen row w = (.ok (some s), u) ∧
          (allowedAction s choice u.workspace).1 = .error e)) ∧
      (∀ i u e, row = some i → i < w.rows.length → focus i w = (.ok (), u) →
        (selection u).1 = .error e → EndsIn (.contextMenu row choice response) w [errorBox e]) ∧
      ∀ commit u action y e, chosen row w = (.ok (some [commit]), u) →
        allowedAction [commit] choice u.workspace = (.ok (some action), y) →
        ((response.edit action).carryOut commit y.shell).1 = .error e →
        let z := (invalidate (some commit.root) ((response.edit action).carriedOut commit y)).2
        EndsIn (.contextMenu row choice response) w
          (⟨.critical, action.failureTitle, e.message⟩ :: historyBoxes w.dir z.shell) := by
  constructor
  · obtain ⟨v, loaded, told⟩ := loadHistory_told
      (w := { w with workspace := (invalidate (some w.dir) w.workspace).2 }) tame
    have forgot : Silent w.workspace (invalidate (some w.dir) w.workspace).2 :=
      silent_of_log rfl rfl
    have refreshed : refresh w = (.ok (), v) := loaded
    exact endsIn_of_told rfl refreshed (forgot.told.trans told)
  intro row choice response r
  have ended : r.outcome = (contextMenu row choice response w).1.map fun _ => .nothing :=
    congrArg Prod.fst (bind_pure_apply ..)
  refine ⟨fun e own => ?_, ?_, ?_⟩
  · rw [← contextMenu_fails row choice response tame own, ended]
    rcases (contextMenu row choice response w).1 with _ | _ <;> simp [Except.map]
  · rintro i u e rfl here focused failed
    obtain ⟨v, opened, told⟩ := chosen_of_failed tame here focused failed
    refine endsIn_of_told rfl ?_ told
    rw [contextMenu_eq, bind_of_ok opened]
    rfl
  · intro commit u action y e opened asked failed z
    have still := still_of_chosen opened
    have follows := showMenu_follows [commit] choice response (still.tame tame)
    rw [asked] at follows
    rcases ran : showMenu [commit] choice response u with ⟨outcome, v⟩
    rw [ran] at follows
    cases follows with
    | edited single silent told =>
      obtain rfl := List.singleton_inj.mp single
      refine endsIn_of_told rfl ?_
        ((still.silent.told.trans silent.told).trans (still.dir ▸ told e failed))
      rw [contextMenu_eq, bind_of_ok opened]
      exact ran

/-- Git on the branch `topic` with the commit `c` and its parent `p`, where commands of one kind
fail. -/
def workGit (bad : String) : Git := fun _ call =>
  let out := match call.args with
    | "rev-parse" :: "--show-toplevel" :: _ => "/work\n"
    | "rev-list" :: "--parents" :: _ => "c p\n"
    | "rev-list" :: "--reverse" :: _ => "c\n"
    | "log" :: _ => "c m\n"
    | "symbolic-ref" :: _ => "topic\n"
    | _ => ""
  if call.args.head? = some bad then .ended 128 "".toByteArray "fatal\n".toByteArray
  else .ended 0 out.toByteArray "".toByteArray

theorem tame_workGit (bad : String) : (workGit bad).Tame := by
  intro past c
  rw [workGit]
  split
  · exact ⟨_, _, _, _, _, rfl, Shell.decode_toByteArray _, Shell.decode_toByteArray _⟩
  · exact ⟨_, _, _, _, _, rfl, Shell.decode_toByteArray _, Shell.decode_toByteArray _⟩

def workCommit : Commit := { sha := "c", root := "/work", parents := ["p"] }

def workWindow (bad : String) : Window where
  dir := "/work"
  workspace :=
    { shell := { git := workGit bad }
      policy := .protection {}
      lookup := .registry { workDir := "/work" }
      cache := { entries := Table.empty.put workCommit.key (.ofList ["topic"]) }
      own := () }
  rows := [⟨"c", "m"⟩]
  selected := [0]

theorem failures_contained_stuck :
    let response : Dialog.Response := { text := some "n" }
    EndsIn (.contextMenu (some 0) (some 0) response) (workWindow "rebase")
      [⟨.critical, "Can't Edit Message", "git command failed: git rebase -i p\nfatal"⟩] := by
  intro response
  let u := (chosen (some 0) (workWindow "rebase")).2
  let y := (allowedAction [workCommit] (some 0) u.workspace).2
  let edit := response.edit .reword
  let box : Notice :=
    ⟨.critical, "Can't Edit Message", "git command failed: git rebase -i p\nfatal"⟩
  let later :=
    historyBoxes "/work" (invalidate (some "/work") (edit.carriedOut workCommit y)).2.shell
  have tame : (workWindow "rebase").Tame := tame_workGit _
  have opened : (chosen (some 0) (workWindow "rebase")).1 = .ok (some [workCommit]) := by
    decide +kernel
  have asked : (allowedAction [workCommit] (some 0) u.workspace).1 = .ok (some .reword) := by
    decide +kernel
  have failed : (edit.carryOut workCommit y.shell).1 =
      .error (.commandFailed ["git", "rebase", "-i", "p"] "fatal" (some 128)) := by
    decide +kernel
  have listed : later = [] := by decide +kernel
  obtain ⟨-, menu⟩ := failures_contained tame
  obtain ⟨-, -, edited⟩ := menu (some 0) (some 0) response
  have shown : EndsIn (.contextMenu (some 0) (some 0) response) (workWindow "rebase")
      (box :: later) :=
    edited workCommit u .reword y _ (eq_of_fst opened) (eq_of_fst asked) failed
  rwa [listed] at shown

/-- The failure leaves the window if git does not tell the branch of the head while the menu is
made. -/
theorem unnamed_head_escapes :
    let w := workWindow "symbolic-ref"
    let r := report (step (.contextMenu (some 0) none {})) w
    w.Tame ∧ r.outcome = .error (.commandFailed
        ["git", "symbolic-ref", "--short", "-q", "HEAD"] "fatal" (some 128)) ∧
      r.events.filterMap Event.notice? = [] := by
  have tame : (workWindow "symbolic-ref").Tame := tame_workGit _
  have escaped :
      let r := report (step (.contextMenu (some 0) none {})) (workWindow "symbolic-ref")
      r.outcome = .error (.commandFailed
        ["git", "symbolic-ref", "--short", "-q", "HEAD"] "fatal" (some 128)) ∧
      r.events.filterMap Event.notice? = [] := by
    decide +kernel
  intro w r
  exact And.intro tame escaped

end HistoryGuard.Window
