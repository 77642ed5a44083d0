import HistoryGuard.Proofs.Edit.Forgetting
import HistoryGuard.Proofs.Window.History

/-! # The menu

A menu is opened in two stages: the commits are told that it is opened for, and the gate is asked
what to offer for them. The first stage and the edit that may follow the second show what goes
wrong. So a menu fails no differently than the gate does.
-/

namespace HistoryGuard

open Run Workspace Containment

namespace Edit

variable {ι : Type} {w : Workspace ι}

theorem told_of_carriedOut {edit : Edit} {commit : Commit} {e : Failure}
    (failed : (edit.carryOut commit w.shell).1 = .error e) (told : e.isTold = true) :
    Told [⟨.critical, edit.action.failureTitle, e.message⟩] w
      (invalidate (some commit.root) (edit.carriedOut commit w)).2 := by
  have quiet : w.shell.Grows (·.isNotice = false) (edit.carryOut commit w.shell).2 :=
    edit.grows_carryOut (fun _ _ => rfl) (fun _ _ => rfl) commit w.shell
  rw [carriedOut]
  rcases came : edit.carryOut commit w.shell with ⟨outcome, t⟩
  rw [came] at quiet failed
  obtain rfl : outcome = .error e := failed
  have asked : Silent w { w with shell := t } := quiet
  simp only [notices, if_pos told]
  exact (asked.told.trans (told_notice ..)).trans (silent_of_log rfl rfl).told

end Edit

namespace Window

variable {w v u : Window}

/-! ## The selection -/

/-- Makes a row the selected one, unless it is among the selected ones. -/
def focus (i : Nat) : Run Window Unit := do
  let w ← Run.get
  if !w.selected.contains i then select [i]

/-- The commits that the menu is opened for. There are none if it is opened over no row, or if git
fails. -/
def chosen (row : Option Nat) : Run Window (Option Selection) := do
  let w ← Run.get
  match row.filter (· < w.rows.length) with
  | none => return none
  | some i =>
    focus i
    onGitFailure (some <$> selection) fun e => do
      showError e
      return none

theorem contextMenu_eq (row choice : Option Nat) (response : Dialog.Response) :
    contextMenu row choice response = chosen row >>= fun s? =>
      match s? with
      | none => pure ()
      | some s => showMenu s choice response := by
  funext w
  have here : Run.get w = (.ok w, w) := rfl
  rw [contextMenu, chosen, bind_assoc, bind_of_ok here, bind_of_ok here]
  cases row.filter (· < w.rows.length) with
  | none => rfl
  | some i =>
    dsimp only
    rw [bind_assoc, focus, bind_assoc, bind_of_ok here]
    cases w.selected.contains i <;> rfl

theorem still_focus (i : Nat) : Keeps Still (focus i) := by
  have prefetch : Keeps Still prefetch := by
    refine Keeps.bind keeps_get fun w => ?_
    split
    · refine (still_onWorkspace fun u => ?_).bind fun _ => keeps_pure _
      rw [request_snd]
      exact refl_of (Shell.Grows _) u.shell
    · exact keeps_pure _
  refine Keeps.bind keeps_get fun w => ?_
  split
  · refine Keeps.bind keeps_get fun w => ?_
    dsimp only
    split
    · exact keeps_pure _
    · exact Keeps.bind (keeps_modify fun w => ⟨rfl, refl_of Silent w.workspace⟩) fun _ => prefetch
  · exact keeps_pure _

theorem still_selection : Keeps Still selection := by
  refine Keeps.bind keeps_get fun w => ?_
  have asked (row : Git.LogEntry) : Keeps Still (onShell (Git.commit w.dir row.sha)) :=
    still_query (Git.asks_commit w.dir row.sha)
  exact keeps_mapM asked w.selectedRows

theorem raises_request (key : Key) :
    Raises (·.shell.git.Tame) (·.isOwn = false) (request (ι := Unit) key) := by
  intro w tame
  refine ⟨by rw [request_snd]; exact tame, fun e failed => ?_⟩
  cases knows : w.cache.knows key with
  | true => simp [request_of_knows knows] at failed
  | false =>
    cases closed : w.cache.closed with
    | true =>
      rw [request_of_closed knows closed] at failed
      cases failed
      rfl
    | false => simp [request_of_open knows closed] at failed

theorem raises_focus (i : Nat) : Raises Tame (·.isOwn = false) (focus i) := by
  have prefetch : Raises Tame (·.isOwn = false) prefetch := by
    refine Raises.bind raises_get fun w => ?_
    split
    · exact (raises_onWorkspace (raises_request _)).bind fun _ => raises_pure _
    · exact raises_pure _
  refine Raises.bind raises_get fun w => ?_
  split
  · refine Raises.bind raises_get fun w => ?_
    dsimp only
    split
    · exact raises_pure _
    · exact Raises.bind (raises_modify fun _ tame => tame) fun _ => prefetch
  · exact raises_pure _

theorem raises_selection : Raises Tame (·.isCommand = true) selection := by
  refine Raises.bind raises_get fun w => ?_
  have asked (row : Git.LogEntry) :
      Raises Tame (·.isCommand = true) (onShell (Git.commit w.dir row.sha)) :=
    raises_query (Git.shows_commit w.dir row.sha)
  exact raises_mapM asked w.selectedRows

theorem raises_chosen (row : Option Nat) : Raises Tame (·.isOwn = false) (chosen row) := by
  refine Raises.bind raises_get fun w => ?_
  split
  · exact raises_pure _
  · next i _ =>
    have selected : Raises Tame (·.isCommand = true) (some <$> selection) := by
      rw [map_eq_pure_bind]
      exact raises_selection.bind fun _ => raises_pure _
    have told (e : Failure) : Raises Tame (·.isOwn = false) (showError e) :=
      raises_onWorkspace (raises_onShell (Git.raises_note _))
    exact (raises_focus i).bind fun _ =>
      raises_onGitFailure selected fun e => (told e).bind fun _ => raises_pure none

theorem selected_apply (w : Window) :
    onGitFailure (some <$> selection) (fun e => do showError e; return none) w =
      match selection w with
      | (.ok s, v) => (.ok (some s), v)
      | (.error e, v) => if e.isCommand then (.ok none, (showError e v).2) else (.error e, v) := by
  rw [onGitFailure_apply, map_eq_pure_bind, bind_pure_apply]
  rcases selection w with ⟨e | s, v⟩ <;> rfl

theorem selection_of_chosen {row : Option Nat} {s : Selection}
    (h : chosen row w = (.ok (some s), u)) :
    ∃ i v, row = some i ∧ i < w.rows.length ∧ focus i w = (.ok (), v) ∧
      selection v = (.ok s, u) := by
  have here : Run.get w = (.ok w, w) := rfl
  rw [chosen, bind_of_ok here] at h
  cases under : row.filter (· < w.rows.length) with
  | none =>
    simp only [under] at h
    cases h
  | some i =>
    simp only [under] at h
    obtain ⟨rfl, inside⟩ := Option.filter_eq_some_iff.mp under
    obtain ⟨_, v, focused, h⟩ := bind_eq_ok.mp h
    refine ⟨i, v, rfl, of_decide_eq_true inside, focused, ?_⟩
    rw [selected_apply] at h
    rcases came : selection v with ⟨e | s', v'⟩
    · simp only [came] at h
      split at h <;> cases h
    · simp only [came] at h
      cases h
      rfl

theorem still_of_chosen {row : Option Nat} {s : Selection} (h : chosen row w = (.ok (some s), u)) :
    Still w u := by
  obtain ⟨i, v, -, -, focused, told⟩ := selection_of_chosen h
  exact trans_of Still ((still_focus i).of_eq focused) (still_selection.of_eq told)

theorem chosen_of_failed {i : Nat} {e : Failure} (tame : w.Tame) (here : i < w.rows.length)
    (focused : focus i w = (.ok (), u)) (failed : (selection u).1 = .error e) :
    ∃ v, chosen (some i) w = (.ok none, v) ∧ Told [errorBox e] w.workspace v.workspace := by
  have get : Run.get w = (.ok w, w) := rfl
  have row : (some i).filter (· < w.rows.length) = some i := by simp [here]
  have still := (still_focus i).of_eq focused
  have command := (raises_selection u (still.tame tame)).2 e failed
  rcases came : selection u with ⟨outcome, v⟩
  have selected : Still u v := still_selection.of_eq came
  obtain rfl : outcome = .error e := by simpa [came] using failed
  have quiet : Told [] w.workspace v.workspace := still.silent.told.trans selected.silent.told
  refine ⟨(showError e v).2, ?_, quiet.trans (told_notice (errorBox e) v.workspace)⟩
  rw [chosen, bind_of_ok get]
  simp only [row]
  rw [bind_of_ok focused, selected_apply, came]
  simp only [command, if_true]

/-! ## The menu -/

section Menu

variable {s : Selection} {choice : Option Nat} {response : Dialog.Response} {action : Action}
  {y : Workspace Unit}

def attempted (s : Selection) (action : Action) : Run (Workspace Unit) (Option Action) := do
  if ← Gate.attemptEdit Workspace.compute s action.failureTitle then return some action
  else return none

def allowedAction (s : Selection) (choice : Option Nat) :
    Run (Workspace Unit) (Option Action) := do
  let menu ← entries s
  match choice.bind (menu[·]?) with
  | some ⟨action, .available⟩ => attempted s action
  | _ => return none

def entry (s : Selection) (action : Action) : Run (Workspace Unit) Entry := do
  return ⟨action, ← Gate.enablement s⟩

theorem silent_entries (s : Selection) : Keeps Silent (entries s) :=
  keeps_mapM (f := entry s) (fun _ => (upholds_silent.enablement s).bind fun _ => keeps_pure _) _

theorem raises_entries (s : Selection) :
    Raises (·.shell.git.Tame) Failure.Regular (entries s) :=
  raises_mapM (f := entry s) (fun _ => (Gate.raises_enablement s).bind fun _ => raises_pure _) _

theorem finds_of_offered {actions : List Action} {menu : List Entry} {x y : Workspace Unit}
    (h : actions.mapM (entry s) x = (.ok menu, y)) (offered : ⟨action, .available⟩ ∈ menu) :
    ∃ commit, s = [commit] ∧ y.lookup.Finds commit.root := by
  induction actions generalizing x menu with
  | nil =>
    cases h
    cases offered
  | cons first rest ih =>
    rw [List.mapM_cons] at h
    obtain ⟨e, z, made, h⟩ := bind_eq_ok.mp h
    obtain ⟨es, y', others, h⟩ := bind_eq_ok.mp h
    obtain ⟨rfl, rfl⟩ := pure_eq_ok.mp h
    rcases List.mem_cons.mp offered with here | later
    · obtain ⟨p, z', enabled, h⟩ := bind_eq_ok.mp made
      obtain ⟨rfl, rfl⟩ := pure_eq_ok.mp h
      obtain ⟨-, rfl⟩ := Entry.mk.inj here
      obtain ⟨commit, rfl, finds⟩ := Gate.finds_of_available enabled
      have again : Keeps (FindsAgain commit.root) (rest.mapM (entry [commit])) :=
        keeps_mapM (fun _ => (upholds_findsAgain.enablement [commit]).bind fun _ => keeps_pure _) _
      exact ⟨commit, rfl, again.of_eq others finds⟩
    · exact ih others later

/-- Every entry of a menu is made from what the gate presents, after some questions to git. -/
theorem shown_of_offered {actions : List Action} {menu : List Entry} {x y : Workspace Unit}
    (h : actions.mapM (entry s) x = (.ok menu, y)) {e : Entry} (offered : e ∈ menu) :
    ∃ z z', Beside (Event.isQuery ·) x z ∧ Gate.enablement s z = (.ok e.presentation, z') := by
  induction actions generalizing x menu with
  | nil =>
    cases h
    cases offered
  | cons first rest ih =>
    rw [List.mapM_cons] at h
    obtain ⟨made, z, asked, h⟩ := bind_eq_ok.mp h
    obtain ⟨others, y', later, h⟩ := bind_eq_ok.mp h
    obtain ⟨rfl, rfl⟩ := pure_eq_ok.mp h
    obtain ⟨p, z', shown, done⟩ := bind_eq_ok.mp asked
    obtain ⟨rfl, rfl⟩ := pure_eq_ok.mp done
    rcases List.mem_cons.mp offered with rfl | offered
    · exact ⟨x, z', refl_of _ x, shown⟩
    · obtain ⟨z, z'', beside, shown⟩ := ih later offered
      exact ⟨z, z'', trans_of _ ((upholds_asking.enablement s).of_eq ‹_›) beside, shown⟩

theorem showMenu_of_offered {menu : List Entry} {x : Workspace Unit}
    (offered : entries s w.workspace = (.ok menu, x)) :
    showMenu s choice response w =
      (match choice.bind (menu[·]?) with
        | some ⟨action, .available⟩ => runAction action s response
        | _ => pure ()) { w with workspace := x, menus := menu :: w.menus } := by
  rw [showMenu, bind_of_ok (onWorkspace_of_eq offered)]
  rfl

theorem showMenu_of_allowed (response : Dialog.Response)
    (asked : allowedAction s choice w.workspace = (.ok (some action), y)) :
    ∃ menu x, entries s w.workspace = (.ok menu, x) ∧
      Gate.attemptEdit Workspace.compute s action.failureTitle x = (.ok true, y) ∧
      showMenu s choice response w =
        runAction action s response { w with workspace := x, menus := menu :: w.menus } := by
  obtain ⟨menu, x, offered, asked⟩ := bind_eq_ok.mp asked
  rcases pick : choice.bind (menu[·]?) with _ | ⟨picked, presentation⟩
  · simp only [pick] at asked
    cases asked
  cases presentation with
  | hidden =>
    simp only [pick] at asked
    cases asked
  | disabled reason =>
    simp only [pick] at asked
    cases asked
  | available =>
    simp only [pick] at asked
    obtain ⟨allowed, z, attempt, done⟩ := bind_eq_ok.mp asked
    cases allowed with
    | false => cases done
    | true =>
      cases done
      exact ⟨menu, x, offered, attempt, by rw [showMenu_of_offered offered, pick]⟩

/-- How a menu goes on from the answer of the gate: it fails as the gate does, or it comes to an end
without an edit or after one. An edit that could not be carried out is told of. -/
inductive Follows (response : Dialog.Response) (s : Selection) (dir : String)
    (x : Workspace Unit) :
    Except Failure (Option Action) × Workspace Unit → Except Failure Unit × Window → Prop
  | failed {e : Failure} {y : Workspace Unit} {v : Window} (regular : e.Regular) :
    Follows response s dir x (.error e, y) (.error e, v)
  | unchanged {y : Workspace Unit} {v : Window} : Follows response s dir x (.ok none, y) (.ok (), v)
  | edited {commit : Commit} {action : Action} {y : Workspace Unit} {v : Window}
    (single : s = [commit]) (silent : Silent x y)
    (told : ∀ e, ((response.edit action).carryOut commit y.shell).1 = .error e →
      let z := (invalidate (some commit.root) ((response.edit action).carriedOut commit y)).2
      Told (⟨.critical, action.failureTitle, e.message⟩ :: historyBoxes dir z.shell) y
        v.workspace) :
    Follows response s dir x (.ok (some action), y) (.ok (), v)

section Follows

variable {dir : String} {x : Workspace Unit} {e : Failure}
  {asked : Except Failure (Option Action) × Workspace Unit} {ended : Except Failure Unit × Window}

theorem Follows.before {z : Workspace Unit} (h : Follows response s dir x asked ended)
    (silent : Silent z x) : Follows response s dir z asked ended := by
  cases h with
  | failed regular => exact .failed regular
  | unchanged => exact .unchanged
  | edited single rest told => exact .edited single (trans_of Silent silent rest) told

theorem Follows.fails_iff (h : Follows response s dir x asked ended) :
    ended.1 = .error e ↔ asked.1 = .error e := by
  cases h with
  | failed => simp
  | unchanged => simp
  | edited => simp

theorem Follows.regular (h : Follows response s dir x asked ended) (failed : ended.1 = .error e) :
    e.Regular := by
  cases h with
  | failed regular =>
    cases failed
    exact regular
  | unchanged => cases failed
  | edited => cases failed

end Follows

@[simp] theorem action_edit (response : Dialog.Response) (action : Action) :
    (response.edit action).action = action := by
  cases action <;> rfl

theorem answered_edit (response : Dialog.Response) (action : Action) :
    (response.edit action).Answered := by
  cases action with
  | reword => exact fun _ _ => by simp
  | rebase => exact fun _ _ => by simp

theorem runAction_of_performed {changed : Bool}
    (performed : (response.edit action).perform Workspace.compute s w.workspace = (.ok changed, y))
    (tame : y.shell.git.Tame) :
    ∃ v, runAction action s response w = (.ok (), v) ∧
      (changed = false → Told (historyBoxes w.dir y.shell) y v.workspace) := by
  rw [runAction, bind_of_ok (onWorkspace_of_eq performed)]
  cases changed with
  | false =>
    obtain ⟨v, loaded, told⟩ := loadHistory_told (w := { w with workspace := y }) tame
    exact ⟨v, loaded, fun _ => told⟩
  | true =>
    let notice : Notice := ⟨.information, "Success", "History rewritten successfully."⟩
    obtain ⟨v, loaded, -⟩ := loadHistory_told
      (w := { w with workspace := { y with shell := y.shell.log (.noticed notice) } }) tame
    exact ⟨v, loaded, by simp⟩

/-- An edit that the gate has allowed does not fail. What keeps it from being carried out is shown
to the user. -/
theorem runAction_of_allowed {commit : Commit} (response : Dialog.Response)
    (allowed : Gate.attemptEdit Workspace.compute [commit] action.failureTitle w.workspace =
      (.ok true, y)) (tame : y.shell.git.Tame) :
    ∃ v, runAction action [commit] response w = (.ok (), v) ∧
      ∀ e, ((response.edit action).carryOut commit y.shell).1 = .error e →
        let z := (invalidate (some commit.root) ((response.edit action).carriedOut commit y)).2
        Told (⟨.critical, action.failureTitle, e.message⟩ :: historyBoxes w.dir z.shell) y
          v.workspace := by
  let edit := response.edit action
  let z := (invalidate (some commit.root) (edit.carriedOut commit y)).2
  obtain ⟨stays, fails⟩ := Edit.raises_carryOut (answered_edit response action) commit y.shell tame
  have performed : edit.perform Workspace.compute [commit] w.workspace =
      (Edit.answer (edit.carryOut commit y.shell).1, z) :=
    Edit.perform_of_allowed ((action_edit response action).symm ▸ allowed)
  have tame' : z.shell.git.Tame := stays
  cases came : (edit.carryOut commit y.shell).1 with
  | ok done =>
    rw [came] at performed
    obtain ⟨v, ran, -⟩ := runAction_of_performed performed tame'
    exact ⟨v, ran, by simp⟩
  | error e =>
    have told := fails e came
    rw [came, Edit.answer, if_pos told] at performed
    obtain ⟨v, ran, loaded⟩ := runAction_of_performed performed tame'
    refine ⟨v, ran, fun e' failed => ?_⟩
    obtain rfl : e = e' := Except.error.inj failed
    have shown := Edit.told_of_carriedOut came told
    rw [action_edit] at shown
    exact shown.trans (loaded rfl)

theorem runAction_follows {commit : Commit} (finds : w.workspace.lookup.Finds commit.root)
    (tame : w.Tame) (response : Dialog.Response) (action : Action) :
    Follows response [commit] w.dir w.workspace (attempted [commit] action w.workspace)
      (runAction action [commit] response w) := by
  obtain ⟨stays, fails⟩ := Gate.attemptEdit_regular finds tame action.failureTitle
  rcases attempt : Gate.attemptEdit Workspace.compute [commit] action.failureTitle w.workspace with
    ⟨e | allowed, y⟩
  · rw [attempt] at fails
    have performed : (response.edit action).perform Workspace.compute [commit] w.workspace =
        (.error e, y) := by
      rw [Edit.perform, action_edit, bind_of_error attempt]
    rw [attempted, bind_of_error attempt, runAction, bind_of_error (onWorkspace_of_eq performed)]
    exact .failed (fails e rfl)
  rw [attempt] at stays
  rw [attempted, bind_of_ok attempt]
  cases allowed with
  | false =>
    have denied : (response.edit action).perform Workspace.compute [commit] w.workspace =
        (.ok false, y) := by
      rw [Edit.perform, action_edit, bind_of_ok attempt]
      rfl
    obtain ⟨v, ran, -⟩ := runAction_of_performed denied stays
    rw [ran]
    exact .unchanged
  | true =>
    obtain ⟨v, ran, told⟩ := runAction_of_allowed response attempt stays
    rw [ran]
    exact .edited rfl (Gate.silent_of_allowed attempt) told

/-- A menu goes on from what the gate answers. -/
theorem showMenu_follows (s : Selection) (choice : Option Nat) (response : Dialog.Response)
    (tame : w.Tame) :
    Follows response s w.dir w.workspace (allowedAction s choice w.workspace)
      (showMenu s choice response w) := by
  obtain ⟨tame', fails⟩ := raises_entries s w.workspace tame
  rcases offered : entries s w.workspace with ⟨e | menu, x⟩
  · rw [offered] at fails
    rw [allowedAction, bind_of_error offered, showMenu, bind_of_error (onWorkspace_of_eq offered)]
    exact .failed (fails e rfl)
  rw [offered] at tame'
  let shown : Window := { w with workspace := x, menus := menu :: w.menus }
  rw [showMenu_of_offered offered, allowedAction, bind_of_ok offered]
  refine Follows.before ?_ ((silent_entries s).of_eq offered)
  rcases pick : choice.bind (menu[·]?) with _ | ⟨action, presentation⟩
  · exact .unchanged
  cases presentation with
  | hidden => exact .unchanged
  | disabled reason => exact .unchanged
  | available =>
    obtain ⟨i, -, got⟩ := Option.bind_eq_some_iff.mp pick
    obtain ⟨commit, rfl, finds⟩ := finds_of_offered offered (List.mem_of_getElem? got)
    exact runAction_follows (w := shown) finds tame' response action

end Menu

end Window

end HistoryGuard
