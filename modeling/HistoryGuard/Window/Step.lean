import HistoryGuard.Session.Step
import HistoryGuard.Window.Basic
import HistoryGuard.Window.Dialog

/-! # Steps of the window

What the user does with the window, and what comes of it.
-/

namespace HistoryGuard

inductive Button
  | zoomIn
  | zoomOut
  | refresh
  | exit
  deriving DecidableEq, Repr

inductive WindowStep
  | click (button : Button)
  | select (numbers : List Nat)
  | selectCommit (start : String)
  /-- The menu is opened over a row, or over none, and an entry may be chosen from it. A dialog
  that comes up is answered by the response. -/
  | contextMenu (row choice : Option Nat) (response : Dialog.Response)
  | runNext
  | git (git : Git)

namespace Window

open Containment

/-- The list is not shown smaller than this by zooming out. -/
def smallestFont : Int := 6

/-- Others may have changed the repository meanwhile, so what is remembered is forgotten. -/
def refresh : Run Window Unit := do
  onWorkspace (invalidate (some (← Run.read (·.dir))))
  loadHistory

def click : Button → Run Window Unit
  | .zoomIn => do setFont ((← Run.read (·.fontSize)) + 1)
  | .zoomOut => do
    let size ← Run.read (·.fontSize)
    if smallestFont < size then setFont (size - 1) else return ()
  | .refresh => refresh
  | .exit => pure ()

def entries (s : Selection) : Run (Workspace Unit) (List Entry) :=
  Action.all.mapM fun action => do return ⟨action, ← Gate.enablement s⟩

def runAction (action : Action) (s : Selection) (response : Dialog.Response) :
    Run Window Unit := do
  if ← onWorkspace ((response.edit action).perform Workspace.compute s) then
    showBox .information "Success" "History rewritten successfully."
  loadHistory

/-- Shows the menu for a selection. An entry can be chosen only if it is offered. -/
def showMenu (s : Selection) (choice : Option Nat) (response : Dialog.Response) :
    Run Window Unit := do
  let menu ← onWorkspace (entries s)
  Run.modify fun w => { w with menus := menu :: w.menus }
  match choice.bind (menu[·]?) with
  | some ⟨action, .available⟩ => runAction action s response
  | _ => return ()

/-- Opens the menu over a row, which is then the selected one, unless it is among the selected
ones. -/
def contextMenu (row choice : Option Nat) (response : Dialog.Response) : Run Window Unit := do
  let w ← Run.get
  match row.filter (· < w.rows.length) with
  | none => return ()
  | some i =>
    if !w.selected.contains i then select [i]
    match ← onGitFailure (some <$> selection) fun e => do showError e; return none with
    | none => return ()
    | some s => showMenu s choice response

def step : WindowStep → Run Window Answer
  | .click button => do
    click button
    return .nothing
  | .select numbers => do
    select numbers
    return .nothing
  | .selectCommit start => do return .flag (← selectCommit start)
  | .contextMenu row choice response => do
    contextMenu row choice response
    return .nothing
  | .runNext => onWorkspace (Step.runNext.run Workspace.compute)
  | .git git => onWorkspace ((Step.git git).run Workspace.compute)

/-- What a step did: how it ended, what was noted meanwhile, the menus shown, and the window
after it. -/
structure Report where
  outcome : Except Failure Answer
  events : List Event
  menus : List (List Entry)
  after : Window

def report (x : Run Window Answer) (w : Window) : Report :=
  let (outcome, w') := x w
  { outcome
    events := added w.workspace.shell.journal w'.workspace.shell.journal
    menus := added w.menus w'.menus
    after := w' }

def run : List WindowStep → Window → List Report
  | [], _ => []
  | s :: rest, w =>
    let r := report (step s) w
    r :: run rest r.after

/-- Opens the window and carries out steps in it. Where it does not open, there are none. -/
def session (steps : List WindowStep) (w : Window) : List Report :=
  let r := report (do start; return .nothing) w
  match r.outcome with
  | .ok _ => r :: run steps r.after
  | .error _ => [r]

end Window

end HistoryGuard
