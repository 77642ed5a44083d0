import HistoryGuard.Edit

/-! # The window

A list of the commits from the head downwards, in which rows can be selected. As soon as a
single row is selected, the branches that contain its commit are requested in the background.
-/

namespace HistoryGuard

def Git.LogEntry.rowText (e : Git.LogEntry) : String := shortSha e.sha ++ " " ++ e.subject

structure Entry where
  action : Action
  presentation : Presentation
  deriving DecidableEq, Repr

structure Window where
  /-- The directory of the work tree. -/
  dir : String
  workspace : Workspace Unit
  store : Store := {}
  title : String := ""
  /-- The size of the font of the list. -/
  fontSize : Int := 10
  /-- The size of the font of the dialogs. -/
  dialogFont : Int := 10
  rows : List Git.LogEntry := []
  /-- The numbers of the selected rows, in ascending order. -/
  selected : List Nat := []
  /-- The menus that were shown, the latest first. -/
  menus : List (List Entry) := []

namespace Window

variable {α : Type}

def onWorkspace (x : Run (Workspace Unit) α) : Run Window α :=
  .focus (·.workspace) (fun workspace w => { w with workspace }) x

def onShell (x : Run Shell α) : Run Window α := onWorkspace (Workspace.onShell x)

def showBox (kind : NoticeKind) (title text : String) : Run Window Unit :=
  onWorkspace (Workspace.note (.noticed ⟨kind, title, text⟩))

def showError (e : Failure) : Run Window Unit := showBox .critical "Error" e.message

/-- Runs `x`, and goes on with `other` where a git command fails. -/
def onGitFailure (x : Run Window α) (other : Failure → Run Window α) : Run Window α := do
  match ← Run.attempt x with
  | .ok a => return a
  | .error e => if e.isCommand then other e else .fail e

def titleFor (dir branch head : String) : String :=
  "git_commit_edit.py : branch=" ++ branch ++ ", HEAD=" ++ head ++ ", path=" ++ dir

/-- The names of the branch and of the head for the title. -/
def headNames (dir : String) : Run Shell (String × String) := do
  let branch ← Git.currentBranch dir
  let head ← Git.headSha dir
  return (branch, head)

def updateTitle : Run Window Unit := do
  let dir ← Run.read (·.dir)
  let (branch, head) ←
    onGitFailure (onShell (headNames dir)) fun _ => pure ("Unknown", "Unknown")
  Run.modify fun w => { w with title := titleFor dir branch head }

def fillRows : Run Window Unit := do
  let dir ← Run.read (·.dir)
  let rows ← onShell (Git.log dir)
  Run.modify fun w => { w with rows }

/-- Reads the history again. Nothing is selected in the new list. -/
def loadHistory : Run Window Unit := do
  updateTitle
  Run.modify fun w => { w with rows := [], selected := [] }
  onGitFailure fillRows showError

def fontName : String := "font_size"

def storedFont (store : Store) : Except Failure Int := (store.get fontName).toInt 10

def setFont (size : Int) : Run Window Unit := .modify fun w =>
  { w with fontSize := size, store := w.store.set fontName (.int size) }

/-- Opens the window. The dialogs keep the size of the font that the list has now. -/
def start : Run Window Unit := do
  let size ← .ofExcept (storedFont (← Run.read (·.store)))
  Run.modify fun w => { w with dialogFont := size }
  setFont size
  loadHistory

def selectedRows (w : Window) : List Git.LogEntry := w.selected.filterMap (w.rows[·]?)

/-- Requests the containing branches of the selected commit if it is the only one. -/
def prefetch : Run Window Unit := do
  let w ← Run.get
  match w.selectedRows with
  | [row] => do
    let _ ← onWorkspace (Containment.request ⟨w.dir, row.sha⟩)
  | _ => return ()

/-- Selects the rows with these numbers, as far as there are such rows. -/
def select (numbers : List Nat) : Run Window Unit := do
  let w ← Run.get
  let selected := (List.range w.rows.length).filter fun i => numbers.contains i
  if selected = w.selected then return ()
  else
    Run.modify fun w => { w with selected }
    prefetch

def selectCommit (start : String) : Run Window Bool := do
  let w ← Run.get
  match w.rows.findIdx? fun row => start.toList.isPrefixOf row.sha.toList with
  | some i =>
    select [i]
    return true
  | none => return false

def selection : Run Window Selection := do
  let w ← Run.get
  w.selectedRows.mapM fun row => onShell (Git.commit w.dir row.sha)

end Window

end HistoryGuard
