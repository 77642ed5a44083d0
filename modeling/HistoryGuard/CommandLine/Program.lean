import HistoryGuard.CommandLine.Arguments
import HistoryGuard.CommandLine.Check
import HistoryGuard.Settings.LogLevel
import HistoryGuard.Window.Step

/-! # The program

The program reads its command line and then checks a commit or opens the window. Patterns on
the command line replace all other settings of the protection.
-/

namespace HistoryGuard.CommandLine

structure Surroundings where
  environment : Environment := []
  workDir : String
  /-- The home directories of the accounts. The empty name is the user's own account. -/
  accountHome? : String → Option String := fun _ => none
  store : Store := {}
  git : Git

/-- A home directory. That of the user comes from the environment if it is there. -/
def Surroundings.home? (s : Surroundings) (name : String) : Option String :=
  if name = "" then (s.environment.get? "HOME").or (s.accountHome? name) else s.accountHome? name

def Surroundings.resolve (s : Surroundings) (path : String) : String :=
  Path.absolute s.workDir (Path.expandHome s.home? path)

/-- The work tree lies around this directory. -/
def Arguments.directory (a : Arguments) (s : Surroundings) : Except Failure String :=
  match a.location with
  | .current => .ok (s.resolve s.workDir)
  | .path path => .ok (s.resolve path)
  | .withoutText => .error .locationWithoutText

/-- Without patterns on the command line the settings count. -/
def Arguments.policy (a : Arguments) (store? : Option Store) (env : Environment) :
    Except Failure Policy :=
  if a.patterns = [] then (Protection.load store? env).map .protection
  else .ok (.ofPatterns a.patterns)

/-- How the program went. -/
structure Report where
  /-- The level of the log, if it was ever set. -/
  logLevel : Option Nat := none
  outcome : Except Failure Ending
  /-- What could be seen from outside, in order. -/
  events : List Event := []
  /-- The window, if it was opened. -/
  window : Option Window := none

def workspace (s : Surroundings) (shell : Shell) (policy : Policy) : Workspace Unit :=
  { shell, policy, lookup := .registry { workDir := s.workDir }, own := () }

def Halt.ending : Halt → Ending
  | .help page => { status := 0, out := page.help }
  | .misuse page cause =>
    { status := 2, err := page.usage ++ page.program ++ ": error: " ++ cause.message ++ "\n" }

def runCheck (s : Surroundings) (a : Arguments) (dir commit : String) : Report :=
  match a.policy none s.environment with
  | .error e => { outcome := .error e }
  | .ok policy =>
    let (outcome, w) := Check.run dir commit (workspace s { git := s.git } policy)
    { outcome, events := w.shell.journal.reverse }

def openWindow (commit : Option String) : Run Window Unit := do
  Window.start
  match commit with
  | none => return ()
  | some sha => if sha = "" then return () else do let _ ← Window.selectCommit sha

def runWindow (s : Surroundings) (a : Arguments) (dir : String) (commit : Option String) :
    Report :=
  let (root, shell) := Git.topLevel dir { git := s.git }
  match root with
  | .error e =>
    { outcome := if e.isOwn then .ok (.failed e.message) else .error e
      events := shell.journal.reverse }
  | .ok top =>
    match a.policy (some s.store) s.environment with
    | .error e => { outcome := .error e, events := shell.journal.reverse }
    | .ok policy =>
      let (opened, w) :=
        openWindow commit { dir := top, workspace := workspace s shell policy, store := s.store }
      let events := w.workspace.shell.journal.reverse
      match opened with
      | .error e => { outcome := .error e, events }
      | .ok _ => { outcome := .ok .quiet, events, window := some w }

def runRequest (s : Surroundings) (a : Arguments) (dir : String) : Report :=
  match a.request with
  | .check commit => runCheck s a dir commit
  | .window commit => runWindow s a dir commit

/-- The directory is found before the log is set up. -/
def run (s : Surroundings) (args : List String) : Report :=
  match Arguments.parse args with
  | .error halt => { outcome := .ok halt.ending }
  | .ok a =>
    match a.directory s with
    | .error e => { outcome := .error e }
    | .ok dir =>
      match LogLevel.choose a.logLevel s.environment with
      | .error e => { outcome := .error e }
      | .ok level => { runRequest s a dir with logLevel := some level }

/-- The first call that stays open when git has given so many replies. -/
def Report.openCall? (r : Report) (replies : Nat) : Option Call :=
  (r.events.filterMap fun
    | .called call _ => some call
    | _ => none)[replies]?

/-- The ending of a part of the program that was started by itself. -/
def notTheProgram : Ending :=
  { status := 1, out := "Please run the main app: git_commit_edit.py\n" }

end HistoryGuard.CommandLine
