import HistoryGuard.Gate

/-! # Checking a commit on the console

The check ends with status 0 if the commit may be edited, with 1 and the reason if not, and
with 2 where that could not be found out.
-/

namespace HistoryGuard

/-- How the program ends: its status, and what it has printed. The records of the log, which go to
the same place as `err` and come before it, are left out. -/
structure Ending where
  status : Nat
  out : String := ""
  err : String := ""
  deriving DecidableEq, Repr

namespace Ending

def quiet : Ending := { status := 0 }

def allowed : Ending := { status := 0, out := "allowed\n" }

def denied (reason : Denial) : Ending :=
  { status := 1, out := "denied: " ++ reason.message ++ "\n" }

def failed (text : String) : Ending := { status := 2, err := "error: " ++ text ++ "\n" }

end Ending

namespace Check

open Workspace

variable {ι : Type}

def endingFor (commit : Commit) : Run (Workspace ι) Ending := do
  match ← Gate.enablement [commit] with
  | .hidden => return .failed ("no repository for " ++ commit.root)
  | .disabled reason => return .denied reason
  | .available =>
    match ← Gate.judge Workspace.compute [commit] with
    | .denied reason => return .denied reason
    | .allowed => return .allowed

/-- Ends with the message of a failure that the program raised itself. -/
def reportOwn {σ : Type} (x : Run σ Ending) : Run σ Ending := do
  match ← Run.attempt x with
  | .ok ending => return ending
  | .error e => if e.isOwn then return .failed e.message else .fail e

def run (dir sha : String) : Run (Workspace ι) Ending := reportOwn do
  let commit ← onShell (Git.commit dir sha)
  endingFor commit

end Check

end HistoryGuard
