import HistoryGuard.Gate
import HistoryGuard.Git.Rebase

/-! # Edits

Two edits are offered for a commit: a new message, and an interactive rebase from it on. Both
ask the user what to do, and a user who cancels or changes nothing ends them. An edit is made
only if the gate allows it, and whatever is remembered of the root is forgotten afterwards.
-/

namespace HistoryGuard

inductive Action
  | reword
  | rebase
  deriving DecidableEq, Repr

namespace Action

def all : List Action := [reword, rebase]

def text : Action → String
  | reword => "Edit Commit Message..."
  | rebase => "Interactively Rebase from Here..."

def failureTitle : Action → String
  | reword => "Can't Edit Message"
  | rebase => "Can't Start Rebase"

end Action

/-- An action with the way the user answers its question. No text means that the user
cancelled. -/
inductive Edit
  | reword (answer : String → Except Failure (Option String))
  | rebase (answer : List String → Except Failure (Option (List String)))

namespace Edit

open Shell

def action : Edit → Action
  | reword _ => .reword
  | rebase _ => .rebase

def pickLine (sha : String) : String := "pick " ++ sha

/-- Picks every commit and amends the one to be reworded as soon as it is picked. -/
def rewordPlan (target message : String) (shas : List String) : Plan :=
  shas.flatMap fun sha =>
    if sha = target then [.text (pickLine sha), .amend message] else [.text (pickLine sha)]

/-- The line says something: it is neither blank nor a comment. -/
def isEffective (line : String) : Bool :=
  match Text.trimStart line.toList with
  | [] => false
  | c :: _ => c != '#'

/-- Asks the user and changes the message. Tells whether history was changed. -/
def carryOutReword (answer : String → Except Failure (Option String)) (commit : Commit) :
    Run Shell Bool := do
  let current ← Git.message commit.root commit.sha
  note (.asked commit (.message current))
  match ← .ofExcept (answer current) with
  | none => return false
  | some message =>
    if message = current then return false
    else
      let shas ← Git.commitsFrom commit.root commit.sha
      Git.rebase commit.root commit.sha (rewordPlan commit.sha message shas)
      return true

def carryOutRebase (answer : List String → Except Failure (Option (List String)))
    (commit : Commit) : Run Shell Bool := do
  let shas ← Git.commitsFrom commit.root commit.sha
  let picks := shas.map pickLine
  note (.asked commit (.plan picks))
  match ← .ofExcept (answer picks) with
  | none => return false
  | some edited =>
    let lines := edited.filter isEffective
    if lines = [] then return false
    else
      Git.rebase commit.root commit.sha (lines.map .text)
      return true

def carryOut : Edit → Commit → Run Shell Bool
  | reword answer => carryOutReword answer
  | rebase answer => carryOutRebase answer

open Workspace Containment Gate

variable {ι : Type}

/-- Ends an edit: a failure of git or of the history is told, any other is handed on, and
what is remembered of the root is forgotten in any case. -/
def conclude (edit : Edit) (commit : Commit) (outcome : Except Failure Bool) :
    Run (Workspace ι) Bool := do
  match outcome with
  | .ok done =>
    invalidate (some commit.root)
    return done
  | .error e =>
    if e.isCommand || e.isHistory then
      tell edit.action.failureTitle e.message
      invalidate (some commit.root)
      return false
    else
      invalidate (some commit.root)
      .fail e

/-- Makes the edit if the gate allows it. Tells whether history was changed. -/
def perform (compute : Compute ι) (edit : Edit) (selection : Selection) :
    Run (Workspace ι) Bool := do
  if ← attemptEdit compute selection edit.action.failureTitle then
    let commit ← .ofExcept selection.single
    let outcome ← Run.attempt (onShell (edit.carryOut commit))
    edit.conclude commit outcome
  else return false

end Edit

end HistoryGuard
