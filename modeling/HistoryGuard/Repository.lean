import HistoryGuard.Git.Refs
import HistoryGuard.Table

/-! # Repositories

A repository is known by the top directory of its work tree, and its branches are read from
git each time. A recorded one answers with fixed branches.

The registry finds the repository around a directory and never forgets one: a directory that
has been found keeps its repository, and so does the top directory of every repository.
-/

namespace HistoryGuard

/-- A work tree, numbered in the order in which the registry met it. -/
structure Worktree where
  number : Nat
  root : String
  deriving DecidableEq, Repr

inductive Repository
  | recorded (currentBranch : String) (remoteBranches : List RemoteBranch)
  | worktree (tree : Worktree)
  deriving DecidableEq, Repr

namespace Repository

def currentBranch : Repository → Run Shell String
  | recorded branch _ => pure branch
  | worktree tree => Git.currentBranch tree.root

def remoteBranches : Repository → Run Shell (List RemoteBranch)
  | recorded _ remotes => pure remotes
  | worktree tree => Git.remoteBranches tree.root

end Repository

structure Registry where
  /-- Where relative directories start. -/
  workDir : String
  known : Table String Worktree := Table.empty
  /-- How many work trees have been met. -/
  met : Nat := 0

namespace Registry

/-- The directory that a lookup is remembered under. -/
def keyOf (r : Registry) (dir : String) : String := Path.absolute r.workDir dir

/-- Remembers that `key` lies in the work tree with top directory `top`. -/
def record (r : Registry) (key top : String) : Worktree × Registry :=
  match r.known top with
  | some tree => (tree, { r with known := r.known.put key tree })
  | none =>
    let tree : Worktree := ⟨r.met, top⟩
    (tree, { r with known := (r.known.put top tree).put key tree, met := r.met + 1 })

/-- The work tree around a directory. Where git fails there is none. -/
def find (r : Registry) (dir : String) : Run Shell (Option Worktree × Registry) := do
  let key := r.keyOf dir
  match r.known key with
  | some tree => return (some tree, r)
  | none =>
    match ← Run.attempt (Git.topLevel key) with
    | .ok top =>
      let (tree, r) := r.record key top
      return (some tree, r)
    | .error e => if e.isCommand then return (none, r) else .fail e

end Registry

end HistoryGuard
