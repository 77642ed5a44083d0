import HistoryGuard.Failure

/-! # Commits, remote branches and selections -/

namespace HistoryGuard

structure Commit where
  sha : String
  /-- The top directory of the work tree that the commit belongs to. -/
  root : String
  parents : List String := []
  deriving DecidableEq, Repr

/-- What the branches that contain a commit are remembered under. -/
structure Key where
  root : String
  sha : String
  deriving DecidableEq, Repr

namespace Commit

def key (c : Commit) : Key := ⟨c.root, c.sha⟩

def parentCount (c : Commit) : Nat := c.parents.length

def short (c : Commit) : String := shortSha c.sha

end Commit

structure RemoteBranch where
  remote : String
  name : String
  deriving DecidableEq, Repr

namespace RemoteBranch

/-- How a set of branches lists the remote branch. -/
def qualifiedName (b : RemoteBranch) : String := b.remote ++ "/" ++ b.name

/-- The name that patterns are matched with: they are written without a remote. -/
def localName (b : RemoteBranch) : String := b.name

end RemoteBranch

abbrev Selection := List Commit

def Selection.single : Selection → Except Failure Commit
  | [c] => .ok c
  | cs => .error (.notSingle cs.length)

theorem Selection.single_eq_ok_iff {s : Selection} {c : Commit} : s.single = .ok c ↔ s = [c] := by
  match s with
  | [] => simp [single]
  | [d] => simp [single]
  | _ :: _ :: _ => simp [single]

end HistoryGuard
