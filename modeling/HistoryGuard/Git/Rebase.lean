import HistoryGuard.Git.Query

/-! # Rebases

Commits are edited by an interactive rebase that starts below the commit in question. The
range that it replays may hold no merge, because a plan of picks cannot replay one. A rebase
that fails is aborted.
-/

namespace HistoryGuard.Git

open Shell Text

/-- The commits after the first parent up to the head, or all commits up to the head. -/
def range (parents : List String) : String :=
  match parents with
  | parent :: _ => parent ++ "..HEAD"
  | [] => "HEAD"

def readShas (out : String) : List String := ((lines out).map strip).filter (· != "")

/-- The commits from `sha` up to the head, oldest first. -/
def commitsFrom (dir sha : String) : Run Shell (List String) := do
  let (_, parents) ← parents dir sha
  let merges ← output dir ["rev-list", "--min-parents=2", range parents]
  if fields merges = [] then
    let out ← output dir ["rev-list", "--reverse", "--topo-order", range parents]
    return readShas out
  else .fail (.mergesInRange (fields merges))

def rebaseCall (dir : String) (parents : List String) (plan : Plan) : Call :=
  { args := ["rebase", "-i", parents.head?.getD "--root"], dir, plan := some plan }

def abortCall (dir : String) : Call := { args := ["rebase", "--abort"], dir }

/-- Starts a rebase and aborts it if it ends with a bad status. What the abort prints is not
read. -/
def runPlan (c : Call) : Run Shell Unit := do
  let f ← complete c
  if f.status = 0 then return ()
  match ← call (abortCall c.dir) with
  | .refused => .fail .refused
  | .notStarted cause => .fail (.notStarted cause)
  | .ended .. => .fail (.ofCommand c.words f.err (some f.status))

def rebase (dir sha : String) (plan : Plan) : Run Shell Unit := do
  let (_, parents) ← parents dir sha
  runPlan (rebaseCall dir parents plan)

end HistoryGuard.Git
