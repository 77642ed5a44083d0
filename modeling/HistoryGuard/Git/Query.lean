import HistoryGuard.Path
import HistoryGuard.Shell

/-! # Questions to git

Each question is one command, or a few, and the reading of what they print.
-/

namespace HistoryGuard.Git

open Shell Text

def head : String := "HEAD"

def topLevel (dir : String) : Run Shell String := do
  let out ← output dir ["rev-parse", "--show-toplevel"]
  return Path.normalise (strip out)

def currentBranchCall (dir : String) : Call :=
  { args := ["symbolic-ref", "--short", "-q", "HEAD"], dir }

/-- Status 0 names the branch, status 1 says that the head is detached. -/
def readCurrentBranch (words : List String) (f : Finished) : Except Failure String :=
  if f.status = 0 then .ok (strip f.out)
  else if f.status = 1 then .ok head
  else .error (.ofCommand words f.err (some f.status))

def currentBranch (dir : String) : Run Shell String := do
  let f ← complete (currentBranchCall dir)
  .ofExcept (readCurrentBranch (currentBranchCall dir).words f)

def headSha (dir : String) : Run Shell String := do
  let out ← output dir ["rev-parse", "--short", "HEAD"]
  return strip out

/-- The full hash of a commit and the hashes of its parents. -/
def parents (dir sha : String) : Run Shell (String × List String) := do
  let args := ["rev-list", "--parents", "-n", "1", sha]
  let out ← output dir (args ++ ["--"])
  match fields out with
  | full :: rest => return (full, rest)
  | [] => .fail (.ofCommand ("git" :: args) "unknown commit" none)

/-- The commit that `sha` names in the work tree around `dir`. -/
def commit (dir sha : String) : Run Shell Commit := do
  let root ← topLevel dir
  let (full, parents) ← parents root sha
  return { sha := full, root, parents }

structure LogEntry where
  sha : String
  subject : String
  deriving DecidableEq, Repr

/-- Reads a line that starts with a hash and goes on with a subject. -/
def readEntry (line : String) : LogEntry :=
  let (sha, subject) := cutAtSpace line.toList
  ⟨String.ofList sha, String.ofList subject⟩

/-- The entries of a log, one a line. Blank lines are passed over. -/
def readLog (out : String) : List LogEntry :=
  ((lines out).filter fun line => strip line != "").map readEntry

def log (dir : String) (limit : Int := 500) : Run Shell (List LogEntry) := do
  let out ← output dir ["log", "--max-count=" ++ toString limit, "--format=%H %s", "HEAD"]
  return readLog out

def message (dir sha : String) : Run Shell String := do
  let out ← output dir ["log", "-1", "--format=%B", sha]
  return strip out

def isAncestorCall (dir ancestor descendant : String) : Call :=
  { args := ["merge-base", "--is-ancestor", ancestor, descendant], dir }

/-- Status 0 says yes, status 1 says no. -/
def readIsAncestor (words : List String) (f : Finished) : Except Failure Bool :=
  if f.status = 0 then .ok true
  else if f.status = 1 then .ok false
  else .error (.ofCommand words f.err (some f.status))

def isAncestor (dir ancestor descendant : String) : Run Shell Bool := do
  let c := isAncestorCall dir ancestor descendant
  let f ← complete c
  .ofExcept (readIsAncestor c.words f)

end HistoryGuard.Git
