import HistoryGuard.Git.Query

/-! # Branches and their refs

Git lists refs one a line, each with the ref that it stands for if it is symbolic. Local
branches lie under `refs/heads/` and remote-tracking ones under `refs/remotes/`, where the
name of the remote comes first.
-/

namespace HistoryGuard.Git

open Shell Text

def localSpace : List Char := "refs/heads/".toList

def remoteSpace : List Char := "refs/remotes/".toList

/-- What follows a leading text. -/
def after? (lead s : List Char) : Option (List Char) :=
  if lead.isPrefixOf s then some (s.drop lead.length) else none

def shortName (ref : List Char) : Option (List Char) :=
  (after? localSpace ref).or (after? remoteSpace ref)

structure RefLine where
  ref : List Char
  /-- The ref that a symbolic one stands for, empty for any other. -/
  target : List Char
  deriving DecidableEq, Repr

def readRefLine (line : String) : RefLine :=
  let (ref, target) := cutAtSpace (trim line.toList)
  ⟨ref, target⟩

def readRefs (out : String) : List RefLine := (lines out).map readRefLine

/-- The name that a line adds to a set of branches. A symbolic ref adds none. -/
def RefLine.branch? (line : RefLine) : Option String :=
  if line.target = [] then
    match shortName line.ref with
    | some (c :: cs) => some (String.ofList (c :: cs))
    | _ => none
  else none

def listedBranches (out : String) : List String := (readRefs out).filterMap RefLine.branch?

/-- The branches whose history includes a commit. A detached head that reaches the commit
counts as one. -/
def containing (dir sha : String) : Run Shell Branches := do
  let out ← output dir ["branch", "-a", "--format=%(refname) %(symref)", "--contains=" ++ sha]
  let names := listedBranches out
  let branch ← currentBranch dir
  let detached ← if branch = head then isAncestor dir sha head else pure false
  return .ofList (if detached then head :: names else names)

/-- The remote that a path below the remote space belongs to: the longest one whose name,
followed by a slash, leads the path. -/
def longestRemote (remotes : List String) (path : List Char) : Option String :=
  (remotes.filter fun r => (r.toList ++ ['/']).isPrefixOf path).foldl
    (fun best r => match best with
      | none => some r
      | some b => if b.length < r.length then some r else some b)
    none

def RefLine.remoteBranch? (remotes : List String) (line : RefLine) : Option RemoteBranch :=
  if line.target = [] && line.ref != [] then
    let path := line.ref.drop remoteSpace.length
    (longestRemote remotes path).map fun r => ⟨r, String.ofList (path.drop (r.length + 1))⟩
  else none

def listedRemoteBranches (remotes : List String) (out : String) : List RemoteBranch :=
  (readRefs out).filterMap (RefLine.remoteBranch? remotes)

def remoteBranches (dir : String) : Run Shell (List RemoteBranch) := do
  let remotes ← output dir ["remote"]
  let out ← output dir ["for-each-ref", "--format=%(refname) %(symref)", "refs/remotes"]
  return listedRemoteBranches (fields remotes) out

end HistoryGuard.Git
