import HistoryGuard.Containment.Lookup

/-! # The gate

A commit with exactly one parent may be edited if the current branch contains it and no remote
branch with a protected name does.

There are two checks. The enablement is quick and only for show: it reads the cache and allows
what is not known yet. The attempt comes right before an edit: it computes what is missing and
tells the user why it denies.
-/

namespace HistoryGuard

inductive Denial
  | parentCount (n : Nat)
  | notInCurrentBranch
  | pushedTo (branch : String)
  deriving DecidableEq, Repr

def Denial.message : Denial → String
  | parentCount n => "Selected commit has " ++ toString n ++ " parents"
  | notInCurrentBranch => "The commit is not in the current branch"
  | pushedTo branch => "The commit is already pushed to protected branch " ++ branch

inductive Verdict
  | allowed
  | denied (reason : Denial)
  deriving DecidableEq, Repr

inductive Presentation
  | hidden
  | disabled (reason : Denial)
  | available
  deriving DecidableEq, Repr

def Verdict.presentation : Verdict → Presentation
  | allowed => .available
  | denied reason => .disabled reason

namespace Gate

open Workspace Containment

variable {ι : Type}

/-- The first remote branch that is protected and in the set. -/
def firstProtected (policy : Policy) (branches : Branches) :
    List RemoteBranch → Except Failure (Option RemoteBranch)
  | [] => .ok none
  | b :: rest => do
    let covered ← policy.covers b.localName
    if covered && decide (b.qualifiedName ∈ branches) then return some b
    else firstProtected policy branches rest

theorem firstProtected_protection (p : Protection) (branches : Branches)
    (remotes : List RemoteBranch) :
    firstProtected (.protection p) branches remotes =
      .ok (remotes.find? fun b =>
        p.covers b.localName && decide (b.qualifiedName ∈ branches)) := by
  induction remotes with
  | nil => rfl
  | cons b rest ih =>
    show (if p.covers b.localName && decide (b.qualifiedName ∈ branches) then
      Except.ok (some b) else firstProtected (.protection p) branches rest) = _
    rw [List.find?_cons, ih]
    cases p.covers b.localName && decide (b.qualifiedName ∈ branches) <;> rfl

def findProtected (repository : Repository) (branches : Branches) :
    Run (Workspace ι) (Option RemoteBranch) := do
  let remotes ← onShell repository.remoteBranches
  let policy ← Run.read (·.policy)
  .ofExcept (firstProtected policy branches remotes)

def verdict (repository : Repository) (branches : Branches) : Run (Workspace ι) Verdict := do
  let current ← onShell repository.currentBranch
  if current ∈ branches then
    match ← findProtected repository branches with
    | some b => return .denied (.pushedTo b.localName)
    | none => return .allowed
  else return .denied .notInCurrentBranch

def enablement (selection : Selection) : Run (Workspace ι) Presentation := do
  match selection with
  | [commit] =>
    match ← repository? commit.root with
    | none => return .hidden
    | some repository =>
      if commit.parentCount = 1 then
        match ← getCached commit.key with
        | none => return .available
        | some branches => return (← verdict repository branches).presentation
      else return .disabled (.parentCount commit.parentCount)
  | _ => return .hidden

/-- The branches that contain a commit, from the cache if they are there. -/
def containing (compute : Compute ι) (commit : Commit) : Run (Workspace ι) Branches := do
  match ← getCached commit.key with
  | some branches => return branches
  | none => getNow compute commit.key

def judge (compute : Compute ι) (selection : Selection) : Run (Workspace ι) Verdict := do
  let commit ← .ofExcept selection.single
  match ← repository? commit.root with
  | none => .fail (.unknownRoot commit.root)
  | some repository =>
    if commit.parentCount = 1 then
      let branches ← containing compute commit
      verdict repository branches
    else return .denied (.parentCount commit.parentCount)

def tell (title text : String) : Run (Workspace ι) Unit := note (.noticed ⟨.critical, title, text⟩)

/-- Tells whether the edit may go ahead, and the user why it may not. -/
def attemptEdit (compute : Compute ι) (selection : Selection) (title : String) :
    Run (Workspace ι) Bool := do
  match ← judge compute selection with
  | .allowed => return true
  | .denied reason =>
    tell title reason.message
    return false

end Gate

end HistoryGuard
