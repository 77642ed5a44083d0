import HistoryGuard.Edit

/-! # Steps

What can be asked of a workspace from outside, one step at a time, and what is answered.
-/

namespace HistoryGuard

inductive Step
  /-- Git behaves differently from now on. -/
  | git (git : Git)
  | settings (p : Protection)
  | checkEnablement (s : Selection)
  | attemptEdit (s : Selection) (title : String)
  | verdict (root : String) (branches : List String)
  | findProtected (root : String) (branches : List String)
  | update (action : Action) (s : Selection)
  | perform (edit : Edit) (s : Selection)
  | getCached (key : Key)
  | getNow (key : Key)
  | request (key : Key)
  | runNext
  | invalidate (root : Option String)
  | shutdown
  | commit (dir sha : String)
  | repository (root : String)
  | currentBranch (root : String)
  | remoteBranches (root : String)

inductive Answer
  | nothing
  | idle
  | flag (b : Bool)
  | text (s : String)
  | branches (b : Branches)
  | verdict (v : Verdict)
  | presentation (p : Presentation)
  | commit (c : Commit)
  | repository (r : Repository)
  | remotes (bs : List RemoteBranch)
  deriving DecidableEq, Repr

namespace Answer

def ofOption {α : Type} (f : α → Answer) : Option α → Answer
  | none => nothing
  | some a => f a

end Answer

namespace Step

open Workspace Containment

variable {ι : Type}

def known (root : String) : Run (Workspace ι) Repository := do
  match ← repository? root with
  | some r => return r
  | none => .fail (.unknownRoot root)

/-- Carries out a step. Where it needs containing branches that are not remembered, it computes
them by `compute`. -/
def run (compute : Compute ι) : Step → Run (Workspace ι) Answer
  | git behaviour => do
    Run.modify fun w => { w with shell := { w.shell with git := behaviour, past := [] } }
    return .nothing
  | settings p => do
    Run.modify fun w => { w with policy := .protection p }
    return .nothing
  | checkEnablement s => do return .presentation (← Gate.enablement s)
  | attemptEdit s title => do return .flag (← Gate.attemptEdit compute s title)
  | verdict root names => do
    let r ← known root
    return .verdict (← Gate.verdict r (.ofList names))
  | findProtected root names => do
    let r ← known root
    return .ofOption (fun b => .text b.localName) (← Gate.findProtected r (.ofList names))
  | update _ s => do return .presentation (← Gate.enablement s)
  | perform edit s => do return .flag (← edit.perform compute s)
  | getCached key => do return .ofOption .branches (← Containment.getCached key)
  | getNow key => do return .branches (← Containment.getNow compute key)
  | request key => do return .flag (← Containment.request key)
  | runNext => do
    match ← Containment.runNext compute with
    | some b => return .branches b
    | none => return .idle
  | invalidate root => do
    Containment.invalidate root
    return .nothing
  | shutdown => do
    Containment.shutdown
    return .nothing
  | commit dir sha => do return .commit (← onShell (Git.commit dir sha))
  | repository root => do return .ofOption .repository (← repository? root)
  | currentBranch root => do
    let r ← known root
    return .text (← onShell r.currentBranch)
  | remoteBranches root => do
    let r ← known root
    return .remotes (← onShell r.remoteBranches)

end Step

end HistoryGuard
