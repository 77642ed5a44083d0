import HistoryGuard.Containment.Cache
import HistoryGuard.Repository
import HistoryGuard.Settings.Protection

/-! # The workspace

All that the gate and the edits work on: the shell, the containment cache, the policy and the
repositories. A computation of containing branches may keep state of its own in `own`.
-/

namespace HistoryGuard

inductive Lookup
  | fixed (entries : List (String × Repository))
  | registry (r : Registry)

structure Workspace (ι : Type) where
  shell : Shell
  policy : Policy
  lookup : Lookup
  cache : Cache := {}
  /-- How many computations of containing branches have begun. -/
  serial : Nat := 0
  own : ι

/-- How the branches that contain a commit are computed. -/
abbrev Compute (ι : Type) := Key → Run (Workspace ι) Branches

namespace Workspace

variable {ι α : Type}

def onShell (x : Run Shell α) : Run (Workspace ι) α :=
  .focus (·.shell) (fun shell w => { w with shell }) x

def note (e : Event) : Run (Workspace ι) Unit := onShell (Shell.note e)

def onCache (f : Cache → α × Cache) : Run (Workspace ι) α :=
  .change fun w => ((f w.cache).1, { w with cache := (f w.cache).2 })

def compute : Compute ι := fun key => onShell (Git.containing key.root key.sha)

def repository? (root : String) : Run (Workspace ι) (Option Repository) := do
  match ← Run.read (·.lookup) with
  | .fixed entries => return entries.lookup root
  | .registry r =>
    let (tree?, r) ← onShell (r.find root)
    Run.modify fun w => { w with lookup := .registry r }
    return tree?.map .worktree

end Workspace

end HistoryGuard
