import HistoryGuard.Workspace

/-! # Looking up containing branches

A lookup at once, a request for work in the background, and the carrying out of that work. The
journal notes when a computation begins, how it ends, and what is forgotten.
-/

namespace HistoryGuard.Containment

open Workspace

variable {ι : Type}

def numbered (key : Key) : Run (Workspace ι) Nat := .change fun w =>
  (w.serial, { w with
    serial := w.serial + 1
    shell := w.shell.log (.computing w.serial key) })

/-- Computes with notes at the beginning and at the end. -/
def traced (compute : Compute ι) : Compute ι := fun key => do
  let serial ← numbered key
  let outcome ← Run.attempt (compute key)
  note (.computed serial key outcome)
  .ofExcept outcome

def getCached (key : Key) : Run (Workspace ι) (Option Branches) := .read (·.cache.get? key)

/-- The remembered branches, or else the computed ones, which are then remembered. -/
def getNow (compute : Compute ι) : Compute ι := fun key => do
  let cache ← Run.read (·.cache)
  match cache.get? key with
  | some branches => return branches
  | none =>
    let stamp := cache.stamp key.root
    let branches ← traced compute key
    onCache fun c => ((), c.store key stamp branches)
    return branches

/-- Tells whether a task was taken on. -/
def request (key : Key) : Run (Workspace ι) Bool := do
  match ← onCache (·.request key) with
  | .needless => return false
  | .scheduled => return true
  | .refused => .fail .shutDown

def carryOut (compute : Compute ι) (task : Task) : Run (Workspace ι) Branches := do
  match ← Run.attempt (traced compute task.key) with
  | .ok branches =>
    onCache fun c => ((), c.finish task branches)
    return branches
  | .error e =>
    onCache fun c => ((), c.settle task)
    .fail e

def runNext (compute : Compute ι) : Run (Workspace ι) (Option Branches) := do
  let task? ← onCache fun c => match c.begin? with
    | some (task, c) => (some task, c)
    | none => (none, c)
  match task? with
  | none => return none
  | some task => return some (← carryOut compute task)

def invalidate (root : Option String) : Run (Workspace ι) Unit := do
  note (.invalidated root)
  onCache fun c => ((), c.invalidate root)

def shutdown : Run (Workspace ι) Unit := onCache fun c => ((), c.close)

end HistoryGuard.Containment
