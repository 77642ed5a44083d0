import HistoryGuard.Branches
import HistoryGuard.Commit
import HistoryGuard.Table

/-! # The containment cache

Which branches contain a commit is computed once and remembered until it is forgotten on
purpose. A computation carries the stamp that its root had when it was asked for, and its
result is remembered only while the root still has that stamp.

Work in the background is a queue of tasks. A key with a task asked for under the present
stamp is marked as pending, and is not asked for twice.
-/

namespace HistoryGuard

/-- How often everything, and how often one root, has been forgotten. -/
structure Stamp where
  epoch : Nat
  drops : Nat
  deriving DecidableEq, Repr

structure Task where
  key : Key
  stamp : Stamp
  deriving DecidableEq, Repr

structure Cache where
  entries : Table Key Branches := Table.empty
  pending : Table Key Stamp := Table.empty
  epoch : Nat := 0
  drops : String → Nat := fun _ => 0
  /-- Tasks that wait, the oldest first. -/
  queue : List Task := []
  /-- Tasks whose computation has begun and not ended, the latest first. -/
  running : List Task := []
  /-- No further task is taken on. -/
  closed : Bool := false

inductive Request
  /-- The key is remembered or pending. -/
  | needless
  | scheduled
  | refused
  deriving DecidableEq, Repr

namespace Cache

def stamp (c : Cache) (root : String) : Stamp := ⟨c.epoch, c.drops root⟩

def get? (c : Cache) (key : Key) : Option Branches := c.entries key

/-- Remembers a result that was asked for under `stamp`, unless the root has been forgotten
since. -/
def store (c : Cache) (key : Key) (stamp : Stamp) (branches : Branches) : Cache :=
  if c.stamp key.root = stamp then { c with entries := c.entries.put key branches } else c

/-- The key is remembered or pending under the present stamp. -/
def knows (c : Cache) (key : Key) : Bool :=
  (c.entries key).isSome || c.pending key == some (c.stamp key.root)

/-- Asks for a computation in the background. After the shutdown the mark is set, and the task
is refused. -/
def request (c : Cache) (key : Key) : Request × Cache :=
  if c.knows key then (.needless, c)
  else
    let stamp := c.stamp key.root
    let marked := { c with pending := c.pending.put key stamp }
    if c.closed then (.refused, marked)
    else (.scheduled, { marked with queue := c.queue ++ [⟨key, stamp⟩] })

def begin? (c : Cache) : Option (Task × Cache) :=
  match c.queue with
  | [] => none
  | task :: rest => some (task, { c with queue := rest, running := task :: c.running })

/-- Takes a task that has ended off the list, with its mark if the mark is its own. -/
def settle (c : Cache) (task : Task) : Cache :=
  { c with
    running := c.running.erase task
    pending := if c.pending task.key = some task.stamp then c.pending.drop task.key else c.pending }

def finish (c : Cache) (task : Task) (branches : Branches) : Cache :=
  (c.settle task).store task.key task.stamp branches

/-- Forgets one root, or everything. Computations that are under way will not be remembered. -/
def invalidate (c : Cache) : Option String → Cache
  | none => { c with epoch := c.epoch + 1, entries := Table.empty }
  | some root =>
    { c with
      drops := fun r => if r = root then c.drops r + 1 else c.drops r
      entries := c.entries.dropWhere (·.root == root) }

def close (c : Cache) : Cache := { c with closed := true }

theorem store_of_stale {c : Cache} {key : Key} {stamp : Stamp} (b : Branches)
    (h : c.stamp key.root ≠ stamp) : c.store key stamp b = c := if_neg h

theorem request_of_knows {c : Cache} {key : Key} (h : c.knows key = true) :
    c.request key = (.needless, c) := if_pos h

end Cache

end HistoryGuard
