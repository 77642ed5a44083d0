import HistoryGuard.Proofs.Containment.Prepared

/-! # What a cache holds of one root

All roots share one cache, with one queue and one count of how often everything was forgotten. A
slice is what the cache holds of one root. What is done to another root leaves the slice alone, and
what is done to the root itself, or to all roots, goes by the slice.
-/

namespace HistoryGuard

namespace Table

variable {α : Type} {key : Key} {root : String}

/-- What a table holds under one root, by commit. -/
def under (t : Table Key α) (root : String) : Table String α := fun sha => t ⟨root, sha⟩

theorem under_put (t : Table Key α) (key : Key) (value : α) :
    (t.put key value).under key.root = (t.under key.root).put key.sha value := by
  obtain ⟨root, sha⟩ := key
  funext k
  simp [under, put]

theorem under_put_other (t : Table Key α) (value : α) (other : key.root ≠ root) :
    (t.put key value).under root = t.under root := by
  funext k
  refine put_other _ _ ?_
  rintro rfl
  exact other rfl

theorem under_drop (t : Table Key α) (key : Key) :
    (t.drop key).under key.root = (t.under key.root).drop key.sha := by
  obtain ⟨root, sha⟩ := key
  funext k
  simp [under, drop]

theorem under_drop_other (t : Table Key α) (other : key.root ≠ root) :
    (t.drop key).under root = t.under root := by
  funext k
  refine drop_other _ ?_
  rintro rfl
  exact other rfl

end Table

/-- What a cache holds of one root. Branches and marks are listed by commit. -/
@[ext]
structure Slice where
  entries : Table String Branches
  pending : Table String Stamp
  stamp : Stamp
  queue : List Task
  running : List Task
  closed : Bool

namespace Cache

def slice (c : Cache) (root : String) : Slice where
  entries := c.entries.under root
  pending := c.pending.under root
  stamp := c.stamp root
  queue := c.queue.filter (·.key.root = root)
  running := c.running.filter (·.key.root = root)
  closed := c.closed

variable {c d : Cache} {root : String} {key : Key} {task : Task}

theorem mem_queue_request (h : task ∈ (c.request key).2.queue) :
    task ∈ c.queue ∨ task.key = key := by
  unfold Cache.request at h
  split at h
  · exact .inl h
  · dsimp only at h
    split at h
    · exact .inl h
    · rcases List.mem_append.mp h with before | last
      · exact .inl before
      · rw [List.mem_singleton.mp last]
        exact .inr rfl

section Other

theorem slice_store_other (other : key.root ≠ root) (stamp : Stamp) (b : Branches) :
    (c.store key stamp b).slice root = c.slice root := by
  unfold store
  split
  case isFalse => rfl
  ext1
  case entries => exact Table.under_put_other _ b other
  all_goals rfl

theorem slice_request_other (other : key.root ≠ root) :
    (c.request key).2.slice root = c.slice root := by
  have marked := Table.under_put_other c.pending (c.stamp key.root) other
  unfold request
  split
  case isTrue => rfl
  dsimp only
  split
  · ext1
    case pending => exact marked
    all_goals rfl
  · ext1
    case pending => exact marked
    case queue => simp [slice, other]
    all_goals rfl

theorem slice_settle_other (other : task.key.root ≠ root) :
    (c.settle task).slice root = c.slice root := by
  ext1
  case pending =>
    dsimp only [slice, settle]
    split
    · exact Table.under_drop_other _ other
    · rfl
  case running =>
    have foreign : task ∉ c.running.filter (·.key.root = root) := by simp [other]
    dsimp only [slice, settle]
    rw [← List.erase_filter, List.erase_of_not_mem foreign]
  all_goals rfl

theorem slice_finish_other (other : task.key.root ≠ root) (b : Branches) :
    (c.finish task b).slice root = c.slice root := by
  rw [finish, slice_store_other other, slice_settle_other other]

theorem slice_looked_other (other : key.root ≠ root) (outcome : Except Failure Branches) :
    (c.looked key outcome).slice root = c.slice root := by
  cases outcome with
  | error e => rfl
  | ok b => exact slice_store_other other _ b

theorem slice_carried_other {rest : List Task} (waits : c.queue = task :: rest)
    (other : task.key.root ≠ root) (outcome : Except Failure Branches) :
    (c.carried task rest outcome).slice root = c.slice root := by
  have begun :
      { c with queue := rest, running := task :: c.running }.slice root = c.slice root := by
    simp [slice, stamp, waits, other]
  cases outcome with
  | error e => exact (slice_settle_other other).trans begun
  | ok b => exact (slice_finish_other other b).trans begun

theorem slice_invalidate_other {r : String} (other : r ≠ root) :
    (c.invalidate (some r)).slice root = c.slice root := by
  have stays : root ≠ r := other.symm
  ext1
  case entries =>
    funext sha
    exact if_neg (by simpa using stays)
  case stamp => simp [slice, stamp, invalidate, stays]
  all_goals rfl

end Other

section Same

theorem slice_store (c : Cache) (key : Key) (stamp : Stamp) (b : Branches) :
    (c.store key stamp b).slice key.root =
      let s := c.slice key.root
      if s.stamp = stamp then { s with entries := s.entries.put key.sha b } else s := by
  unfold store
  dsimp only [slice]
  split
  · ext1
    case entries => exact Table.under_put ..
    all_goals rfl
  · rfl

theorem slice_settle (c : Cache) (task : Task) :
    (c.settle task).slice task.key.root =
      let s := c.slice task.key.root
      { s with
        running := s.running.erase task
        pending := if s.pending task.key.sha = some task.stamp then s.pending.drop task.key.sha
          else s.pending } := by
  ext1
  case pending =>
    by_cases own : c.pending task.key = some task.stamp
    · have marked : (c.slice task.key.root).pending task.key.sha = some task.stamp := own
      simp only [if_pos marked]
      simp only [slice, settle, if_pos own, Table.under_drop]
    · have unmarked : ¬ (c.slice task.key.root).pending task.key.sha = some task.stamp := own
      simp only [if_neg unmarked]
      simp only [slice, settle, if_neg own]
  case running => exact (List.erase_filter ..).symm
  all_goals rfl

theorem knows_of_slice (h : c.slice key.root = d.slice key.root) : c.knows key = d.knows key := by
  have knows (c : Cache) : c.knows key =
      let s := c.slice key.root
      (s.entries key.sha).isSome || s.pending key.sha == some s.stamp := rfl
  rw [knows, knows, h]

theorem slice_request (c : Cache) (key : Key) :
    (c.request key).2.slice key.root =
      let s := c.slice key.root
      let marked := { s with pending := s.pending.put key.sha s.stamp }
      if c.knows key then s else if s.closed then marked
      else { marked with queue := s.queue ++ [⟨key, s.stamp⟩] } := by
  unfold request
  split
  case isTrue => rfl
  dsimp only [slice]
  split
  · ext1
    case pending => exact Table.under_put ..
    all_goals rfl
  · ext1
    case pending => exact Table.under_put ..
    case queue => simp
    all_goals rfl

theorem slice_invalidate (c : Cache) (root : String) :
    (c.invalidate (some root)).slice root =
      let s := c.slice root
      { s with entries := Table.empty, stamp.drops := s.stamp.drops + 1 } := by
  ext1
  case entries =>
    funext sha
    exact if_pos (by simp)
  case stamp => simp [slice, stamp, invalidate]
  all_goals rfl

theorem slice_invalidate_all (c : Cache) (root : String) :
    (c.invalidate none).slice root =
      let s := c.slice root
      { s with entries := Table.empty, stamp.epoch := s.stamp.epoch + 1 } := rfl

theorem slice_close (c : Cache) (root : String) :
    c.close.slice root = { c.slice root with closed := true } := rfl

theorem request_of_slice (h : c.slice key.root = d.slice key.root) :
    (c.request key).1 = (d.request key).1 := by
  have answer (c : Cache) : (c.request key).1 =
      if c.knows key then .needless
      else if (c.slice key.root).closed then .refused else .scheduled := by
    rw [show (c.slice key.root).closed = c.closed from rfl, request]
    cases c.knows key <;> cases c.closed <;> rfl
  rw [answer, answer, knows_of_slice h, h]

theorem get?_of_slice (h : c.slice key.root = d.slice key.root) : c.get? key = d.get? key :=
  congrFun (congrArg Slice.entries h) key.sha

theorem slice_request_congr (h : c.slice key.root = d.slice key.root) :
    (c.request key).2.slice key.root = (d.request key).2.slice key.root := by
  rw [slice_request, slice_request, knows_of_slice h, h]

theorem slice_store_congr (h : c.slice key.root = d.slice key.root) (stamp : Stamp)
    (b : Branches) :
    (c.store key stamp b).slice key.root = (d.store key stamp b).slice key.root := by
  rw [slice_store, slice_store, h]

theorem slice_settle_congr (h : c.slice task.key.root = d.slice task.key.root) :
    (c.settle task).slice task.key.root = (d.settle task).slice task.key.root := by
  rw [slice_settle, slice_settle, h]

theorem slice_looked_congr (h : c.slice key.root = d.slice key.root)
    (outcome : Except Failure Branches) :
    (c.looked key outcome).slice key.root = (d.looked key outcome).slice key.root := by
  cases outcome with
  | error e => exact h
  | ok b =>
    have stamp : c.stamp key.root = d.stamp key.root := congrArg Slice.stamp h
    rw [looked, looked, stamp, slice_store_congr h]

theorem slice_finish_congr (h : c.slice task.key.root = d.slice task.key.root) (b : Branches) :
    (c.finish task b).slice task.key.root = (d.finish task b).slice task.key.root := by
  exact slice_store_congr (slice_settle_congr h) task.stamp b

theorem slice_carried_congr {rest rest' : List Task} (waits : c.queue = task :: rest)
    (waits' : d.queue = task :: rest') (h : c.slice task.key.root = d.slice task.key.root)
    (outcome : Except Failure Branches) :
    (c.carried task rest outcome).slice task.key.root =
      (d.carried task rest' outcome).slice task.key.root := by
  have begun {c : Cache} {rest : List Task} (waits : c.queue = task :: rest) :
      { c with queue := rest, running := task :: c.running }.slice task.key.root =
        let s := c.slice task.key.root
        { s with queue := s.queue.tail, running := task :: s.running } := by
    simp [slice, stamp, waits]
  have same := (begun waits).trans ((h ▸ rfl : _ = _).trans (begun waits').symm)
  cases outcome with
  | error e => exact slice_settle_congr same
  | ok b => exact slice_finish_congr same b

theorem slice_invalidate_congr (h : c.slice root = d.slice root) {target : Option String}
    (forgets : Forgets target root) :
    (c.invalidate target).slice root = (d.invalidate target).slice root := by
  rcases forgets with rfl | rfl
  · rw [slice_invalidate_all, slice_invalidate_all, h]
  · rw [slice_invalidate, slice_invalidate, h]

end Same

end Cache

end HistoryGuard
