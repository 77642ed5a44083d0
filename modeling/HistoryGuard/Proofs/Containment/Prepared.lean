import HistoryGuard.Proofs.Session

/-! # Prepared results

Where no steps come with the prepared results, a computation takes the next result of its key and
leaves those of other keys alone. A lookup, and a task that is carried out, then come to what the
next result says.
-/

namespace HistoryGuard

namespace Cache

/-- What becomes of the cache when a lookup that has missed comes to its outcome. -/
def looked (c : Cache) (key : Key) : Except Failure Branches → Cache
  | .ok b => c.store key (c.stamp key.root) b
  | .error _ => c

/-- What becomes of the cache when the oldest task has been carried out. -/
def carried (c : Cache) (task : Task) (rest : List Task) (outcome : Except Failure Branches) :
    Cache :=
  let begun := { c with queue := rest, running := task :: c.running }
  match outcome with
  | .ok b => begun.finish task b
  | .error _ => begun.settle task

theorem queue_looked (c : Cache) (key : Key) (outcome : Except Failure Branches) :
    (c.looked key outcome).queue = c.queue := by
  cases outcome with
  | error e => rfl
  | ok b => exact queue_store ..

theorem queue_carried (c : Cache) (task : Task) (rest : List Task)
    (outcome : Except Failure Branches) : (c.carried task rest outcome).queue = rest := by
  cases outcome with
  | error e => rfl
  | ok b => exact queue_store ..

end Cache

namespace Session

open Run Workspace Containment

def nextResult (table : Table Key (List Prepared)) (key : Key) : Except Failure Branches :=
  match takePrepared key table with
  | some (next, _) => next.result
  | none => .error .noAnswer

/-- No steps are carried out while a prepared result is computed. -/
def Flat (table : Table Key (List Prepared)) : Prop :=
  ∀ key results, table key = some results → ∀ next ∈ results, next.during = []

theorem during_of_taken {table rest : Table Key (List Prepared)} {key : Key} {next : Prepared}
    (flat : Flat table) (taken : takePrepared key table = some (next, rest)) :
    next.during = [] := by
  cases ht : table key with
  | none => simp [takePrepared, ht] at taken
  | some results =>
    match results, ht with
    | [], ht => simp [takePrepared, ht] at taken
    | [first], ht =>
      simp only [takePrepared, ht, Option.some.injEq, Prod.mk.injEq] at taken
      exact flat key _ ht next (by simp [taken.1])
    | first :: second :: later, ht =>
      simp only [takePrepared, ht, Option.some.injEq, Prod.mk.injEq] at taken
      exact flat key _ ht next (by simp [taken.1])

/-- The results of a key after the next one has been taken. The last one stays. -/
def onward : List Prepared → List Prepared
  | _ :: second :: later => second :: later
  | results => results

def remaining (table : Table Key (List Prepared)) (key : Key) : Table Key (List Prepared) :=
  fun k => if k = key then (table key).map onward else table k

variable {table : Table Key (List Prepared)} {key : Key} {w : Session}

theorem remaining_same : remaining table key key = (table key).map onward := if_pos rfl

theorem remaining_other {k : Key} (h : k ≠ key) : remaining table key k = table k := if_neg h

theorem mem_of_mem_onward {results : List Prepared} {next : Prepared} (h : next ∈ onward results) :
    next ∈ results := by
  match results with
  | [] => exact h
  | [_] => exact h
  | _ :: _ :: _ => exact List.mem_cons_of_mem _ h

theorem mem_of_remaining {k : Key} {results : List Prepared}
    (h : remaining table key k = some results) :
    ∃ before, table k = some before ∧ ∀ next ∈ results, next ∈ before := by
  by_cases same : k = key
  · subst same
    rw [remaining_same, Option.map_eq_some_iff] at h
    obtain ⟨before, held, rfl⟩ := h
    exact ⟨before, held, fun _ => mem_of_mem_onward⟩
  · rw [remaining_other same] at h
    exact ⟨results, h, fun _ member => member⟩

theorem Flat.remaining (flat : Flat table) (key : Key) : Flat (remaining table key) := by
  intro k results held next member
  obtain ⟨before, was, kept⟩ := mem_of_remaining held
  exact flat k before was next (kept next member)

theorem nextResult_eq (table : Table Key (List Prepared)) (key : Key) :
    nextResult table key = match table key with
      | some (next :: _) => next.result
      | _ => .error .noAnswer := by
  rw [nextResult, takePrepared]
  split <;> rename_i h
  · split at h <;> simp_all
  · split at h <;> simp_all

theorem remaining_of_taken {next : Prepared} {rest : Table Key (List Prepared)}
    (taken : takePrepared key table = some (next, rest)) : rest = remaining table key := by
  cases held : table key with
  | none => simp [takePrepared, held] at taken
  | some results =>
    funext k
    match results, held with
    | [], held => simp [takePrepared, held] at taken
    | [_], held =>
      simp only [takePrepared, held, Option.some.injEq, Prod.mk.injEq] at taken
      obtain ⟨-, rfl⟩ := taken
      by_cases same : k = key
      · rw [same, remaining_same, held]
        rfl
      · rw [remaining_other same]
    | _ :: _ :: _, held =>
      simp only [takePrepared, held, Option.some.injEq, Prod.mk.injEq] at taken
      obtain ⟨-, rfl⟩ := taken
      by_cases same : k = key
      · rw [same, remaining_same, held, Table.put_same]
        rfl
      · rw [remaining_other same, Table.put_other _ _ same]

theorem remaining_of_untaken (taken : takePrepared key table = none) :
    remaining table key = table := by
  funext k
  rw [remaining]
  split
  · next same =>
    subst same
    rw [takePrepared] at taken
    split at taken <;> simp_all [onward]
  · rfl

/-- A computation without nested steps takes its result, and nothing else comes of it. -/
theorem compute_flat (f : Step → Run Session Answer) (key : Key)
    (prepared : w.own.prepared = some table) (flat : Flat table) :
    compute f key w = (nextResult table key, prepare (remaining table key) w) := by
  unfold nextResult
  cases taken : takePrepared key table with
  | none =>
    have same : prepare table w = w := by rw [prepare, ← prepared]
    rw [compute_of_unprepared f prepared taken, remaining_of_untaken taken, same]
  | some taking =>
    obtain ⟨next, rest⟩ := taking
    rw [compute_of_prepared f prepared taken, during_of_taken flat taken,
      ← remaining_of_taken taken]
    rfl

/-- Between the two sessions a computation has taken its result, and the cache has become this. -/
structure Computes (table : Table Key (List Prepared)) (key : Key) (c : Cache) (w v : Session) :
    Prop where
  lookup : v.lookup = w.lookup
  policy : v.policy = w.policy
  cache : v.cache = c
  prepared : v.own.prepared = some (remaining table key)
  nested : v.own.nested = w.own.nested
  journal : v.shell.journal = [.computing w.serial key,
    .computed w.serial key (nextResult table key)].reverse ++ w.shell.journal

theorem getNow_flat (f : Step → Run Session Answer) (prepared : w.own.prepared = some table)
    (flat : Flat table) (miss : w.cache.get? key = none) :
    ∃ v, getNow (compute f) key w = (nextResult table key, v) ∧
      Computes table key (w.cache.looked key (nextResult table key)) w v := by
  have computed := compute_flat (w := begun key w) f key prepared flat
  rw [getNow_of_miss (compute f) miss, computed]
  cases hr : nextResult table key with
  | error e => exact ⟨_, rfl, rfl, rfl, rfl, rfl, rfl, by rw [hr]; rfl⟩
  | ok b => exact ⟨_, rfl, rfl, rfl, rfl, rfl, rfl, by rw [hr]; rfl⟩

theorem runNext_flat (f : Step → Run Session Answer) (prepared : w.own.prepared = some table)
    (flat : Flat table) {task : Task} {rest : List Task} (waits : w.cache.queue = task :: rest) :
    ∃ v, runNext (compute f) w = ((nextResult table task.key).map some, v) ∧
      Computes table task.key (w.cache.carried task rest (nextResult table task.key)) w v := by
  have computed := compute_flat (w := begun task.key (started task rest w)) f task.key prepared flat
  rw [runNext_of_task (compute f) waits, computed]
  cases hr : nextResult table task.key with
  | error e => exact ⟨_, rfl, rfl, rfl, rfl, rfl, rfl, by rw [hr]; rfl⟩
  | ok b => exact ⟨_, rfl, rfl, rfl, rfl, rfl, rfl, by rw [hr]; rfl⟩

end Session

end HistoryGuard
