import HistoryGuard.Proofs.Containment.Alone
import HistoryGuard.Proofs.Containment.Apart
import HistoryGuard.Proofs.Containment.Pending

/-! # A failed computation leaves no trace

A lookup whose computation fails changes nothing about the cache. A task whose computation fails
goes off the list with its own mark, and nothing else is changed: the mark of a later task for the
same key stays. So the key can be asked for again exactly if it is neither remembered nor awaited.
-/

namespace HistoryGuard

namespace Cache

/-- The second cache is the first one without the task, which was being carried out, and without
the mark of that task. -/
structure Dismissed (task : Task) (c d : Cache) : Prop where
  entries : d.entries = c.entries
  epoch : d.epoch = c.epoch
  drops : d.drops = c.drops
  queue : d.queue = c.queue
  closed : d.closed = c.closed
  running : d.running = c.running.erase task
  pending : ∀ key, d.pending key =
    if key = task.key ∧ c.pending key = some task.stamp then none else c.pending key

theorem dismissed_settle (c : Cache) (task : Task) : Dismissed task c (c.settle task) :=
  ⟨rfl, rfl, rfl, rfl, rfl, rfl, pending_settle c task⟩

end Cache

namespace Session

open Run Workspace Containment

variable {n : Nat} {key : Key} {task : Task} {rest : List Task} {e : Failure} {w u : Session}

theorem getNow_of_failed (miss : w.cache.get? key = none)
    (failed : compute (nestedStep n) key (begun key w) = (.error e, u)) :
    let done := report n (.getNow key) w
    done.1.outcome = .error e ∧ done.2.cache = u.cache ∧ done.2.own = u.own := by
  have step := step_getNow n key w
  rw [getNow_of_miss _ miss, failed] at step
  exact ⟨congrArg Prod.fst step, congrArg (·.2.cache) step, congrArg (·.2.own) step⟩

theorem runNext_of_failed (waits : w.cache.queue = task :: rest)
    (failed : compute (nestedStep n) task.key (begun task.key (started task rest w)) =
      (.error e, u)) :
    let done := report n .runNext w
    done.1.outcome = .error e ∧ done.2.cache = u.cache.settle task ∧ done.2.own = u.own := by
  have step := step_runNext n w
  rw [runNext_of_task _ waits, failed] at step
  exact ⟨congrArg Prod.fst step, congrArg (·.2.cache) step, congrArg (·.2.own) step⟩

theorem cache_of_alone {s : Step} {v : Session} {outcome : Except Failure Branches}
    (came : compute (nestedStep n) key (begun key v) = (outcome, u)) (own : v.own = w.own)
    (kept : (report n s w).2.own = u.own) (alone : (report n s w).1.nested = []) :
    u.cache = v.cache := by
  have few : (report n s w).2.own.nested.length ≤ w.own.nested.length := nested_le_of_none alone
  rw [kept, ← own] at few
  have quiet := compute_quiet n key (begun key v)
  rw [came] at quiet
  exact (quiet few).cache

theorem report_request_of_opened (opened : w.cache.closed = false) (n : Nat) (key : Key) :
    let c := w.cache
    let asked := report n (.request key) w
    let due := c.get? key = none ∧ c.pending key ≠ some (c.stamp key.root)
    (due → asked.1.outcome = .ok (.flag true) ∧
      asked.2.cache.queue = c.queue ++ [⟨key, c.stamp key.root⟩]) ∧
    (¬ due → asked.1.outcome = .ok (.flag false) ∧ asked.2.cache = c) := by
  intro c asked due
  have unknown_iff : w.cache.knows key = false ↔ due := Cache.knows_eq_false_iff
  cases known : w.cache.knows key with
  | true =>
    have undue : ¬ due := fun h => Bool.false_ne_true ((unknown_iff.mpr h).symm.trans known)
    refine ⟨fun h => absurd h undue, fun _ => ?_⟩
    have answer : asked = _ := report_request_of_known known n
    rw [answer]
    exact ⟨rfl, rfl⟩
  | false =>
    refine ⟨fun _ => ?_, fun undue => absurd (unknown_iff.mp known) undue⟩
    have answer : asked = _ := report_request_of_open known opened n
    rw [answer, Cache.request_of_scheduled known opened]
    exact ⟨rfl, rfl⟩

/-- In whatever state a session comes through, a failed computation leaves no trace. A lookup ends
with its failure, and the cache is as before. A task ends with its failure, and is taken off with
its own mark, whatever steps were nested in it: nothing is remembered or forgotten, and the mark of
a task with another stamp stays. Then, before the shutdown, a request for the key takes on a task
exactly if the key is neither remembered nor marked under the present stamp. -/
theorem failure_traceless {start w : Session} (initial : Initial start) (reaches : Reaches start w)
    (limit : Nat) :
    (∀ key e u, w.cache.get? key = none →
      compute (nestedStep limit) key (begun key w) = (.error e, u) →
      let done := report limit (.getNow key) w
      done.1.outcome = .error e ∧ done.2.cache = u.cache ∧
      (done.1.nested = [] → done.2.cache = w.cache)) ∧
    ∀ task rest e u, w.cache.queue = task :: rest →
      compute (nestedStep limit) task.key (begun task.key (started task rest w)) = (.error e, u) →
      let done := report limit .runNext w
      let c := done.2.cache
      done.1.outcome = .error e ∧ u.cache.Dismissed task c ∧
      (done.1.nested = [] → (started task rest w).cache.Dismissed task c) ∧
      c.running = w.cache.running ∧ task ∉ c.outstanding ∧
      (c.closed = false →
        let asked := report limit (.request task.key) done.2
        let due := c.get? task.key = none ∧ c.pending task.key ≠ some (c.stamp task.key.root)
        (due ↔ c.get? task.key = none ∧ ⟨task.key, c.stamp task.key.root⟩ ∉ c.outstanding) ∧
        (due → asked.1.outcome = .ok (.flag true) ∧
          asked.2.cache.queue = c.queue ++ [⟨task.key, c.stamp task.key.root⟩]) ∧
        (¬ due → asked.1.outcome = .ok (.flag false) ∧ asked.2.cache = c)) := by
  constructor
  · intro key e u miss failed done
    obtain ⟨outcome, cache, own⟩ := getNow_of_failed miss failed
    exact ⟨outcome, cache, fun alone => cache.trans (cache_of_alone failed rfl own alone)⟩
  · intro task rest e u waits failed done c
    obtain ⟨outcome, cache, own⟩ := runNext_of_failed waits failed
    have booked : (started task rest w).cache.Booked :=
      booked_started waits (initial.booked reaches)
    have later := bookedLater_compute limit task.key (begun task.key (started task rest w))
    rw [failed] at later
    have running : u.cache.running = task :: w.cache.running := later.running
    have settled : c = u.cache.settle task := cache
    have dismissed : u.cache.Dismissed task c := settled ▸ Cache.dismissed_settle u.cache task
    refine ⟨outcome, dismissed, fun alone => ?_, ?_, ?_, fun opened => ⟨?_, ?_⟩⟩
    · have same : u.cache = (started task rest w).cache :=
        cache_of_alone (w := w) failed rfl own alone
      exact same ▸ dismissed
    · rw [dismissed.running, running, List.erase_cons_head]
    · rw [settled, Cache.outstanding_settle running]
      exact ((later.booked booked).nodup_running running).1
    · have after : c.Booked := initial.booked (reaches.step limit .runNext)
      rw [ne_eq, after.pending_iff opened]
    · exact report_request_of_opened opened limit task.key

theorem failure_traceless_overtaken :
    let key : Key := ⟨"/work", "c"⟩
    let w := (run 0 [.request key, .getNow key, .invalidate none, .request key] waningSession).2
    let looked := report 0 (.getNow key) w
    let done := report 0 .runNext w
    looked.1.outcome = .error .noAnswer ∧ looked.2.cache = w.cache ∧
    done.1.outcome = .error .noAnswer ∧ done.2.cache.queue = [⟨key, ⟨1, 0⟩⟩] ∧
    done.2.cache.pending key = some ⟨1, 0⟩ ∧
    (report 0 (.request key) (report 0 .runNext w).2).1.outcome = .ok (.flag false) := by
  intro key w looked done
  obtain ⟨lookup, task⟩ :=
    failure_traceless (w := w) ⟨rfl, rfl⟩ (reaches_run 0 _ waningSession) 0
  have alone : looked.1.nested = [] := by decide +kernel
  have alone' : done.1.nested = [] := by decide +kernel
  have mark : w.cache.pending key = some ⟨1, 0⟩ := by decide +kernel
  have waits : w.cache.queue = [⟨key, ⟨0, 0⟩⟩, ⟨key, ⟨1, 0⟩⟩] := by decide +kernel
  obtain ⟨failed, -, same⟩ := lookup key .noAnswer _ rfl (eq_of_fst rfl)
  obtain ⟨failed', -, dismissed, -, -, later⟩ := task _ _ .noAnswer _ waits (eq_of_fst rfl)
  have dismissed := dismissed alone'
  have marked : done.2.cache.pending key = some ⟨1, 0⟩ := by
    rw [dismissed.pending]
    exact mark
  obtain ⟨-, -, undue⟩ := later (by decide +kernel)
  have stamp : done.2.cache.stamp key.root = ⟨1, 0⟩ := by decide +kernel
  have answer := (undue fun due => due.2 (marked.trans (congrArg some stamp.symm))).1
  dsimp only at answer
  exact ⟨failed, same alone, failed', dismissed.queue, marked, answer⟩

end Session

end HistoryGuard
