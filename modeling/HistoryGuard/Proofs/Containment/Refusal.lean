import HistoryGuard.Proofs.Containment.Pending

/-! # Refused requests

After the shutdown a request for a key that is not known is refused, but the key has been marked
by then. No task stands behind the mark. So the key passes for pending, and the same request is not
refused a second time, until its root is forgotten.
-/

namespace HistoryGuard

open Run Workspace Containment

namespace Cache

variable {c : Cache} {key : Key}

theorem Booked.idle_of_unknown (h : c.Booked) (unknown : c.knows key = false) :
    ⟨key, c.stamp key.root⟩ ∉ c.outstanding :=
  fun out => pending_of_not_knows unknown (h.marked _ out rfl)

theorem knows_of_marked (marked : c.pending key = some (c.stamp key.root)) :
    c.knows key = true := by
  simp [knows, marked]

end Cache

namespace Session

variable {w : Session} {key : Key}

def mark (key : Key) (w : Session) : Session :=
  { w with cache.pending := w.cache.pending.put key (w.cache.stamp key.root) }

theorem mark_of_refused (closed : w.cache.closed = true) (unknown : w.cache.knows key = false) :
    { w with cache := (w.cache.request key).2 } = mark key w := by
  rw [Cache.request_of_refused unknown closed]
  rfl

theorem closed_of_refused {n : Nat} {e : Failure}
    (refused : (report n (.request key) w).1.outcome = .error e) :
    w.cache.closed = true ∧ w.cache.knows key = false := by
  cases known : w.cache.knows key with
  | true =>
    rw [report_request_of_known known] at refused
    cases refused
  | false =>
    cases closed : w.cache.closed with
    | true => exact ⟨rfl, rfl⟩
    | false =>
      rw [report_request_of_open known closed] at refused
      cases refused

/-- In whatever state a session comes through, a request fails exactly after the shutdown, for a
key that is neither remembered nor marked under the present stamp of its root. Then the key is
marked so, although no such task is outstanding, and nothing else is changed. The same request is
not refused again until the root is forgotten. -/
theorem refusal_marks {start w : Session} (initial : Initial start) (reaches : Reaches start w)
    (limit : Nat) (key : Key) :
    let c := w.cache
    let asked := report limit (.request key) w
    ((∃ e, asked.1.outcome = .error e) ↔
      c.closed = true ∧ c.get? key = none ∧ c.pending key ≠ some (c.stamp key.root)) ∧
    ∀ e, asked.1.outcome = .error e → e = .shutDown ∧ asked.2 = mark key w ∧
      ⟨key, c.stamp key.root⟩ ∉ asked.2.cache.outstanding ∧
      report limit (.request key) asked.2 = (⟨.ok (.flag false), [], []⟩, asked.2) ∧
      ∀ target, Cache.Forgets target key.root →
        let forgot := (step limit (.invalidate target) asked.2).2
        (report limit (.request key) forgot).1.outcome = .error .shutDown := by
  intro c asked
  have booked := initial.booked reaches
  rw [← Cache.knows_eq_false_iff]
  constructor
  · constructor
    · rintro ⟨e, refused⟩
      exact closed_of_refused refused
    · rintro ⟨closed, unknown⟩
      exact ⟨_, congrArg (·.1.outcome) (report_request_of_closed unknown closed limit)⟩
  · intro e refused
    obtain ⟨closed, unknown⟩ := closed_of_refused refused
    have refusal : asked = _ := report_request_of_closed unknown closed limit
    rw [mark_of_refused closed unknown] at refusal
    rw [refusal] at refused ⊢
    have marked : (mark key w).cache.pending key = some ((mark key w).cache.stamp key.root) :=
      Table.put_same ..
    have after : (mark key w).cache.Booked := by
      have whole := booked.request key
      rwa [Cache.request_of_refused unknown closed] at whole
    refine ⟨by cases refused; rfl, rfl, booked.idle_of_unknown unknown, ?_, ?_⟩
    · exact report_request_of_known (Cache.knows_of_marked marked) limit
    · intro target forgets forgot
      have cache : forgot.cache = (mark key w).cache.invalidate target := by
        simp only [forgot, step_invalidate, invalidate_eq]
      have unknown : forgot.cache.knows key = false :=
        cache ▸ after.unknown_of_forgets forgets
      have closed : forgot.cache.closed = true := by
        rw [cache]
        cases target <;> exact closed
      rw [report_request_of_closed unknown closed]

theorem refusal_marks_stale :
    let key : Key := ⟨"/work", "c"⟩
    let w := (run 0 [.request key, .invalidate none, .shutdown] steadySession).2
    let asked := report 0 (.request key) w
    w.cache.pending key = some ⟨0, 0⟩ ∧ asked.1.outcome = .error .shutDown ∧
    asked.2.cache.pending key = some ⟨1, 0⟩ ∧ ⟨key, ⟨1, 0⟩⟩ ∉ asked.2.cache.outstanding ∧
    (report 0 (.request key) asked.2).1.outcome = .ok (.flag false) := by
  intro key w asked
  obtain ⟨fails, changes⟩ :=
    refusal_marks (w := w) ⟨rfl, rfl⟩ (reaches_run 0 _ steadySession) 0 key
  obtain ⟨e, refused⟩ := fails.mpr (by decide +kernel)
  obtain ⟨rfl, marked, idle, repeated, -⟩ := changes e refused
  refine ⟨rfl, refused, ?_, idle, congrArg (·.1.outcome) repeated⟩
  rw [marked]
  rfl

/-- A refused request leaves a mark without a task, and is not refused again. -/
theorem refused_request_marks :
    let key : Key := ⟨"/work", "c"⟩
    let w := (run 0 [.shutdown] steadySession).2
    let asked := report 0 (.request key) w
    asked.1.outcome = .error .shutDown ∧ w.cache.pending key = none ∧
    asked.2.cache.pending key = some (asked.2.cache.stamp key.root) ∧
    asked.2.cache.outstanding = [] ∧
    (report 0 (.request key) asked.2).1.outcome = .ok (.flag false) := by
  decide +kernel

end Session

end HistoryGuard
