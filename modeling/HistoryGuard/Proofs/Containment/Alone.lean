import HistoryGuard.Proofs.Containment.Prepared
import HistoryGuard.Proofs.Gate.Cases
import HistoryGuard.Proofs.Report

/-! # Computations with nothing nested in them

Where no step is nested in a computation, git may be asked meanwhile and nothing else happens. So a
lookup and a task do to the cache what their outcome says, and the journal shows one computation of
the key with that outcome.
-/

namespace HistoryGuard

def Event.begun? : Event → Option Key
  | computing _ key => some key
  | _ => none

def Event.isFailure : Event → Bool
  | computed _ _ (.error _) => true
  | _ => false

namespace Event

variable {es : List Event}

theorem begun?_of_asides (h : ∀ e ∈ es, e.isAside = true) : es.filterMap begun? = [] := by
  rw [List.filterMap_eq_nil_iff]
  intro e he
  cases e with
  | computing n key => simpa [isAside, isQuery, isNotice] using h _ he
  | _ => rfl

theorem computed_notMem_of_asides (h : ∀ e ∈ es, e.isAside = true) (n : Nat) (key : Key)
    (outcome : Except Failure Branches) : computed n key outcome ∉ es := by
  intro he
  simpa [isAside, isQuery, isNotice] using h _ he

end Event

def StepReport.begun (r : StepReport) : List Key := r.events.filterMap Event.begun?

namespace Session

open Run Workspace Containment

/-- Between the two sessions the key has been computed once, and nothing else has happened that
concerns history or the cache. The cache has become this. -/
structure Comes (key : Key) (outcome : Except Failure Branches) (c : Cache) (w v : Session) :
    Prop where
  cache : v.cache = c
  journal : ∃ later between earlier, v.shell.journal =
      later ++ .computed w.serial key outcome :: between ++ .computing w.serial key :: earlier ++
        w.shell.journal ∧
    (∀ e ∈ later, e.isAside = true) ∧ (∀ e ∈ between, e.isAside = true) ∧
    ∀ e ∈ earlier, e.isAside = true

variable {n : Nat} {key : Key} {outcome : Except Failure Branches} {c : Cache} {w v u x : Session}

namespace Comes

theorem of_quiet (begins : u.shell.journal = .computing w.serial key :: w.shell.journal)
    (quiet : Quiet u v) (ends : x.shell.journal = .computed w.serial key outcome :: v.shell.journal)
    (cache : x.cache = c) : Comes key outcome c w x := by
  obtain ⟨es, journal, queries⟩ := quiet.journal
  refine ⟨cache, [], es, [], ?_, by simp, fun e he => ?_, by simp⟩
  · rw [ends, journal, begins]
    simp
  · exact Event.isAside_of_isQuery (queries e he)

theorem widen (h : Comes key outcome c u v) (before : Beside (Event.isAside ·) w u)
    (after : Beside (Event.isAside ·) v x) : Comes key outcome c w x := by
  obtain ⟨later, between, earlier, journal, aside, asides, asides'⟩ := h.journal
  obtain ⟨first, was, quiet⟩ := before.journal
  obtain ⟨last, is, quiet'⟩ := after.journal
  refine ⟨after.cache.trans h.cache, last ++ later, between, earlier ++ first, ?_, ?_, asides, ?_⟩
  · rw [is, journal, was, before.serial]
    simp
  · exact List.forall_mem_append.mpr ⟨quiet', aside⟩
  · exact List.forall_mem_append.mpr ⟨asides', quiet⟩

theorem events (h : Comes key outcome c w v) :
    ∃ earlier between later, added w.shell.journal v.shell.journal =
      earlier ++ .computing w.serial key :: between ++ .computed w.serial key outcome :: later ∧
    (∀ e ∈ earlier, e.isAside = true) ∧ (∀ e ∈ between, e.isAside = true) ∧
    ∀ e ∈ later, e.isAside = true := by
  obtain ⟨later, between, earlier, journal, aside, asides, asides'⟩ := h.journal
  refine ⟨earlier.reverse, between.reverse, later.reverse, ?_, ?_⟩
  · rw [journal, added_append]
    simp
  · simpa using ⟨asides', asides, aside⟩

theorem begun (h : Comes key outcome c w v) :
    (added w.shell.journal v.shell.journal).filterMap Event.begun? = [key] := by
  obtain ⟨earlier, between, later, events, quiet, quiet', quiet''⟩ := h.events
  simp only [events, List.filterMap_append, List.filterMap_cons, Event.begun?_of_asides quiet,
    Event.begun?_of_asides quiet', Event.begun?_of_asides quiet'']
  rfl

theorem computed_iff (h : Comes key outcome c w v) {serial : Nat} {k : Key}
    {other : Except Failure Branches} :
    .computed serial k other ∈ added w.shell.journal v.shell.journal ↔
      serial = w.serial ∧ k = key ∧ other = outcome := by
  obtain ⟨earlier, between, later, events, quiet, quiet', quiet''⟩ := h.events
  simp [events, Event.computed_notMem_of_asides quiet,
    Event.computed_notMem_of_asides quiet', Event.computed_notMem_of_asides quiet'']

end Comes

/-- A lookup that misses ends with the outcome of its computation. -/
theorem getNow_alone (miss : w.cache.get? key = none)
    (alone : (getNow (compute (nestedStep n)) key w).2.own.nested.length ≤ w.own.nested.length) :
    ∃ outcome v, getNow (compute (nestedStep n)) key w = (outcome, v) ∧
      Comes key outcome (w.cache.looked key outcome) w v := by
  rw [getNow_of_miss _ miss] at alone ⊢
  have quiet := compute_quiet n key (begun key w)
  rcases came : compute (nestedStep n) key (begun key w) with ⟨e | b, v⟩
  · rw [came] at quiet alone
    exact ⟨.error e, _, rfl, .of_quiet (begun_journal key w) (quiet alone) rfl (quiet alone).cache⟩
  · rw [came] at quiet alone
    have same := congrArg (Cache.store · key (w.cache.stamp key.root) b) (quiet alone).cache
    exact ⟨.ok b, _, rfl, .of_quiet (begun_journal key w) (quiet alone) rfl same⟩

theorem runNext_alone {task : Task} {rest : List Task} (waits : w.cache.queue = task :: rest)
    (alone : (runNext (compute (nestedStep n)) w).2.own.nested.length ≤ w.own.nested.length) :
    ∃ outcome v, runNext (compute (nestedStep n)) w = (outcome.map some, v) ∧
      Comes task.key outcome (w.cache.carried task rest outcome) w v := by
  rw [runNext_of_task _ waits] at alone ⊢
  have begins := begun_journal task.key (started task rest w)
  have quiet := compute_quiet n task.key (begun task.key (started task rest w))
  rcases came : compute (nestedStep n) task.key (begun task.key (started task rest w)) with
    ⟨e | b, v⟩
  · rw [came] at quiet alone
    have same := congrArg (Cache.settle · task) (quiet alone).cache
    exact ⟨.error e, _, rfl, .of_quiet begins (quiet alone) rfl same⟩
  · rw [came] at quiet alone
    have same := congrArg (Cache.finish · task b) (quiet alone).cache
    exact ⟨.ok b, _, rfl, .of_quiet begins (quiet alone) rfl same⟩

theorem attemptEdit_alone {s : Selection} {title : String}
    (alone : (Gate.attemptEdit (compute (nestedStep n)) s title w).2.own.nested.length ≤
      w.own.nested.length) :
    Beside (Event.isAside ·) w (Gate.attemptEdit (compute (nestedStep n)) s title w).2 ∨
      ∃ key outcome, w.cache.get? key = none ∧
        Comes key outcome (w.cache.looked key outcome) w
          (Gate.attemptEdit (compute (nestedStep n)) s title w).2 := by
  have told := (Gate.attemptEdit_beside (compute (nestedStep n)) s title w).mono
    (Q := (Event.isAside ·)) fun e he => by simp [Event.isAside, he]
  rcases Gate.judge_course (compute (nestedStep n)) s w with
    asked | ⟨commit, found, -, asked, miss, judged⟩
  · exact .inl (trans_of _ (asked.mono fun _ => Event.isAside_of_isQuery) told)
  · have before := asked.mono (Q := (Event.isAside ·)) fun _ => Event.isAside_of_isQuery
    have after := trans_of _
      (judged.mono (Q := (Event.isAside ·)) fun _ => Event.isAside_of_isQuery) told
    rw [after.own, ← before.own] at alone
    obtain ⟨outcome, u, came, comes⟩ := getNow_alone miss alone
    rw [came] at after
    rw [before.cache] at miss comes
    exact .inr ⟨commit.key, outcome, miss, comes.widen before after⟩

end Session

end HistoryGuard
