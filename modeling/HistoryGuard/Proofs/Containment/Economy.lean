import HistoryGuard.Proofs.Containment.Alone
import HistoryGuard.Proofs.Containment.Pending

/-! # Nothing is computed in vain

While nothing is forgotten and no computation fails, a key is computed once by a lookup at most, and
once in the background at most. The two routes know of each other by the cache alone. So a key is
computed twice only if a lookup came upon a task that was still waiting.
-/

namespace HistoryGuard

/-- The step neither forgets anything nor shuts down the work in the background. -/
def Step.Retains : Step → Prop
  | perform .. => False
  | invalidate _ => False
  | shutdown => False
  | _ => True

/-- The step carries out a task, where others look up by themselves. -/
def Step.inBackground : Step → Bool
  | runNext => true
  | _ => false

namespace Cache

/-- What may have been done for a key until now: tasks taken on, lookups that computed it, and tasks
carried out. A key that is not known is untouched. -/
structure Sparing (key : Key) (c : Cache) (taken looked carried : Nat) : Prop where
  opened : c.closed = false
  present : ∀ task ∈ c.queue, task.stamp = c.stamp task.key.root
  covered : carried + c.queue.countP (·.key = key) ≤ taken
  taken_le : taken ≤ 1
  looked_le : looked ≤ 1
  unknown : c.knows key = false → taken = 0
  missing : c.get? key = none → looked = 0 ∧ carried = 0

variable {c : Cache} {key k : Key} {taken looked carried : Nat}

theorem sparing_empty (key : Key) : Sparing key {} 0 0 0 :=
  ⟨rfl, by simp, by simp, by simp, by simp, fun _ => rfl, fun _ => ⟨rfl, rfl⟩⟩

theorem Sparing.of_known (h : c.Sparing key taken looked carried) (known : c.get? key ≠ none) :
    c.Sparing key 1 1 (1 - c.queue.countP (·.key = key)) := by
  have covered := h.covered
  have once := h.taken_le
  refine ⟨h.opened, h.present, by omega, Nat.le_refl 1, Nat.le_refl 1, ?_, ?_⟩
  · exact fun unknown => absurd (knows_eq_false_iff.mp unknown).1 known
  · exact fun missing => absurd missing known

theorem Sparing.request (h : c.Sparing key taken looked carried) (unknown : c.knows k = false) :
    (c.request k).2.Sparing key (taken + [k].count key) looked carried := by
  rw [request_of_scheduled unknown h.opened]
  have covered := h.covered
  have once := h.taken_le
  constructor
  case opened => exact h.opened
  case present =>
    intro task waits
    rcases List.mem_append.mp waits with before | last
    · exact h.present task before
    · rw [List.mem_singleton.mp last]
      rfl
  case covered =>
    simp only [List.countP_append, List.countP_singleton, List.count_singleton, beq_iff_eq,
      decide_eq_true_eq]
    split <;> omega
  case taken_le =>
    rw [List.count_singleton]
    split
    · next same =>
      have := h.unknown (beq_iff_eq.mp same ▸ unknown)
      omega
    · exact once
  case looked_le => exact h.looked_le
  case unknown =>
    intro still
    obtain ⟨missing, unmarked⟩ := knows_eq_false_iff.mp still
    by_cases same : key = k
    · subst same
      exact absurd (Table.put_same ..) unmarked
    · have before : c.knows key = false :=
        knows_eq_false_iff.mpr ⟨missing, by rwa [← Table.put_other c.pending _ same]⟩
      rw [h.unknown before, List.count_singleton, if_neg (by simpa using Ne.symm same)]
  case missing => exact h.missing

section Remembered

variable {d : Cache} {b : Branches} (entry : d.get? key = if key = k then some b else c.get? key)
include entry

theorem missing_of_remembered (still : d.get? key = none) : key ≠ k ∧ c.get? key = none := by
  rw [entry] at still
  split at still
  case isTrue => simp at still
  case isFalse other => exact ⟨other, still⟩

theorem Sparing.missing_after (h : c.Sparing key taken looked carried)
    (still : d.get? key = none) : [k].count key = 0 ∧ looked = 0 ∧ carried = 0 := by
  obtain ⟨other, missing⟩ := missing_of_remembered entry still
  exact ⟨List.count_eq_zero.mpr (by simpa using other), h.missing missing⟩

theorem unknown_of_remembered (stamp : d.stamp = c.stamp)
    (pending : key ≠ k → d.pending key = c.pending key) (still : d.knows key = false) :
    c.knows key = false := by
  obtain ⟨missing, unmarked⟩ := knows_eq_false_iff.mp still
  obtain ⟨other, missing⟩ := missing_of_remembered entry missing
  rw [pending other, stamp] at unmarked
  exact knows_eq_false_iff.mpr ⟨missing, unmarked⟩

end Remembered

theorem get?_finish {task : Task} {b : Branches} (current : c.stamp task.key.root = task.stamp) :
    (c.finish task b).get? key = if key = task.key then some b else c.get? key := by
  have same : (c.settle task).stamp task.key.root = task.stamp := current
  rw [finish, get?_store, same]
  simp [settle, get?]

theorem Sparing.look (h : c.Sparing key taken looked carried) (missing : c.get? k = none)
    (b : Branches) :
    (c.looked k (.ok b)).Sparing key taken (looked + [k].count key) carried := by
  have entry : (c.looked k (.ok b)).get? key = if key = k then some b else c.get? key := by
    simp [Cache.looked, get?_store]
  have stamp : (c.looked k (.ok b)).stamp = c.stamp := funext fun root => stamp_store ..
  constructor
  case opened => exact (closed_store ..).trans h.opened
  case present =>
    rw [queue_looked, stamp]
    exact h.present
  case covered =>
    rw [queue_looked]
    exact h.covered
  case taken_le => exact h.taken_le
  case looked_le =>
    rw [List.count_singleton]
    split
    · next same =>
      have := (h.missing (beq_iff_eq.mp same ▸ missing)).1
      omega
    · exact h.looked_le
  case unknown =>
    intro still
    refine h.unknown (unknown_of_remembered entry stamp (fun _ => ?_) still)
    rw [Cache.looked, pending_store]
  case missing =>
    intro still
    obtain ⟨other, unlooked, uncarried⟩ := h.missing_after entry still
    exact ⟨by rw [other, unlooked], uncarried⟩

theorem Sparing.carry (h : c.Sparing key taken looked carried) {task : Task} {rest : List Task}
    (waits : c.queue = task :: rest) (b : Branches) :
    (c.carried task rest (.ok b)).Sparing key taken looked (carried + [task.key].count key) := by
  have current : c.stamp task.key.root = task.stamp := (h.present task (by simp [waits])).symm
  have entry : (c.carried task rest (.ok b)).get? key =
      if key = task.key then some b else c.get? key :=
    get?_finish (c := { c with queue := rest, running := task :: c.running }) current
  have stamp : (c.carried task rest (.ok b)).stamp = c.stamp := funext fun root => stamp_store ..
  constructor
  case opened => exact (closed_store ..).trans h.opened
  case present =>
    rw [queue_carried, stamp]
    exact fun t ht => h.present t (by simp [waits, ht])
  case covered =>
    have covered := h.covered
    rw [waits, List.countP_cons] at covered
    rw [queue_carried, List.count_singleton]
    simp only [beq_iff_eq, decide_eq_true_eq] at covered ⊢
    omega
  case taken_le => exact h.taken_le
  case looked_le => exact h.looked_le
  case unknown =>
    intro still
    refine h.unknown (unknown_of_remembered entry stamp (fun other => ?_) still)
    rw [Cache.carried, finish, pending_store, pending_settle, if_neg fun own => other own.1]
  case missing =>
    intro still
    obtain ⟨other, unlooked, uncarried⟩ := h.missing_after entry still
    exact ⟨unlooked, by rw [other, uncarried]⟩

end Cache

namespace Session

open Run Workspace Containment

/-- No step was nested in the step, and no computation failed in it. -/
def Undisturbed (r : StepReport) : Prop := r.nested = [] ∧ ∀ e ∈ r.events, e.isFailure = false

instance (r : StepReport) : Decidable (Undisturbed r) :=
  decidable_of_iff (r.nested.isEmpty ∧ ∀ e ∈ r.events, e.isFailure = false) <| by
    rw [Undisturbed, List.isEmpty_iff]

def trail (limit : Nat) (steps : List Step) (w : Session) : List (Step × StepReport) :=
  steps.zip (run limit steps w).1

def takesOn (key : Key) : Step × StepReport → Bool
  | (.request k, ⟨.ok (.flag true), _, _⟩) => k = key
  | _ => false

def taken (key : Key) (l : List (Step × StepReport)) : Nat := l.countP (takesOn key)

/-- How many computations of the key began, in the background or in other steps. -/
def computed (background : Bool) (key : Key) (l : List (Step × StepReport)) : Nat :=
  ((l.filter (·.1.inBackground = background)).flatMap (·.2.begun)).count key

/-- What a step does to the cache that retains what is there, where no step is nested in it and no
computation fails. -/
inductive Spends (w v : Session) : Step → StepReport → Prop
  | nothing {s : Step} {r : StepReport} (same : v.cache = w.cache) (begun : r.begun = [])
      (untaken : ∀ key, takesOn key (s, r) = false) : Spends w v s r
  | request {key : Key} {r : StepReport} (unknown : w.cache.knows key = false)
      (same : v.cache = (w.cache.request key).2) (begun : r.begun = [])
      (done : r.outcome = .ok (.flag true)) : Spends w v (.request key) r
  | lookup {s : Step} {r : StepReport} {key : Key} {b : Branches}
      (missing : w.cache.get? key = none) (same : v.cache = w.cache.looked key (.ok b))
      (begun : r.begun = [key]) (ahead : s.inBackground = false)
      (untaken : ∀ key, takesOn key (s, r) = false) : Spends w v s r
  | task {r : StepReport} {task : Task} {rest : List Task} {b : Branches}
      (waits : w.cache.queue = task :: rest) (same : v.cache = w.cache.carried task rest (.ok b))
      (begun : r.begun = [task.key]) : Spends w v .runNext r

variable {n : Nat} {s : Step} {w v : Session}

theorem spends_of_beside (aside : Beside (Event.isAside ·) w (step n s w).2)
    (untaken : ∀ key, takesOn key (s, (report n s w).1) = false) :
    Spends w (report n s w).2 s (report n s w).1 := by
  obtain ⟨es, journal, quiet⟩ := aside.journal
  refine .nothing aside.cache ?_ untaken
  show (added w.shell.journal (step n s w).2.shell.journal).filterMap Event.begun? = []
  rw [journal, added_append]
  exact Event.begun?_of_asides (by simpa using quiet)

theorem Comes.ok {key : Key} {outcome : Except Failure Branches} {c : Cache}
    (h : Comes key outcome c w v)
    (well : ∀ e ∈ added w.shell.journal v.shell.journal, e.isFailure = false) :
    ∃ b, outcome = .ok b := by
  have shown := well _ (h.computed_iff.mpr ⟨rfl, rfl, rfl⟩)
  cases outcome with
  | error e => simp [Event.isFailure] at shown
  | ok b => exact ⟨b, rfl⟩

theorem spends_of_comes {key : Key} {outcome : Except Failure Branches}
    (missing : w.cache.get? key = none)
    (comes : Comes key outcome (w.cache.looked key outcome) w (step n s w).2)
    (well : Undisturbed (report n s w).1) (ahead : s.inBackground = false)
    (untaken : ∀ key, takesOn key (s, (report n s w).1) = false) :
    Spends w (report n s w).2 s (report n s w).1 := by
  obtain ⟨b, rfl⟩ := comes.ok well.2
  exact .lookup missing comes.cache comes.begun ahead untaken

theorem spends_attemptEdit {sel : Selection} {title : String}
    (undisturbed : Undisturbed (report n (.attemptEdit sel title) w).1) :
    Spends w (report n (.attemptEdit sel title) w).2 (.attemptEdit sel title)
      (report n (.attemptEdit sel title) w).1 := by
  have after := congrArg Prod.snd (step_attemptEdit n sel title w)
  have alone := nested_le_of_none undisturbed.1
  rw [after] at alone
  rcases attemptEdit_alone alone with aside | ⟨key, outcome, missing, comes⟩
  · exact spends_of_beside (after ▸ aside) fun _ => rfl
  · exact spends_of_comes missing (after ▸ comes) undisturbed rfl fun _ => rfl

theorem spends_getNow {key : Key} (undisturbed : Undisturbed (report n (.getNow key) w).1) :
    Spends w (report n (.getNow key) w).2 (.getNow key) (report n (.getNow key) w).1 := by
  have after := congrArg Prod.snd (step_getNow n key w)
  cases held : w.cache.get? key with
  | some b =>
    rw [getNow_of_hit _ held] at after
    exact spends_of_beside (after ▸ refl_of _ w) fun _ => rfl
  | none =>
    have alone := nested_le_of_none undisturbed.1
    rw [after] at alone
    obtain ⟨outcome, v, came, comes⟩ := getNow_alone held alone
    have after : (step n (.getNow key) w).2 = v := after.trans (congrArg Prod.snd came)
    exact spends_of_comes held (after ▸ comes) undisturbed rfl fun _ => rfl

theorem spends_request {key : Key} (opened : w.cache.closed = false) :
    Spends w (report n (.request key) w).2 (.request key) (report n (.request key) w).1 := by
  cases known : w.cache.knows key with
  | true =>
    rw [report_request_of_known known]
    exact .nothing rfl rfl fun k => by simp [takesOn]
  | false =>
    rw [report_request_of_open known opened]
    exact .request known rfl rfl rfl

theorem spends_runNext (undisturbed : Undisturbed (report n .runNext w).1) :
    Spends w (report n .runNext w).2 .runNext (report n .runNext w).1 := by
  have after := step_runNext_snd n w
  cases waits : w.cache.queue with
  | nil =>
    rw [runNext_of_idle _ waits] at after
    exact spends_of_beside (after ▸ refl_of _ w) fun _ => rfl
  | cons task rest =>
    have alone := nested_le_of_none undisturbed.1
    rw [after] at alone
    obtain ⟨outcome, v, came, comes⟩ := runNext_alone waits alone
    obtain rfl : (step n .runNext w).2 = v := after.trans (congrArg Prod.snd came)
    obtain ⟨b, rfl⟩ := comes.ok undisturbed.2
    exact .task waits comes.cache comes.begun

theorem spends_of_undisturbed (opened : w.cache.closed = false) (retains : s.Retains)
    (undisturbed : Undisturbed (report n s w).1) :
    Spends w (report n s w).2 s (report n s w).1 := by
  cases s with
  | perform edit s => exact retains.elim
  | invalidate root => exact retains.elim
  | shutdown => exact retains.elim
  | attemptEdit s title => exact spends_attemptEdit undisturbed
  | getNow key => exact spends_getNow undisturbed
  | request key => exact spends_request opened
  | runNext => exact spends_runNext undisturbed
  | git behaviour =>
    refine spends_of_beside ?_ fun _ => rfl
    rw [step_eq]
    exact ⟨rfl, rfl, rfl, [], rfl, by simp⟩
  | settings p =>
    refine spends_of_beside ?_ fun _ => rfl
    rw [step_eq]
    exact ⟨rfl, rfl, rfl, [], rfl, by simp⟩
  | getCached key =>
    refine spends_of_beside ?_ fun _ => rfl
    rw [step_getCached]
    exact refl_of _ w
  | _ =>
    refine spends_of_beside ?_ fun _ => rfl
    rw [step_eq]
    exact (upholds_asking.asking_step rfl w).mono fun _ => Event.isAside_of_isQuery

/-- A lookup computes only what is not remembered, which is remembered from then on. -/
theorem Spends.looked {r : StepReport} {key : Key} (h : Spends w v s r)
    (ahead : s.inBackground = false) (began : key ∈ r.begun) :
    w.cache.get? key = none ∧ ∃ b, v.cache = w.cache.looked key (.ok b) := by
  cases h with
  | nothing same begun untaken => simp [begun] at began
  | request unknown same begun done => simp [begun] at began
  | @lookup _ _ k b missing same begun _ untaken =>
    obtain rfl : key = k := by simpa [begun] using began
    exact ⟨missing, b, same⟩
  | task waits same begun => simp [Step.inBackground] at ahead

section Count

variable {key : Key} {limit : Nat} {steps before after : List Step}
  {l l' : List (Step × StepReport)}

theorem taken_append : taken key (l ++ l') = taken key l + taken key l' := List.countP_append

theorem computed_append {background : Bool} : computed background key (l ++ l') =
    computed background key l + computed background key l' := by
  simp [computed]

theorem computed_single {background : Bool} {s : Step} {r : StepReport} :
    computed background key [(s, r)] =
      if s.inBackground = background then r.begun.count key else 0 := by
  by_cases h : s.inBackground = background <;> simp [computed, h]

theorem trail_cons (s : Step) (rest : List Step) (w : Session) : trail limit (s :: rest) w =
    [(s, (report limit s w).1)] ++ trail limit rest (report limit s w).2 := rfl

theorem trail_append (before after : List Step) (w : Session) :
    trail limit (before ++ after) w =
      trail limit before w ++ trail limit after (run limit before w).2 := by
  induction before generalizing w with
  | nil => rfl
  | cons s rest ih => exact congrArg (_ :: ·) (ih _)

theorem run_append_snd (before after : List Step) (w : Session) :
    (run limit (before ++ after) w).2 = (run limit after (run limit before w).2).2 := by
  induction before generalizing w with
  | nil => rfl
  | cons s rest ih => exact ih _

theorem count_begun (key : Key) (steps : List Step) (w : Session) :
    ((run limit steps w).1.flatMap StepReport.begun).count key =
      computed false key (trail limit steps w) + computed true key (trail limit steps w) := by
  induction steps generalizing w with
  | nil => rfl
  | cons s rest ih =>
    have reports : (run limit (s :: rest) w).1 =
        (report limit s w).1 :: (run limit rest (report limit s w).2).1 := rfl
    rw [trail_cons, reports, List.flatMap_cons, List.count_append, ih, computed_append,
      computed_append, computed_single, computed_single]
    cases s.inBackground <;> simp <;> omega

theorem exists_of_mem_trail {r : StepReport} (h : (s, r) ∈ trail limit steps w) :
    ∃ before after, steps = before ++ s :: after ∧
      r = (report limit s (run limit before w).2).1 := by
  induction steps generalizing w with
  | nil => cases h
  | cons first rest ih =>
    rcases List.mem_cons.mp h with here | later
    · obtain ⟨rfl, rfl⟩ := Prod.mk.inj here
      exact ⟨[], rest, rfl, rfl⟩
    · obtain ⟨before, after, rfl, rfl⟩ := ih later
      exact ⟨first :: before, after, rfl, rfl⟩

end Count

def Even (l : List (Step × StepReport)) : Prop := ∀ p ∈ l, p.1.Retains ∧ Undisturbed p.2

section Sparing

variable {key : Key} {taken₀ looked carried : Nat}

theorem sparing_of_spends {r : StepReport} (h : w.cache.Sparing key taken₀ looked carried)
    (spends : Spends w v s r) :
    v.cache.Sparing key (taken₀ + taken key [(s, r)]) (looked + computed false key [(s, r)])
      (carried + computed true key [(s, r)]) := by
  rw [computed_single, computed_single]
  cases spends with
  | nothing same begun untaken =>
    rw [same]
    simpa [taken, untaken, begun] using h
  | @request k r unknown same begun done =>
    obtain ⟨outcome, events, nested⟩ := r
    obtain rfl : outcome = .ok (.flag true) := done
    have count : taken key [(.request k, ⟨.ok (.flag true), events, nested⟩)] = [k].count key := by
      simp [taken, takesOn, List.countP_singleton, List.count_singleton]
    rw [same, count]
    simpa [begun] using h.request unknown
  | lookup missing same begun ahead untaken =>
    rw [same]
    simpa [taken, untaken, begun, ahead] using h.look missing _
  | @task r task rest b waits same begun =>
    rw [same]
    simpa [taken, takesOn, begun, Step.inBackground] using h.carry waits b

/-- The bounds hold all along a run. -/
theorem sparing_run {limit : Nat} {steps : List Step}
    (h : w.cache.Sparing key taken₀ looked carried) (even : Even (trail limit steps w)) :
    (run limit steps w).2.cache.Sparing key (taken₀ + taken key (trail limit steps w))
      (looked + computed false key (trail limit steps w))
      (carried + computed true key (trail limit steps w)) := by
  induction steps generalizing w taken₀ looked carried with
  | nil => exact h
  | cons s rest ih =>
    rw [trail_cons] at even ⊢
    obtain ⟨⟨retains, undisturbed⟩, even⟩ := List.forall_mem_cons.mp even
    have first := sparing_of_spends h (spends_of_undisturbed h.opened retains undisturbed)
    rw [taken_append, computed_append, computed_append, ← Nat.add_assoc, ← Nat.add_assoc,
      ← Nat.add_assoc]
    exact ih first even

end Sparing

section Even

variable {start : Session} {limit : Nat} {steps before after : List Step} {key : Key}

theorem even_trail (retains : ∀ s ∈ steps, s.Retains)
    (undisturbed : ∀ r ∈ (run limit steps start).1, Undisturbed r) :
    Even (trail limit steps start) := by
  intro p hp
  obtain ⟨step, report⟩ := List.of_mem_zip hp
  exact ⟨retains _ step, undisturbed _ report⟩

variable (empty : start.cache = {}) (even : Even (trail limit steps start))
include empty even

theorem sparing_before (split : steps = before ++ after) (key : Key) :
    (run limit before start).2.cache.Sparing key (taken key (trail limit before start))
      (computed false key (trail limit before start))
      (computed true key (trail limit before start)) := by
  rw [split, trail_append] at even
  have fresh : start.cache.Sparing key 0 0 0 := empty ▸ Cache.sparing_empty key
  simpa using sparing_run fresh (List.forall_mem_append.mp even).1

/-- Once a key is remembered, no task is taken on for it, no lookup computes it, and no tasks are
carried out but those that wait. -/
theorem spared_after (split : steps = before ++ after)
    (known : (run limit before start).2.cache.get? key ≠ none) :
    taken key (trail limit after (run limit before start).2) = 0 ∧
    computed false key (trail limit after (run limit before start).2) = 0 ∧
    computed true key (trail limit after (run limit before start).2) ≤
      (run limit before start).2.cache.queue.countP (·.key = key) := by
  have here := (sparing_before empty even split key).of_known known
  rw [split, trail_append] at even
  obtain ⟨-, -, covered, once, lookedOnce, -, -⟩ :=
    sparing_run here (List.forall_mem_append.mp even).2
  exact ⟨by omega, by omega, by omega⟩

theorem missing_of_looked (split : steps = before ++ s :: after) (ahead : s.inBackground = false)
    (began : key ∈ (report limit s (run limit before start).2).1.begun) :
    let w := (run limit before start).2
    w.cache.get? key = none ∧ ∃ b, (report limit s w).2.cache = w.cache.looked key (.ok b) := by
  have here := sparing_before empty even split key
  rw [split, trail_append, trail_cons] at even
  obtain ⟨retains, undisturbed⟩ := (List.forall_mem_cons.mp (List.forall_mem_append.mp even).2).1
  exact (spends_of_undisturbed here.opened retains undisturbed).looked ahead began

/-- If a lookup computes a key while no task of the key waits, none is ever carried out. -/
theorem uncarried_of_looked (split : steps = before ++ s :: after) (ahead : s.inBackground = false)
    (began : key ∈ (report limit s (run limit before start).2).1.begun)
    (idle : (run limit before start).2.cache.queue.countP (·.key = key) = 0) :
    computed true key (trail limit steps start) = 0 := by
  obtain ⟨missing, b, same⟩ := missing_of_looked empty even split ahead began
  have early := ((sparing_before empty even split key).missing missing).2
  have next : (run limit (before ++ [s]) start).2 =
      (report limit s (run limit before start).2).2 := run_append_snd before [s] start
  have split' : steps = (before ++ [s]) ++ after := by simp [split]
  have known : (run limit (before ++ [s]) start).2.cache.get? key ≠ none := by
    rw [next, same]
    simp [Cache.looked, Cache.get?_store]
  have late := (spared_after empty even split' known).2.2
  rw [next, same, Cache.queue_looked, idle] at late
  rw [split, trail_append, trail_cons, computed_append, computed_append, computed_single, early,
    if_neg (by simp [ahead])]
  omega

theorem waiting_of_twice (looked : computed false key (trail limit steps start) ≠ 0)
    (carried : computed true key (trail limit steps start) ≠ 0) :
    ∃ before s after, steps = before ++ s :: after ∧
      let w := (run limit before start).2
      s.inBackground = false ∧ key ∈ (report limit s w).1.begun ∧
      ∃ task ∈ w.cache.queue, task.key = key := by
  have began : key ∈ _ := List.count_pos_iff.mp (Nat.pos_of_ne_zero looked)
  obtain ⟨⟨s, r⟩, member, began⟩ := List.mem_flatMap.mp began
  obtain ⟨member, ahead⟩ := List.mem_filter.mp member
  obtain ⟨before, after, split, rfl⟩ := exists_of_mem_trail member
  have ahead : s.inBackground = false := by simpa using ahead
  refine ⟨before, s, after, split, ahead, began, ?_⟩
  by_contra idle
  refine carried (uncarried_of_looked empty even split ahead began (List.countP_eq_zero.mpr ?_))
  simpa using idle

end Even

/-- In a run without forgetting, shutdown, nested steps and failing computations, a key has at most
one task taken on and is computed by at most one lookup, only while it is not remembered. Once it is
remembered, no task is taken on for it and no lookup computes it. So it is computed at most twice,
and twice only if its task was still waiting when a lookup computed it. -/
theorem computed_sparingly {start : Session} (empty : start.cache = {}) {limit : Nat}
    {steps : List Step} (retains : ∀ s ∈ steps, s.Retains)
    (undisturbed : ∀ r ∈ (run limit steps start).1, Undisturbed r) (key : Key) :
    let whole := trail limit steps start
    let began := ((run limit steps start).1.flatMap StepReport.begun).count key
    taken key whole ≤ 1 ∧ computed false key whole ≤ 1 ∧
    (∀ before s after, steps = before ++ s :: after →
      let w := (run limit before start).2
      s.inBackground = false → key ∈ (report limit s w).1.begun → w.cache.get? key = none) ∧
    (∀ before after, steps = before ++ after →
      let w := (run limit before start).2
      w.cache.get? key ≠ none →
      taken key (trail limit after w) = 0 ∧ computed false key (trail limit after w) = 0) ∧
    began ≤ 2 ∧
    (began = 2 → ∃ before s after, steps = before ++ s :: after ∧
      let w := (run limit before start).2
      s.inBackground = false ∧ key ∈ (report limit s w).1.begun ∧
      ∃ task ∈ w.cache.queue, task.key = key) := by
  intro whole began
  have even := even_trail retains undisturbed
  obtain ⟨-, -, covered, once, lookedOnce, -, -⟩ : (run limit steps start).2.cache.Sparing key
      (taken key whole) (computed false key whole) (computed true key whole) :=
    sparing_before empty even (List.append_nil steps).symm key
  have total : began = computed false key whole + computed true key whole :=
    count_begun key steps start
  refine ⟨once, lookedOnce, ?_, ?_, by omega, fun twice => ?_⟩
  · exact fun before s after split ahead began =>
      (missing_of_looked empty even split ahead began).1
  · intro before after split w known
    obtain ⟨untaken, unlooked, -⟩ := spared_after empty even split known
    exact ⟨untaken, unlooked⟩
  · have looked : computed false key whole ≠ 0 := by omega
    have carried : computed true key whole ≠ 0 := by omega
    exact waiting_of_twice empty even looked carried

theorem computed_sparingly_overtaken :
    let key : Key := ⟨"/work", "c"⟩
    let steps : List Step := [.request key, .getNow key, .runNext, .request key, .getNow key]
    ((run 0 steps steadySession).1.flatMap StepReport.begun).count key = 2 ∧
    taken key (trail 0 steps steadySession) = 1 ∧
    computed false key (trail 0 steps steadySession) = 1 ∧
    ∃ before s after, steps = before ++ s :: after ∧ s.inBackground = false ∧
      ∃ task ∈ (run 0 before steadySession).2.cache.queue, task.key = key := by
  intro key steps
  have retains : ∀ s ∈ steps, s.Retains := by simp [steps, Step.Retains]
  have undisturbed : ∀ r ∈ (run 0 steps steadySession).1, Undisturbed r := by decide +kernel
  have began : ((run 0 steps steadySession).1.flatMap StepReport.begun).count key = 2 := by
    decide +kernel
  obtain ⟨-, -, -, -, -, twice⟩ := computed_sparingly rfl retains undisturbed key
  obtain ⟨before, s, after, split, ahead, -, waits⟩ := twice began
  exact ⟨began, by decide +kernel, by decide +kernel, before, s, after, split, ahead, waits⟩

end Session

end HistoryGuard
