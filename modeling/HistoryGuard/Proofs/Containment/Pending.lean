import Mathlib.Data.List.Nodup
import HistoryGuard.Proofs.Containment.Stamp
import HistoryGuard.Proofs.Report

/-! # Marks and tasks

A key is marked as pending under the present stamp of its root exactly while one task of that
stamp is outstanding for it. So no task is doubled, and no request is lost.
-/

namespace HistoryGuard

namespace Cache

variable {c : Cache}

/-- The marks agree with the tasks that are outstanding. -/
structure Booked (c : Cache) : Prop where
  timely : c.Timely
  nodup : c.outstanding.Nodup
  /-- A task of the present stamp has its mark. -/
  marked : ∀ task ∈ c.outstanding, task.stamp = c.stamp task.key.root →
    c.pending task.key = some task.stamp
  /-- No mark has a stamp from the future. -/
  past : ∀ key s, c.pending key = some s → s ≤ c.stamp key.root
  /-- A mark of the present stamp has its task. -/
  backed : c.closed = false → ∀ key, c.pending key = some (c.stamp key.root) →
    ⟨key, c.stamp key.root⟩ ∈ c.outstanding

theorem booked_empty : Booked {} := by
  constructor
  · intro task ht
    cases ht
  · exact List.nodup_nil
  · intro task ht
    cases ht
  · intro key s h
    cases h
  · intro _ key h
    cases h

/-- The invariant speaks of the tasks without regard to their order. -/
theorem Booked.of_perm {d : Cache} (h : c.Booked) (perm : d.outstanding.Perm c.outstanding)
    (stamp : d.stamp = c.stamp) (pending : d.pending = c.pending)
    (closed : d.closed = false → c.closed = false) : d.Booked := by
  constructor
  · intro task ht
    rw [stamp]
    exact h.timely task (perm.mem_iff.mp ht)
  · exact perm.nodup_iff.mpr h.nodup
  · intro task ht
    rw [stamp, pending]
    exact h.marked task (perm.mem_iff.mp ht)
  · intro key s
    rw [stamp, pending]
    exact h.past key s
  · intro hd key
    rw [stamp, pending, perm.mem_iff]
    exact h.backed (closed hd) key

theorem knows_eq_false_iff {key : Key} :
    c.knows key = false ↔ c.get? key = none ∧ c.pending key ≠ some (c.stamp key.root) := by
  simp [knows, get?]

theorem pending_of_not_knows {key : Key} (h : c.knows key = false) :
    c.pending key ≠ some (c.stamp key.root) :=
  (knows_eq_false_iff.mp h).2

theorem request_of_scheduled {key : Key} (hk : c.knows key = false) (ho : c.closed = false) :
    c.request key = (.scheduled, { c with
      pending := c.pending.put key (c.stamp key.root)
      queue := c.queue ++ [⟨key, c.stamp key.root⟩] }) := by
  unfold Cache.request
  rw [if_neg (by simp [hk])]
  exact if_neg (by simp [ho])

theorem request_of_refused {key : Key} (hk : c.knows key = false) (hc : c.closed = true) :
    c.request key = (.refused, { c with pending := c.pending.put key (c.stamp key.root) }) := by
  unfold Cache.request
  rw [if_neg (by simp [hk])]
  exact if_pos hc

section Request

variable (h : c.Booked) {key : Key}
include h

theorem Booked.past_put {k : Key} {s : Stamp}
    (hs : (c.pending.put key (c.stamp key.root)) k = some s) : s ≤ c.stamp k.root := by
  by_cases e : k = key
  · subst e
    rw [Table.put_same] at hs
    cases hs
    exact Stamp.le_refl _
  · rw [Table.put_other _ _ e] at hs
    exact h.past k s hs

theorem Booked.marked_put {task : Task} (ht : task ∈ c.outstanding)
    (hs : task.stamp = c.stamp task.key.root) :
    (c.pending.put key (c.stamp key.root)) task.key = some task.stamp := by
  by_cases e : task.key = key
  · rw [e, Table.put_same, hs, e]
  · rw [Table.put_other _ _ e]
    exact h.marked task ht hs

theorem Booked.refused (hk : c.knows key = false) (hc : c.closed = true) :
    (c.request key).2.Booked := by
  have timely := h.timely.request key
  rw [request_of_refused hk hc] at timely ⊢
  refine ⟨timely, h.nodup, fun _ => h.marked_put, fun _ _ => h.past_put, ?_⟩
  intro ho
  exact absurd (hc.symm.trans ho) (by simp)

theorem Booked.scheduled (hk : c.knows key = false) (hc : c.closed = false) :
    (c.request key).2.Booked := by
  have unasked : ⟨key, c.stamp key.root⟩ ∉ c.outstanding :=
    fun hm => pending_of_not_knows hk (h.marked _ hm rfl)
  have mem (t : Task) : t ∈ c.queue ++ [Task.mk key (c.stamp key.root)] ++ c.running ↔
      t = ⟨key, c.stamp key.root⟩ ∨ t ∈ c.outstanding := by
    simp only [outstanding, List.mem_append, List.mem_singleton]
    tauto
  have timely := h.timely.request key
  rw [request_of_scheduled hk hc] at timely ⊢
  constructor
  · exact timely
  · show (c.queue ++ [Task.mk key (c.stamp key.root)] ++ c.running).Nodup
    rw [List.append_assoc, List.singleton_append, List.nodup_middle]
    exact List.nodup_cons.mpr ⟨unasked, h.nodup⟩
  · intro task ht hs
    rcases (mem task).mp ht with rfl | ht
    · exact Table.put_same ..
    · exact h.marked_put ht hs
  · exact fun _ _ => h.past_put
  · intro _ k hp
    apply (mem ⟨k, c.stamp k.root⟩).mpr
    by_cases e : k = key
    · subst e
      exact .inl rfl
    · exact .inr (h.backed hc k ((Table.put_other _ _ e).symm.trans hp))

theorem Booked.request (key : Key) : (c.request key).2.Booked := by
  cases hk : c.knows key with
  | true => rwa [request_of_knows hk]
  | false =>
    cases hc : c.closed with
    | true => exact h.refused hk hc
    | false => exact h.scheduled hk hc

end Request

theorem Booked.invalidate (h : c.Booked) (target : Option String) :
    (c.invalidate target).Booked := by
  have pending : (c.invalidate target).pending = c.pending := by cases target <;> rfl
  have closed : (c.invalidate target).closed = c.closed := by cases target <;> rfl
  constructor
  · exact h.timely.invalidate target
  · rw [outstanding_invalidate]
    exact h.nodup
  · intro task ht hs
    rw [outstanding_invalidate] at ht
    rw [pending]
    apply h.marked task ht
    by_cases hf : Forgets target task.key.root
    · obtain ⟨le, ne⟩ := stamp_invalidate_of_forgets (c := c) hf
      exact absurd (Stamp.le_antisymm le (hs ▸ h.timely task ht)) ne
    · rwa [stamp_invalidate_of_not hf] at hs
  · intro key s hp
    rw [pending] at hp
    exact Stamp.le_trans (h.past key s hp) (stamp_le_invalidate target)
  · intro ho key hp
    rw [pending] at hp
    rw [closed] at ho
    rw [outstanding_invalidate]
    by_cases hf : Forgets target key.root
    · obtain ⟨le, ne⟩ := stamp_invalidate_of_forgets (c := c) hf
      exact absurd (Stamp.le_antisymm le (h.past key _ hp)) ne
    · rw [stamp_invalidate_of_not hf] at hp ⊢
      exact h.backed ho key hp

/-- A key whose root has just been forgotten is neither remembered nor marked as pending. -/
theorem Booked.unknown_of_forgets (h : c.Booked) {target : Option String} {key : Key}
    (forgets : Forgets target key.root) : (c.invalidate target).knows key = false := by
  have forgotten : (c.invalidate target).entries key = none :=
    get?_invalidate_of_forgets forgets
  have unmarked : (c.invalidate target).pending key ≠
      some ((c.invalidate target).stamp key.root) := by
    intro marked
    have pending : (c.invalidate target).pending = c.pending := by cases target <;> rfl
    rw [pending] at marked
    obtain ⟨le, ne⟩ := stamp_invalidate_of_forgets (c := c) forgets
    exact ne (Stamp.le_antisymm le (h.past key _ marked))
  simp [knows, forgotten, unmarked]

theorem pending_settle (c : Cache) (task : Task) (key : Key) : (c.settle task).pending key =
    if key = task.key ∧ c.pending key = some task.stamp then none else c.pending key := by
  simp only [Cache.settle]
  by_cases own : key = task.key
  · subst own
    split <;> simp_all
  · rw [if_neg fun gone : key = task.key ∧ _ => own gone.1]
    split
    · exact Table.drop_other _ own
    · rfl

theorem pending_settle_eq_some_iff {task : Task} {key : Key} {s : Stamp} :
    (c.settle task).pending key = some s ↔ c.pending key = some s ∧ task ≠ ⟨key, s⟩ := by
  obtain ⟨k, stamp⟩ := task
  rw [pending_settle]
  split
  · next gone =>
    obtain ⟨rfl, mark⟩ := gone
    rw [mark]
    simp
  · next stays =>
    refine ⟨fun mark => ⟨mark, ?_⟩, And.left⟩
    rintro ⟨⟩
    exact stays ⟨rfl, mark⟩

theorem outstanding_settle {task : Task} {rest : List Task} (hr : c.running = task :: rest) :
    (c.settle task).outstanding = c.queue ++ rest := by
  simp [outstanding, Cache.settle, hr]

theorem Booked.nodup_running (h : c.Booked) {task : Task} {rest : List Task}
    (hr : c.running = task :: rest) : task ∉ c.queue ++ rest ∧ (c.queue ++ rest).Nodup := by
  rw [← List.nodup_cons, ← List.nodup_middle, ← hr]
  exact h.nodup

theorem Booked.settle (h : c.Booked) {task : Task} {rest : List Task}
    (hr : c.running = task :: rest) : (c.settle task).Booked := by
  have out' := outstanding_settle hr
  obtain ⟨off, nodup⟩ := h.nodup_running hr
  have mem (t : Task) : t ∈ c.outstanding ↔ t = task ∨ t ∈ c.queue ++ rest := by
    rw [outstanding, hr, List.mem_append, List.mem_cons, List.mem_append]
    tauto
  constructor
  · exact h.timely.settle task
  · rw [out']
    exact nodup
  · intro t ht hs
    rw [out'] at ht
    refine pending_settle_eq_some_iff.mpr ⟨h.marked t ((mem t).mpr (.inr ht)) hs, ?_⟩
    rintro rfl
    exact off ht
  · intro key s hp
    exact h.past key s (pending_settle_eq_some_iff.mp hp).1
  · intro ho key hp
    obtain ⟨hp, ne⟩ := pending_settle_eq_some_iff.mp hp
    rw [out']
    rcases (mem _).mp (h.backed ho key hp) with e | ht
    · exact absurd e.symm ne
    · exact ht

theorem Booked.pending_iff (h : c.Booked) (ho : c.closed = false) (key : Key) :
    c.pending key = some (c.stamp key.root) ↔ ⟨key, c.stamp key.root⟩ ∈ c.outstanding :=
  ⟨h.backed ho key, fun out => h.marked _ out rfl⟩

/-- The key is remembered, or its task of the present stamp is outstanding. -/
def Owed (c : Cache) (key : Key) : Prop :=
  c.get? key ≠ none ∨ ⟨key, c.stamp key.root⟩ ∈ c.outstanding

theorem Booked.owed_request (h : c.Booked) (ho : c.closed = false) (key : Key) :
    (c.request key).2.Owed key := by
  cases hk : c.knows key with
  | true =>
    rw [request_of_knows hk]
    simp only [knows, Bool.or_eq_true, Option.isSome_iff_ne_none, beq_iff_eq] at hk
    exact hk.imp_right (h.backed ho key)
  | false =>
    rw [request_of_scheduled hk ho]
    exact .inr (List.mem_append_left _ (List.mem_append_right _ List.mem_cons_self))

/-- The key is remembered, or its task of the present stamp waits. -/
def Awaited (c : Cache) (key : Key) : Prop :=
  c.get? key ≠ none ∨ ⟨key, c.stamp key.root⟩ ∈ c.queue

theorem Booked.awaited_request (h : c.Booked) (ho : c.closed = false)
    (idle : c.running = []) (key : Key) : (c.request key).2.Awaited key := by
  have none : (c.request key).2.running = [] := (running_request key).trans idle
  exact (h.owed_request ho key).imp_right fun waits => by
    rwa [outstanding, none, List.append_nil] at waits

/-- A task that ends with its result leaves the key awaited. -/
theorem Awaited.finish {key : Key} (h : c.Awaited key) {task : Task} {rest : List Task}
    (hq : c.queue = task :: rest) (b : Branches) :
    let d := ({ c with queue := rest, running := task :: c.running } : Cache).finish task b
    d.Awaited key ∧ d.queue = rest := by
  intro d
  have queue : d.queue = rest := queue_store ..
  refine ⟨?_, queue⟩
  rw [Awaited, queue]
  simp only [d, Cache.finish, get?_store, stamp_store]
  rcases h with known | waits
  · left
    split
    · simp
    · exact known
  · rw [hq] at waits
    rcases List.mem_cons.mp waits with rfl | waits
    · left
      rw [if_pos ⟨rfl, rfl⟩]
      simp
    · exact .inr waits

theorem length_queue_request (c : Cache) (key : Key) :
    (c.request key).2.queue.length ≤ c.queue.length + 1 := by
  unfold Cache.request
  split
  · exact Nat.le_succ _
  · dsimp only
    split
    · simp
    · simp

end Cache

namespace Containment

open Run Workspace

variable {ι : Type}

structure BookedLater (w v : Workspace ι) : Prop where
  running : v.cache.running = w.cache.running
  booked : w.cache.Booked → v.cache.Booked

instance : Std.Refl (BookedLater (ι := ι)) := ⟨fun _ => ⟨rfl, fun h => h⟩⟩

instance : IsTrans (Workspace ι) BookedLater where
  trans _ _ _ h h' := ⟨h'.running.trans h.running, fun hb => h'.booked (h.booked hb)⟩

theorem bookedLater_of_beside {P : Event → Prop} {w v : Workspace ι} (h : Beside P w v) :
    BookedLater w v := by
  constructor
  · rw [h.cache]
  · intro hb
    rw [h.cache]
    exact hb

theorem booked_store {c : Cache} (h : c.Booked) (key : Key) (stamp : Stamp) (b : Branches) :
    (c.store key stamp b).Booked := by
  refine h.of_perm (.of_eq (Cache.outstanding_store ..)) ?_ (Cache.pending_store ..) ?_
  · funext root
    exact Cache.stamp_store ..
  · exact fun ho => (Cache.closed_store ..).symm.trans ho

theorem outstanding_started {task : Task} {rest : List Task} {w : Workspace ι}
    (h : w.cache.queue = task :: rest) :
    (started task rest w).cache.outstanding.Perm w.cache.outstanding := by
  rw [Cache.outstanding, Cache.outstanding, h]
  exact List.perm_middle

theorem booked_started {task : Task} {rest : List Task} {w : Workspace ι}
    (h : w.cache.queue = task :: rest) (hb : w.cache.Booked) :
    (started task rest w).cache.Booked :=
  hb.of_perm (outstanding_started h) rfl rfl fun ho => ho

section Compute

variable {g : Compute ι} (hg : ∀ key, Keeps BookedLater (g key))
include hg

theorem bookedLater_getNow (key : Key) : Keeps BookedLater (getNow g key) := by
  intro w
  cases hk : w.cache.get? key with
  | some b =>
    rw [getNow_of_hit g hk]
    exact refl_of _ w
  | none =>
    have h := hg key (begun key w)
    rw [getNow_of_miss g hk]
    rcases hv : g key (begun key w) with ⟨e | b, v⟩ <;> rw [hv] at h
    · exact ⟨h.running, h.booked⟩
    · constructor
      · exact (Cache.running_store ..).trans h.running
      · exact fun hb => booked_store (h.booked hb) ..

theorem bookedLater_runNext : Keeps BookedLater (runNext g) := by
  intro w
  cases hq : w.cache.queue with
  | nil =>
    rw [runNext_of_idle g hq]
    exact refl_of _ w
  | cons task rest =>
    have h := hg task.key (begun task.key (started task rest w))
    rw [runNext_of_task g hq]
    rcases hv : g task.key (begun task.key (started task rest w)) with ⟨e | b, v⟩ <;> rw [hv] at h
    all_goals
      have last : v.cache.running = task :: w.cache.running := h.running
      have off : (v.cache.settle task).running = w.cache.running := by
        simp [Cache.settle, last]
      have settled : w.cache.Booked → (v.cache.settle task).Booked :=
        fun hb => (h.booked (booked_started hq hb)).settle last
    · exact ⟨off, settled⟩
    · constructor
      · exact (Cache.running_store ..).trans off
      · exact fun hb => booked_store (settled hb) ..

theorem maintains_bookedLater : Maintains BookedLater g := by
  constructor
  case beside => exact fun w v h => bookedLater_of_beside h
  case getNow => exact bookedLater_getNow hg
  case request =>
    intro key w
    rw [request_snd]
    exact ⟨Cache.running_request key, fun hb => hb.request key⟩
  case runNext => exact bookedLater_runNext hg
  case invalidate =>
    intro target w
    constructor
    · cases target <;> rfl
    · exact fun hb => hb.invalidate target
  case shutdown =>
    intro w
    constructor
    · rfl
    · intro hb
      refine hb.of_perm (.refl _) rfl rfl ?_
      intro hc
      exact absurd hc (by simp [shutdown_eq, Cache.close])

end Compute

end Containment

namespace Session

open Run Workspace Containment

theorem ignoresScript_bookedLater : IgnoresScript BookedLater :=
  ⟨fun _ _ => ⟨rfl, fun h => h⟩, fun _ _ => ⟨rfl, fun h => h⟩⟩

theorem bookedLater_carryOut (edit : Edit) (commit : Commit) :
    Keeps BookedLater (onShell (ι := Script) (edit.carryOut commit)) :=
  (beside_onShell (Edit.outward_carryOut edit commit)).mono fun _ _ => bookedLater_of_beside

theorem booked_of_reaches {w v : Session} (h : Reaches w v) : w.cache.Booked → v.cache.Booked := by
  have refl : Std.Refl fun w v : Session => w.cache.Booked → v.cache.Booked := ⟨fun _ h => h⟩
  have trans : IsTrans Session fun w v => w.cache.Booked → v.cache.Booked :=
    ⟨fun _ _ _ h h' hb => h' (h hb)⟩
  have steps : ∀ n s, Keeps BookedLater (step n s) :=
    keeps_step ignoresScript_bookedLater (fun _ => maintains_bookedLater) bookedLater_carryOut
  refine Reaches.rel (R := fun w v => w.cache.Booked → v.cache.Booked) ?_
    (fun n s w => (steps n s w).booked) ?_ ?_ ?_ h
  · exact fun w v hb => (bookedLater_of_beside hb).booked
  · exact fun key w hb => hb
  · exact fun task rest w hq => booked_started hq
  · exact fun w own hb => hb

theorem Initial.booked {start w : Session} (initial : Initial start) (reaches : Reaches start w) :
    w.cache.Booked := by
  apply booked_of_reaches reaches
  rw [initial.cache]
  exact Cache.booked_empty

theorem bookedLater_compute (n : Nat) (key : Key) :
    Keeps BookedLater (compute (nestedStep n) key) :=
  keeps_compute ignoresScript_bookedLater (fun _ => maintains_bookedLater) bookedLater_carryOut n
    key

theorem step_runNext_snd (n : Nat) (w : Session) :
    (step n .runNext w).2 = (runNext (compute (nestedStep n)) w).2 := by
  rw [step_runNext]

theorem step_request_snd (n : Nat) (key : Key) (w : Session) :
    (step n (.request key) w).2 = { w with cache := (w.cache.request key).2 } := by
  rw [step_request, request_snd]

/-- The step has succeeded, and no step was nested in it. -/
def Smooth (r : StepReport) : Prop := r.nested = [] ∧ ∃ a, r.outcome = .ok a

instance (r : StepReport) : Decidable (Smooth r) :=
  decidable_of_iff (r.nested.isEmpty ∧ r.outcome.isOk) <| by
    rw [Smooth, List.isEmpty_iff]
    apply and_congr_right
    intro _
    cases r.outcome <;> simp [Except.isOk, Except.toBool]

/-- A task that is carried out smoothly leaves the cache as if its result had been at hand. -/
theorem cache_of_smooth_runNext {n : Nat} {w : Session} {task : Task} {rest : List Task}
    (hq : w.cache.queue = task :: rest) (h : Smooth (report n .runNext w).1) :
    ∃ b, (step n .runNext w).2.cache = (started task rest w).cache.finish task b := by
  have nested := nested_le_of_none h.1
  obtain ⟨-, a, ok⟩ := h
  have ok : (step n .runNext w).1 = .ok a := ok
  rw [step_eq, Step.run, bind_apply, runNext_of_task _ hq] at ok
  rw [step_runNext_snd, runNext_of_task _ hq] at nested ⊢
  rcases hv : compute (nestedStep n) task.key (begun task.key (started task rest w)) with
    ⟨e | b, v⟩ <;> rw [hv] at nested ok
  · cases ok
  · have quiet := compute_quiet n task.key (begun task.key (started task rest w))
    rw [hv] at quiet
    exact ⟨b, congrArg (Cache.finish · task b) (quiet nested).cache⟩

theorem awaited_runNext {n : Nat} {w : Session} {key : Key} (h : Smooth (report n .runNext w).1)
    (ha : w.cache.Awaited key) :
    (step n .runNext w).2.cache.Awaited key ∧
      (step n .runNext w).2.cache.queue = w.cache.queue.tail := by
  cases hq : w.cache.queue with
  | nil =>
    rw [step_runNext_snd, runNext_of_idle _ hq]
    exact ⟨ha, hq⟩
  | cons task rest =>
    obtain ⟨b, hc⟩ := cache_of_smooth_runNext hq h
    rw [hc]
    exact ha.finish hq b

theorem awaited_drain {n m : Nat} {w : Session} {key : Key}
    (h : ∀ r ∈ (run n (List.replicate m .runNext) w).1, Smooth r) (ha : w.cache.Awaited key) :
    (run n (List.replicate m .runNext) w).2.cache.Awaited key ∧
      (run n (List.replicate m .runNext) w).2.cache.queue = w.cache.queue.drop m := by
  induction m generalizing w with
  | zero => exact ⟨ha, rfl⟩
  | succ m ih =>
    obtain ⟨ha, hq⟩ := awaited_runNext (h _ List.mem_cons_self) ha
    obtain ⟨hd, hr⟩ := ih (fun r hr => h r (List.mem_cons_of_mem _ hr)) ha
    refine ⟨hd, hr.trans ?_⟩
    rw [hq, List.drop_tail]

/-- In whatever state a session comes through before the shutdown, a key is marked under the
present stamp exactly if one task of that stamp is outstanding for it, and no task is doubled. A
request right after the root is forgotten is always taken on. With nothing being carried out, a
request followed by smooth runs of all tasks leaves the key remembered. -/
theorem pending_exact {start w : Session} (initial : Initial start) (reaches : Reaches start w)
    (ho : w.cache.closed = false) :
    (∀ key, w.cache.pending key = some (w.cache.stamp key.root) ↔
      w.cache.outstanding.count ⟨key, w.cache.stamp key.root⟩ = 1) ∧
    w.cache.outstanding.Nodup ∧
    (∀ target key, Cache.Forgets target key.root →
      ∃ v, Containment.request key (invalidate target w).2 = (.ok true, v) ∧
        v.cache.queue = w.cache.queue ++ [⟨key, (w.cache.invalidate target).stamp key.root⟩]) ∧
    (w.cache.running = [] → ∀ limit key m,
      let r := run limit (.request key :: List.replicate m .runNext) w
      (∀ report ∈ r.1, Smooth report) →
      (w.cache.queue.length < m → r.2.cache.queue = []) ∧
        (r.2.cache.queue = [] → r.2.cache.get? key ≠ none)) := by
  have booked : w.cache.Booked := by
    apply booked_of_reaches reaches
    rw [initial.cache]
    exact Cache.booked_empty
  refine ⟨?_, booked.nodup, ?_, ?_⟩
  · intro key
    constructor
    · exact fun h => List.count_eq_one_of_mem booked.nodup (booked.backed ho key h)
    · intro h
      have outstanding : ⟨key, w.cache.stamp key.root⟩ ∈ w.cache.outstanding :=
        List.count_pos_iff.mp (by omega)
      exact booked.marked _ outstanding rfl
  · intro target key forgets
    have unknown := booked.unknown_of_forgets forgets
    have open? : (w.cache.invalidate target).closed = false := by
      cases target <;> exact ho
    refine ⟨_, request_of_open unknown open?, ?_⟩
    show ((w.cache.invalidate target).request key).2.queue = _
    rw [Cache.request_of_scheduled unknown open?]
    cases target <;> rfl
  · intro idle limit key m r h
    have first : (step limit (.request key) w).2.cache.Awaited key := by
      rw [step_request_snd]
      exact booked.awaited_request ho idle key
    have length :
        (step limit (.request key) w).2.cache.queue.length ≤ w.cache.queue.length + 1 := by
      rw [step_request_snd]
      exact Cache.length_queue_request w.cache key
    obtain ⟨awaited, queue⟩ := awaited_drain (fun r hr => h r (List.mem_cons_of_mem _ hr)) first
    constructor
    · intro hm
      refine queue.trans (List.drop_eq_nil_of_le ?_)
      omega
    · intro empty
      rcases awaited with known | waits
      · exact known
      · exact absurd (empty ▸ waits) List.not_mem_nil

/-- A session in which the commit `c` is always found in the branch `topic`. -/
def steadySession : Session where
  shell := { git := Git.ofRules [] }
  policy := .protection {}
  lookup := .fixed []
  own := { prepared := some <|
    Table.empty.put ⟨"/work", "c"⟩ [{ result := .ok (.ofList ["topic"]) }] }

theorem pending_exact_overtaken :
    let key : Key := ⟨"/work", "c"⟩
    let w := (run 0 [.request key, .invalidate none, .request key] steadySession).2
    w.cache.outstanding.length = 2 ∧ w.cache.outstanding.Nodup ∧
      w.cache.outstanding.count ⟨key, w.cache.stamp key.root⟩ = 1 ∧
      (run 0 (.request key :: List.replicate 3 .runNext) w).2.cache.get? key ≠ none := by
  intro key w
  obtain ⟨marks, nodup, -, drained⟩ :=
    pending_exact (w := w) ⟨rfl, rfl⟩ (reaches_run 0 _ steadySession) rfl
  have smooth : ∀ r ∈ (run 0 (.request key :: List.replicate 3 .runNext) w).1, Smooth r := by
    decide +kernel
  obtain ⟨emptied, known⟩ := drained rfl 0 key 3 smooth
  exact ⟨rfl, nodup, (marks key).mp rfl, known (emptied (Nat.lt_succ_self 2))⟩

end Session

end HistoryGuard
