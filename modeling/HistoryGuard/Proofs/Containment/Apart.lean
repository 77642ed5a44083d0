import HistoryGuard.Proofs.Containment.Slice
import HistoryGuard.Proofs.Report

/-! # Roots are kept apart

What is done to other roots makes no difference to a root. If the steps that concern other roots
alone are left out of a run, the remaining steps end as before, and the cache holds the same of the
root in the end.
-/

namespace HistoryGuard

open Run Workspace Containment

inductive Step.OnCache : Step → Prop
  | getCached (key : Key) : OnCache (.getCached key)
  | getNow (key : Key) : OnCache (.getNow key)
  | request (key : Key) : OnCache (.request key)
  | runNext : OnCache .runNext
  | invalidate (target : Option String) : OnCache (.invalidate target)
  | shutdown : OnCache .shutdown

/-- The step concerns the root, and not other roots alone. The task that is carried out next is
the one that has waited longest. -/
def Step.concerns (root : String) (c : Cache) : Step → Bool
  | getCached key => key.root = root
  | getNow key => key.root = root
  | request key => key.root = root
  | runNext => c.queue.head?.all (·.key.root = root)
  | invalidate (some r) => r = root
  | _ => true

namespace Session

/-- The steps of a run that concern the root, with how they end. -/
def share (root : String) (limit : Nat) : List Step → Session → List (Step × Except Failure Answer)
  | [], _ => []
  | s :: rest, w =>
    let (r, v) := report limit s w
    if s.concerns root w.cache then (s, r.outcome) :: share root limit rest v
    else share root limit rest v

/-- The second session is like the first one as far as the root goes, and has tasks of no other
root. -/
structure Alike (root : String) (w v : Session) : Prop where
  slice : w.cache.slice root = v.cache.slice root
  sole : ∀ task ∈ v.cache.queue, task.key.root = root
  prepared : ∃ table table', (w.own.prepared = some table ∧ Flat table) ∧
    (v.own.prepared = some table' ∧ Flat table') ∧ ∀ key, key.root = root → table key = table' key

variable {root : String} {key : Key} {w v w' v' : Session} {s : Step}

theorem Alike.queue (h : Alike root w v) :
    v.cache.queue = w.cache.queue.filter (·.key.root = root) := by
  have same : w.cache.queue.filter (·.key.root = root) = v.cache.queue.filter _ :=
    congrArg Slice.queue h.slice
  rw [same, List.filter_eq_self.mpr (by simpa using h.sole)]

theorem Alike.of_cache (h : Alike root w v) (slice : w'.cache.slice root = v'.cache.slice root)
    (sole : ∀ task ∈ v'.cache.queue, task.key.root = root)
    (prepared : w'.own.prepared = w.own.prepared) (prepared' : v'.own.prepared = v.own.prepared) :
    Alike root w' v' :=
  ⟨slice, sole, by rw [prepared, prepared']; exact h.prepared⟩

theorem remaining_congr {table table' : Table Key (List Prepared)} {key k : Key}
    (same : ∀ key, key.root = root → table key = table' key) (hk : key.root = root)
    (own : k.root = root) : remaining table key k = remaining table' key k := by
  rw [remaining, remaining, same key hk, same k own]

theorem nextResult_congr {table table' : Table Key (List Prepared)} {key : Key}
    (same : table key = table' key) : nextResult table key = nextResult table' key := by
  rw [nextResult_eq, nextResult_eq, same]

theorem Alike.of_computes {table table' : Table Key (List Prepared)} {c d : Cache}
    (flat : Flat table) (flat' : Flat table')
    (same : ∀ key, key.root = root → table key = table' key) (own : key.root = root)
    (computes : Computes table key c w w') (computes' : Computes table' key d v v')
    (slice : c.slice root = d.slice root) (sole : ∀ task ∈ d.queue, task.key.root = root) :
    Alike root w' v' := by
  refine ⟨?_, ?_, _, _, ⟨computes.prepared, flat.remaining key⟩,
    ⟨computes'.prepared, flat'.remaining key⟩, fun k hk => remaining_congr same own hk⟩
  · rw [computes.cache, computes'.cache, slice]
  · rwa [computes'.cache]

theorem Alike.of_computes_other {c : Cache} (h : Alike root w v) (other : key.root ≠ root)
    {table : Table Key (List Prepared)} (prepared : w.own.prepared = some table)
    (computes : Computes table key c w w') (slice : c.slice root = w.cache.slice root) :
    Alike root w' v := by
  obtain ⟨held, table', ⟨prepared', flat⟩, stocked, same⟩ := h.prepared
  obtain rfl : table = held := Option.some.inj (prepared.symm.trans prepared')
  refine ⟨?_, h.sole, _, table', ⟨computes.prepared, flat.remaining key⟩, stocked, ?_⟩
  · rw [computes.cache, slice, h.slice]
  · rintro k rfl
    have apart : k ≠ key := by
      rintro rfl
      exact other rfl
    rw [remaining_other apart, same k rfl]

theorem getNow_alike (h : Alike root w v) (own : key.root = root)
    (g : Step → Run Session Answer) :
    (getNow (compute g) key w).1 = (getNow (compute g) key v).1 ∧
      Alike root (getNow (compute g) key w).2 (getNow (compute g) key v).2 := by
  subst own
  have known := Cache.get?_of_slice h.slice
  cases held : v.cache.get? key with
  | some b =>
    rw [getNow_of_hit _ held, getNow_of_hit _ (known.trans held)]
    exact ⟨rfl, h⟩
  | none =>
    obtain ⟨table, table', ⟨prepared, flat⟩, ⟨prepared', flat'⟩, same⟩ := h.prepared
    obtain ⟨w', came, computes⟩ := getNow_flat g prepared flat (known.trans held)
    obtain ⟨v', came', computes'⟩ := getNow_flat g prepared' flat' held
    have result := nextResult_congr (same key rfl)
    rw [came, came', result]
    rw [result] at computes
    refine ⟨rfl, .of_computes flat flat' same rfl computes computes'
      (Cache.slice_looked_congr h.slice _) ?_⟩
    rw [Cache.queue_looked]
    exact h.sole

theorem getNow_other (h : Alike root w v) (other : key.root ≠ root)
    (g : Step → Run Session Answer) : Alike root (getNow (compute g) key w).2 v := by
  cases held : w.cache.get? key with
  | some b =>
    rw [getNow_of_hit _ held]
    exact h
  | none =>
    obtain ⟨table, -, ⟨prepared, flat⟩, -⟩ := h.prepared
    obtain ⟨w', came, computes⟩ := getNow_flat g prepared flat held
    rw [came]
    exact h.of_computes_other other prepared computes (Cache.slice_looked_other other _)

theorem runNext_alike (h : Alike root w v)
    (own : ∀ task ∈ w.cache.queue.head?, task.key.root = root) (g : Step → Run Session Answer) :
    (runNext (compute g) w).1 = (runNext (compute g) v).1 ∧
      Alike root (runNext (compute g) w).2 (runNext (compute g) v).2 := by
  have queue := h.queue
  cases waits : w.cache.queue with
  | nil =>
    rw [waits] at queue
    rw [runNext_of_idle _ waits, runNext_of_idle _ queue]
    exact ⟨rfl, h⟩
  | cons task rest =>
    obtain rfl : task.key.root = root := own task (by rw [waits]; rfl)
    have waits' : v.cache.queue = task :: rest.filter (·.key.root = task.key.root) := by
      rw [queue, waits, List.filter_cons_of_pos (by simp)]
    obtain ⟨table, table', ⟨prepared, flat⟩, ⟨prepared', flat'⟩, same⟩ := h.prepared
    obtain ⟨w', came, computes⟩ := runNext_flat g prepared flat waits
    obtain ⟨v', came', computes'⟩ := runNext_flat g prepared' flat' waits'
    have result := nextResult_congr (same task.key rfl)
    rw [came, came', result]
    rw [result] at computes
    refine ⟨rfl, .of_computes flat flat' same rfl computes computes'
      (Cache.slice_carried_congr waits waits' h.slice _) ?_⟩
    rw [Cache.queue_carried]
    simp

theorem runNext_other (h : Alike root w v) {task : Task} {rest : List Task}
    (waits : w.cache.queue = task :: rest) (other : task.key.root ≠ root)
    (g : Step → Run Session Answer) : Alike root (runNext (compute g) w).2 v := by
  obtain ⟨table, -, ⟨prepared, flat⟩, -⟩ := h.prepared
  obtain ⟨w', came, computes⟩ := runNext_flat g prepared flat waits
  rw [came]
  exact h.of_computes_other other prepared computes (Cache.slice_carried_other waits other _)

theorem request_alike (h : Alike root w v) (own : key.root = root) :
    (request key w).1 = (request key v).1 ∧ Alike root (request key w).2 (request key v).2 := by
  subst own
  rw [request_snd, request_snd]
  refine ⟨request_fst_congr (Cache.request_of_slice h.slice), ?_⟩
  refine h.of_cache (Cache.slice_request_congr h.slice) ?_ rfl rfl
  intro task waits
  rcases Cache.mem_queue_request waits with before | asked
  · exact h.sole task before
  · rw [asked]

theorem request_other (h : Alike root w v) (other : key.root ≠ root) :
    Alike root (request key w).2 v := by
  rw [request_snd]
  exact h.of_cache ((Cache.slice_request_other other).trans h.slice) h.sole rfl rfl

/-- A step that concerns the root ends the same way in both sessions. -/
theorem step_alike (h : Alike root w v) (op : s.OnCache) (concerns : s.concerns root w.cache)
    (n : Nat) :
    (step n s w).1 = (step n s v).1 ∧ Alike root (step n s w).2 (step n s v).2 := by
  cases op with
  | getCached key =>
    obtain rfl : key.root = root := by simpa [Step.concerns] using concerns
    rw [step_getCached, step_getCached, Cache.get?_of_slice h.slice]
    exact ⟨rfl, h⟩
  | getNow key =>
    obtain ⟨outcome, alike⟩ :=
      getNow_alike h (by simpa [Step.concerns] using concerns) (nestedStep n)
    rw [step_getNow, step_getNow, outcome]
    exact ⟨rfl, alike⟩
  | request key =>
    obtain ⟨outcome, alike⟩ := request_alike h (by simpa [Step.concerns] using concerns)
    rw [step_request, step_request, outcome]
    exact ⟨rfl, alike⟩
  | runNext =>
    have own : ∀ task ∈ w.cache.queue.head?, task.key.root = root := by
      simpa [Step.concerns, Option.all_eq_true] using concerns
    obtain ⟨outcome, alike⟩ := runNext_alike h own (nestedStep n)
    rw [step_runNext, step_runNext, outcome]
    exact ⟨rfl, alike⟩
  | invalidate target =>
    have forgets : Cache.Forgets target root := by
      cases target with
      | none => exact .inl rfl
      | some r => exact .inr (congrArg some (by simpa [Step.concerns] using concerns))
    rw [step_invalidate, step_invalidate]
    refine ⟨rfl, h.of_cache (Cache.slice_invalidate_congr h.slice forgets) ?_ rfl rfl⟩
    cases target <;> exact h.sole
  | shutdown =>
    rw [step_shutdown, step_shutdown]
    refine ⟨rfl, h.of_cache ?_ h.sole rfl rfl⟩
    rw [Cache.slice_close, Cache.slice_close, h.slice]

/-- A step that concerns other roots alone leaves the first session like the second one. -/
theorem step_other (h : Alike root w v) (op : s.OnCache) (other : ¬ s.concerns root w.cache)
    (n : Nat) : Alike root (step n s w).2 v := by
  cases op with
  | getCached key =>
    rw [step_getCached]
    exact h
  | getNow key =>
    rw [step_getNow]
    exact getNow_other h (by simpa [Step.concerns] using other) (nestedStep n)
  | request key =>
    rw [step_request]
    exact request_other h (by simpa [Step.concerns] using other)
  | runNext =>
    rw [step_runNext]
    cases waits : w.cache.queue with
    | nil => simp [Step.concerns, waits] at other
    | cons task rest =>
      have foreign : task.key.root ≠ root := by simpa [Step.concerns, waits] using other
      exact runNext_other h waits foreign (nestedStep n)
  | invalidate target =>
    rw [step_invalidate]
    match target, other with
    | none, other => simp [Step.concerns] at other
    | some r, other =>
      have foreign : r ≠ root := by simpa [Step.concerns] using other
      exact h.of_cache ((Cache.slice_invalidate_other foreign).trans h.slice) h.sole rfl rfl
  | shutdown => simp [Step.concerns] at other

theorem run_alike (h : Alike root w v) (limit : Nat) {steps : List Step}
    (ops : ∀ s ∈ steps, s.OnCache) :
    (run limit ((share root limit steps w).map Prod.fst) v).1.map StepReport.outcome =
        (share root limit steps w).map Prod.snd ∧
      Alike root (run limit steps w).2
        (run limit ((share root limit steps w).map Prod.fst) v).2 := by
  induction steps generalizing w v with
  | nil => exact ⟨rfl, h⟩
  | cons s rest ih =>
    have op := ops s List.mem_cons_self
    have others : ∀ s ∈ rest, s.OnCache := fun r hr => ops r (List.mem_cons_of_mem _ hr)
    by_cases concerns : s.concerns root w.cache
    · obtain ⟨outcome, alike⟩ := step_alike h op concerns limit
      obtain ⟨outcomes, alike⟩ := ih alike others
      have split : share root limit (s :: rest) w =
          (s, (step limit s w).1) :: share root limit rest (step limit s w).2 := if_pos concerns
      rw [split]
      refine ⟨?_, alike⟩
      exact List.cons_eq_cons.mpr ⟨outcome.symm, outcomes⟩
    · have split : share root limit (s :: rest) w = share root limit rest (step limit s w).2 :=
        if_neg concerns
      rw [split]
      exact ih (step_other h op concerns limit) others

/-- Other roots make no difference to a root. If the steps that concern others alone are left out
of a run, the remaining ones end as they did, and the cache holds the same of the root, with no
other tasks. To forget another root changes nothing that is held of this one, and nothing about how
its tasks and lookups end that are under way. -/
theorem roots_apart {start : Session} {table : Table Key (List Prepared)}
    (prepared : start.own.prepared = some table) (flat : Flat table) (cache : start.cache = {})
    (limit : Nat) {steps : List Step} (ops : ∀ s ∈ steps, s.OnCache) (root : String) :
    let own := share root limit steps start
    let whole := (run limit steps start).2.cache
    let apart := run limit (own.map Prod.fst) start
    apart.1.map StepReport.outcome = own.map Prod.snd ∧
    whole.slice root = apart.2.cache.slice root ∧
    apart.2.cache.queue = whole.queue.filter (·.key.root = root) ∧
    ∀ (c : Cache) (other : String), other ≠ root →
      (c.invalidate (some other)).slice root = c.slice root ∧
      ∀ (key : Key) (stamp : Stamp) (b : Branches), key.root = root →
        let forgot := c.invalidate (some other)
        (forgot.store key stamp b).slice root = (c.store key stamp b).slice root ∧
        (forgot.finish ⟨key, stamp⟩ b).slice root = (c.finish ⟨key, stamp⟩ b).slice root ∧
        (forgot.settle ⟨key, stamp⟩).slice root = (c.settle ⟨key, stamp⟩).slice root := by
  intro own whole apart
  have same : Alike root start start := by
    refine ⟨rfl, ?_, table, table, ⟨prepared, flat⟩, ⟨prepared, flat⟩, fun _ _ => rfl⟩
    rw [cache]
    exact fun _ waits => absurd waits List.not_mem_nil
  obtain ⟨outcomes, alike⟩ := run_alike same limit ops
  refine ⟨outcomes, alike.slice, alike.queue, fun c other foreign => ?_⟩
  have kept : (c.invalidate (some other)).slice root = c.slice root :=
    Cache.slice_invalidate_other foreign
  refine ⟨kept, ?_⟩
  rintro key stamp b rfl
  have settled : ((c.invalidate (some other)).settle ⟨key, stamp⟩).slice key.root = _ :=
    Cache.slice_settle_congr kept
  exact ⟨Cache.slice_store_congr kept stamp b, Cache.slice_store_congr settled stamp b, settled⟩

/-- Of every commit it is found out once that the branch `topic` contains it, and nothing later. -/
def waningResults : List Prepared :=
  [{ result := .ok (.ofList ["topic"]) }, { result := .error .noAnswer }]

def waningSession : Session where
  shell := { git := Git.ofRules [] }
  policy := .protection {}
  lookup := .fixed []
  own := { prepared := some fun _ => some waningResults }

theorem roots_apart_waning :
    let near : Key := ⟨"/near", "c"⟩
    let far : Key := ⟨"/far", "c"⟩
    let steps : List Step := [.request far, .request near, .invalidate (some "/far"), .runNext,
      .runNext, .getNow far, .getCached near, .invalidate (some "/near"), .getNow near]
    let apart := run 0 [.request near, .runNext, .getCached near, .invalidate (some "/near"),
      .getNow near] waningSession
    let topic : Except Failure Answer := .ok (.branches (.ofList ["topic"]))
    apart.1.map StepReport.outcome =
      [.ok (.flag true), topic, topic, .ok .nothing, .error .noAnswer] ∧
    (run 0 steps waningSession).2.cache.slice "/near" = apart.2.cache.slice "/near" := by
  intro near far steps apart topic
  have flat : Flat fun _ => some waningResults := by
    rintro key results held next member
    obtain rfl := Option.some.inj held
    simp only [waningResults, List.mem_cons, List.not_mem_nil, or_false] at member
    rcases member with rfl | rfl <;> rfl
  have ops : ∀ s ∈ steps, s.OnCache := by
    simp only [steps, List.forall_mem_cons]
    exact ⟨.request _, .request _, .invalidate _, .runNext, .runNext, .getNow _, .getCached _,
      .invalidate _, .getNow _, by simp⟩
  have prepared : waningSession.own.prepared = some fun _ => some waningResults := rfl
  obtain ⟨outcomes, slice, -⟩ := roots_apart prepared flat rfl 0 ops "/near"
  exact ⟨outcomes, slice⟩

end Session

end HistoryGuard
