import HistoryGuard.Proofs.Containment.Lookup
import HistoryGuard.Proofs.Containment.Stamp
import HistoryGuard.Proofs.Workspace
import HistoryGuard.Session.Step

/-! # What a step keeps, and where it computes

A step keeps a preorder on workspaces if the operations of the cache keep it and it does not
look at what happens beside the cache. A step computes containing branches at most once, and
`Step.computation?` tells for which key and in which state: nothing else about the computation
matters to the step.
-/

namespace HistoryGuard

open Run Workspace Containment

variable {ι : Type}

/-- The preorder `R` is kept by the operations of the cache with this computation, and does not
depend on what happens beside the cache. -/
structure Maintains (R : Workspace ι → Workspace ι → Prop) (compute : Compute ι) : Prop where
  beside : ∀ w v, Beside (Event.isAside ·) w v → R w v
  getNow : ∀ key, Keeps R (getNow compute key)
  request : ∀ key, Keeps R (request key)
  runNext : Keeps R (runNext compute)
  invalidate : ∀ root, Keeps R (invalidate root)
  shutdown : Keeps R shutdown

/-- The operations of the cache are made of a few moves: a computation begins and ends, the cache
changes under stamps that stay, and something is forgotten. -/
theorem maintains_of_moves {R : Workspace ι → Workspace ι → Prop} {g : Compute ι} [Std.Refl R]
    [IsTrans (Workspace ι) R] (beside : ∀ w v, Beside (Event.isAside ·) w v → R w v)
    (begins : ∀ key w, R w (begun key w)) (ends : ∀ n key p, R p.2 (ended n key p))
    (changes : ∀ (w : Workspace ι) (c : Cache), (∀ root, c.stamp root = w.cache.stamp root) →
      R w { w with cache := c })
    (forgets : ∀ target, Keeps R (invalidate (ι := ι) target)) (hg : ∀ key, Keeps R (g key)) :
    Maintains R g := by
  have computed (key : Key) (n : Nat) (w : Workspace ι) :
      R w (ended n key (g key (begun key w))) :=
    trans_of R (trans_of R (begins key w) (hg key _)) (ends n key _)
  constructor
  case beside => exact beside
  case getNow =>
    intro key w
    cases hk : w.cache.get? key with
    | some b =>
      rw [getNow_of_hit g hk]
      exact refl_of R w
    | none =>
      have whole := computed key w.serial w
      rw [getNow_of_miss g hk]
      rcases hv : g key (begun key w) with ⟨e | b, v⟩ <;> rw [hv] at whole
      · exact whole
      · exact trans_of R whole (changes _ _ fun root => Cache.stamp_store _ root ..)
  case request =>
    intro key w
    rw [request_snd]
    exact changes w _ fun root => Cache.stamp_request _ root key
  case runNext =>
    intro w
    cases hq : w.cache.queue with
    | nil =>
      rw [runNext_of_idle g hq]
      exact refl_of R w
    | cons task rest =>
      have start : R w (started task rest w) := changes w _ fun _ => rfl
      have whole := trans_of R start (computed task.key w.serial (started task rest w))
      rw [runNext_of_task g hq]
      rcases hv : g task.key (begun task.key (started task rest w)) with ⟨e | b, v⟩ <;>
        rw [hv] at whole
      · exact trans_of R whole (changes _ (v.cache.settle task) fun _ => rfl)
      · refine trans_of R whole (changes _ (v.cache.finish task b) fun root => ?_)
        exact Cache.stamp_store (v.cache.settle task) root ..
  case invalidate => exact forgets
  case shutdown => exact fun w => changes w _ fun _ => rfl

/-- The events that the second workspace has more satisfy `P`, and the state of the computation is
the same. -/
structure Loose (P : Event → Prop) (w v : Workspace ι) : Prop where
  own : v.own = w.own
  journal : ∃ es, v.shell.journal = es ++ w.shell.journal ∧ ∀ e ∈ es, P e

/-- The operations of the cache keep what depends neither on the cache nor on events of theirs. -/
theorem maintains_of_loose {R : Workspace ι → Workspace ι → Prop} {g : Compute ι} [Std.Refl R]
    [IsTrans (Workspace ι) R] (h : ∀ w v, Loose (·.isEditing = false) w v → R w v)
    (hg : ∀ key, Keeps R (g key)) : Maintains R g := by
  have event {w v : Workspace ι} {e : Event} (ho : v.own = w.own)
      (hj : v.shell.journal = e :: w.shell.journal) (he : e.isEditing = false) : R w v :=
    h w v ⟨ho, [e], hj, by simpa using he⟩
  apply maintains_of_moves
  case beside =>
    rintro w v ⟨-, -, ho, es, hj, aside⟩
    exact h w v ⟨ho, es, hj, fun e he => Event.isEditing_of_isAside (aside e he)⟩
  case begins => exact fun key w => event rfl (begun_journal key w) rfl
  case ends => exact fun n key p => event rfl (ended_journal n key p) rfl
  case changes => exact fun w c _ => h _ _ ⟨rfl, [], rfl, by simp⟩
  case forgets => exact fun target w => event rfl rfl rfl
  case hg => exact hg

/-- The step only asks about the workspace. It works on the cache no more than to read it. -/
def Step.isAsking : Step → Bool
  | checkEnablement _ => true
  | verdict .. => true
  | findProtected .. => true
  | update .. => true
  | commit .. => true
  | repository _ => true
  | currentBranch _ => true
  | remoteBranches _ => true
  | _ => false

namespace Workspace.Upholds

variable {R : Workspace ι → Workspace ι → Prop} {compute : Compute ι} [Std.Refl R]
  [IsTrans (Workspace ι) R]

theorem known (h : Upholds R) (root : String) : Keeps R (Step.known (ι := ι) root) := by
  apply (h.repository? root).bind
  intro found
  cases found with
  | none => exact keeps_fail _
  | some r => exact keeps_pure r

section Gate

variable (h : Upholds R) (getNow : ∀ key, Keeps R (getNow compute key))
include h getNow

omit h in
theorem containing (commit : Commit) : Keeps R (Gate.containing compute commit) := by
  refine Keeps.bind (keeps_read _) fun cached => ?_
  cases cached with
  | none => exact getNow commit.key
  | some b => exact keeps_pure b

theorem judge (s : Selection) : Keeps R (Gate.judge compute s) := by
  refine Keeps.bind (keeps_ofExcept _) fun commit => ?_
  apply (h.repository? commit.root).bind
  intro found
  cases found with
  | none => exact keeps_fail _
  | some repository =>
    dsimp only
    split
    · exact (containing getNow commit).bind fun b => h.verdict repository b
    · exact keeps_pure _

variable (tell : ∀ title text, Keeps R (Gate.tell title text))
include tell

theorem attemptEdit (s : Selection) (title : String) :
    Keeps R (Gate.attemptEdit compute s title) := by
  apply (h.judge getNow s).bind
  intro verdict
  cases verdict with
  | allowed => exact keeps_pure true
  | denied reason => exact (tell title reason.message).bind fun _ => keeps_pure false

variable (forget : ∀ root, Keeps R (invalidate (some root)))
include forget

omit h getNow in
theorem conclude (edit : Edit) (commit : Commit) (outcome : Except Failure Bool) :
    Keeps R (edit.conclude commit outcome) := by
  cases outcome with
  | ok done => exact (forget commit.root).bind fun _ => keeps_pure done
  | error e =>
    rw [Edit.conclude]
    split
    · exact (tell _ _).bind fun _ => (forget commit.root).bind fun _ => keeps_pure false
    · exact (forget commit.root).bind fun _ => keeps_fail e

/-- A perform keeps `R` in a state if carrying out the edit keeps `R` wherever the gate allows
it. -/
theorem perform_at {edit : Edit} {s : Selection} {w : Workspace ι}
    (he : ∀ commit v, s = [commit] →
      Gate.attemptEdit compute s edit.action.failureTitle w = (.ok true, v) →
      R v (onShell (edit.carryOut commit) v).2) :
    R w (edit.perform compute s w).2 := by
  have attempt := h.attemptEdit getNow tell s edit.action.failureTitle w
  rw [Edit.perform, bind_apply]
  split
  · next allowed v hv =>
    rw [hv] at attempt
    cases allowed with
    | false => exact attempt
    | true =>
      apply trans_of R attempt
      rw [if_pos rfl, bind_apply]
      split
      · next commit u hc =>
        obtain ⟨hs, rfl⟩ := ofExcept_eq_ok.mp hc
        have carried := he commit v (Selection.single_eq_ok_iff.mp hs) hv
        exact trans_of R carried (conclude tell forget edit commit _ _)
      · next e u hc =>
        obtain ⟨-, rfl⟩ := Prod.mk.inj hc
        exact refl_of R v
  · next e v hv => rwa [hv] at attempt

end Gate

theorem asking_step (h : Upholds R) {s : Step} (asking : s.isAsking = true) :
    Keeps R (s.run compute) := by
  cases s with
  | checkEnablement s => exact (h.enablement s).bind fun _ => keeps_pure _
  | verdict root names =>
    exact (h.known root).bind fun r => (h.verdict r _).bind fun _ => keeps_pure _
  | findProtected root names =>
    exact (h.known root).bind fun r => (h.findProtected r _).bind fun _ => keeps_pure _
  | update _ s => exact (h.enablement s).bind fun _ => keeps_pure _
  | commit dir sha => exact (h.query (Git.asks_commit dir sha)).bind fun _ => keeps_pure _
  | repository root => exact (h.repository? root).bind fun _ => keeps_pure _
  | currentBranch root =>
    exact (h.known root).bind fun r => (h.query r.asks_currentBranch).bind fun _ => keeps_pure _
  | remoteBranches root =>
    exact (h.known root).bind fun r => (h.query r.asks_remoteBranches).bind fun _ => keeps_pure _
  | _ => simp [Step.isAsking] at asking

theorem step (h : Upholds R) (getNow : ∀ key, Keeps R (getNow compute key))
    (tell : ∀ title text, Keeps R (Gate.tell title text)) (request : ∀ key, Keeps R (request key))
    (runNext : Keeps R (runNext compute)) (invalidate : ∀ root, Keeps R (invalidate root))
    (shutdown : Keeps R shutdown)
    (git : ∀ behaviour (w : Workspace ι),
      R w { w with shell := { w.shell with git := behaviour, past := [] } })
    (settings : ∀ p (w : Workspace ι), R w { w with policy := .protection p }) {s : Step}
    (perform : ∀ edit sel, s = .perform edit sel → Keeps R (edit.perform compute sel)) :
    Keeps R (s.run compute) := by
  cases s with
  | git behaviour => exact Keeps.bind (keeps_modify (git behaviour)) fun _ => keeps_pure _
  | settings p => exact Keeps.bind (keeps_modify (settings p)) fun _ => keeps_pure _
  | attemptEdit s title => exact (h.attemptEdit getNow tell s title).bind fun _ => keeps_pure _
  | perform edit s => exact (perform edit s rfl).bind fun _ => keeps_pure _
  | getCached key => exact Keeps.bind (keeps_read _) fun _ => keeps_pure _
  | getNow key => exact (getNow key).bind fun _ => keeps_pure _
  | request key => exact (request key).bind fun _ => keeps_pure _
  | runNext =>
    apply runNext.bind
    intro carried
    cases carried with
    | none => exact keeps_pure _
    | some b => exact keeps_pure _
  | invalidate root => exact (invalidate root).bind fun _ => keeps_pure _
  | shutdown => exact shutdown.bind fun _ => keeps_pure _
  | _ => exact h.asking_step rfl

end Workspace.Upholds

namespace Maintains

variable {R : Workspace ι → Workspace ι → Prop} {compute : Compute ι}

theorem upholds (h : Maintains R compute) : Upholds R := by
  have asks {α : Type} {x : Run (Workspace ι) α} (hx : Asks x) : Keeps R x :=
    hx.mono fun w v hb => h.beside w v (hb.mono fun _ => Event.isAside_of_isQuery)
  exact ⟨fun hx => asks (beside_onShell hx), fun root => asks (asks_repository? root)⟩

theorem tell (h : Maintains R compute) (title text : String) : Keeps R (Gate.tell title text) :=
  (beside_note (P := (Event.isAside ·)) rfl).mono h.beside

variable [Std.Refl R] [IsTrans (Workspace ι) R]

theorem perform_at (h : Maintains R compute) {edit : Edit} {s : Selection} {w : Workspace ι}
    (he : ∀ commit v, s = [commit] →
      Gate.attemptEdit compute s edit.action.failureTitle w = (.ok true, v) →
      R v (onShell (edit.carryOut commit) v).2) :
    R w (edit.perform compute s w).2 :=
  h.upholds.perform_at h.getNow h.tell (fun root => h.invalidate (some root)) he

theorem step (h : Maintains R compute) {s : Step}
    (hp : ∀ edit sel, s = .perform edit sel → Keeps R (edit.perform compute sel)) :
    Keeps R (s.run compute) :=
  h.upholds.step h.getNow h.tell h.request h.runNext h.invalidate h.shutdown
    (fun _ _ => h.beside _ _ ⟨rfl, rfl, rfl, [], rfl, by simp⟩)
    (fun _ _ => h.beside _ _ ⟨rfl, rfl, rfl, [], rfl, by simp⟩) hp

theorem step_at (h : Maintains R compute) {s : Step} {w : Workspace ι}
    (hp : ∀ edit sel, s = .perform edit sel → R w (edit.perform compute sel w).2) :
    R w (s.run compute w).2 := by
  cases s with
  | perform edit sel =>
    have performed := hp edit sel rfl
    rw [Step.run, bind_apply]
    split <;> rename_i hv <;> rwa [hv] at performed
  | _ => exact h.step (by rintro _ _ ⟨⟩) w

end Maintains

def Containment.missing (key : Key) (w : Workspace ι) : Option (Key × Workspace ι) :=
  if w.cache.get? key = none then some (key, begun key w) else none

def Gate.computation? (s : Selection) (w : Workspace ι) : Option (Key × Workspace ι) :=
  match s with
  | [commit] =>
    match repository? commit.root w with
    | (.ok (some _), v) => if commit.parentCount = 1 then missing commit.key v else none
    | _ => none
  | _ => none

/-- The key that a step computes and the state in which its computation begins, if it computes
anything. -/
def Step.computation? : Step → Workspace ι → Option (Key × Workspace ι)
  | attemptEdit s _, w => Gate.computation? s w
  | perform _ s, w => Gate.computation? s w
  | getNow key, w => missing key w
  | runNext, w =>
    match w.cache.queue with
    | [] => none
    | task :: rest => some (task.key, begun task.key (started task rest w))
  | _, _ => none

/-- The state in which a step begins a computation comes about beside the cache, and by taking the
oldest task from the queue. -/
theorem Step.rel_of_computation? {R : Workspace ι → Workspace ι → Prop} [Std.Refl R]
    [IsTrans (Workspace ι) R] (beside : ∀ w v, Beside (Event.isAside ·) w v → R w v)
    (begins : ∀ key w, R w (begun key w))
    (starts : ∀ task rest w, w.cache.queue = task :: rest → R w (started task rest w))
    {s : Step} {w v : Workspace ι} {key : Key} (h : s.computation? w = some (key, v)) : R w v := by
  have miss {w : Workspace ι} {k : Key} (h : missing k w = some (key, v)) : R w v := by
    unfold missing at h
    split at h
    · cases h
      exact begins _ w
    · simp at h
  have gate {sel : Selection} (h : Gate.computation? sel w = some (key, v)) : R w v := by
    unfold Gate.computation? at h
    split at h
    · split at h
      · next r u hr =>
        split at h
        · have asked : Beside (Event.isAside ·) w u :=
            ((asks_repository? _).of_eq hr).mono fun _ => Event.isAside_of_isQuery
          exact trans_of R (beside w u asked) (miss h)
        · simp at h
      · simp at h
    · simp at h
  cases s with
  | attemptEdit sel title => exact gate h
  | perform edit sel => exact gate h
  | getNow k => exact miss h
  | runNext =>
    simp only [computation?] at h
    split at h
    · simp at h
    · next task rest hq =>
      cases h
      exact trans_of R (starts task rest w hq) (begins _ _)
  | _ => simp [computation?] at h

section Congr

variable {f g : Compute ι} {w : Workspace ι}

theorem Containment.getNow_congr {key : Key}
    (h : ∀ k v, missing key w = some (k, v) → f k v = g k v) : getNow f key w = getNow g key w := by
  cases hm : w.cache.get? key with
  | some b => rw [getNow_of_hit f hm, getNow_of_hit g hm]
  | none => rw [getNow_of_miss f hm, getNow_of_miss g hm, h _ _ (if_pos hm)]

theorem Gate.containing_congr {commit : Commit}
    (h : ∀ k v, missing commit.key w = some (k, v) → f k v = g k v) :
    containing f commit w = containing g commit w := by
  apply bind_congr_at rfl
  intro cached v hv
  obtain ⟨rfl, rfl⟩ := read_eq_ok.mp hv
  cases hm : w.cache.get? commit.key with
  | some b => rfl
  | none => exact getNow_congr h

theorem Gate.judge_congr {s : Selection}
    (h : ∀ k v, Gate.computation? s w = some (k, v) → f k v = g k v) :
    judge f s w = judge g s w := by
  apply bind_congr_at rfl
  intro commit v hv
  obtain ⟨hs, rfl⟩ := ofExcept_eq_ok.mp hv
  obtain rfl := Selection.single_eq_ok_iff.mp hs
  apply bind_congr_at rfl
  intro found v hv
  cases found with
  | none => rfl
  | some repository =>
    dsimp only
    split
    · next hp =>
      refine bind_congr_at (containing_congr fun k u hm => h k u ?_) fun _ _ _ => rfl
      simpa only [Gate.computation?, hv, if_pos hp] using hm
    · rfl

theorem Gate.attemptEdit_congr {s : Selection} {title : String}
    (h : ∀ k v, Gate.computation? s w = some (k, v) → f k v = g k v) :
    attemptEdit f s title w = attemptEdit g s title w :=
  bind_congr_at (judge_congr h) fun _ _ _ => rfl

theorem Containment.runNext_congr
    (h : ∀ k v, Step.runNext.computation? w = some (k, v) → f k v = g k v) :
    runNext f w = runNext g w := by
  cases hq : w.cache.queue with
  | nil => rw [runNext_of_idle f hq, runNext_of_idle g hq]
  | cons task rest =>
    rw [runNext_of_task f hq, runNext_of_task g hq, h]
    rw [Step.computation?, hq]

/-- The result of a step depends on the computation only at the key and in the state that
`computation?` names. -/
theorem Step.run_congr {s : Step} (h : ∀ k v, s.computation? w = some (k, v) → f k v = g k v) :
    s.run f w = s.run g w := by
  cases s with
  | attemptEdit s title => exact bind_congr_at (Gate.attemptEdit_congr h) fun _ _ _ => rfl
  | perform edit s =>
    refine bind_congr_at ?_ fun _ _ _ => rfl
    exact bind_congr_at (Gate.attemptEdit_congr h) fun _ _ _ => rfl
  | getNow key => exact bind_congr_at (getNow_congr h) fun _ _ _ => rfl
  | runNext => exact bind_congr_at (runNext_congr h) fun _ _ _ => rfl
  | _ => rfl

/-- If the computation of a step keeps `R` where the step needs it, then the step cannot tell it
from one that keeps `R` everywhere. -/
theorem Step.exists_keeping {R : Workspace ι → Workspace ι → Prop} [Std.Refl R] {s : Step}
    (h : ∀ k v, s.computation? w = some (k, v) → R v (f k v).2) :
    ∃ g : Compute ι, (∀ key, Keeps R (g key)) ∧
      ∀ k v, s.computation? w = some (k, v) → f k v = g k v := by
  classical
  let g : Compute ι := fun k v =>
    if s.computation? w = some (k, v) then f k v else (.error .noAnswer, v)
  refine ⟨g, ?_, ?_⟩
  · intro key v
    dsimp only [g]
    split
    · next hc => exact h key v hc
    · exact refl_of R v
  · intro k v hc
    exact (if_pos hc).symm

end Congr

end HistoryGuard
