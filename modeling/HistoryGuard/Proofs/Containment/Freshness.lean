import HistoryGuard.Proofs.Containment.Stamp
import HistoryGuard.Proofs.Gate.Cases
import HistoryGuard.Proofs.Session

/-! # What is remembered is fresh

Every remembered set of branches is the result of a computation that began after its root was
last forgotten. A result that was asked for before that carries an older stamp, and is not
remembered however late it comes.
-/

namespace HistoryGuard

def Event.Forgets (root : String) (e : Event) : Prop :=
  ∃ target, e = .invalidated target ∧ Cache.Forgets target root

def Event.Begins (serial : Nat) (e : Event) : Prop := ∃ key, e = .computing serial key

/-- The event neither forgets a root nor begins a computation. -/
structure Event.Plain (e : Event) : Prop where
  forgets : ∀ root, ¬ e.Forgets root
  begins : ∀ n, ¬ e.Begins n

theorem Event.plain_of_not_isContainment {e : Event} (h : e.isContainment = false) : e.Plain := by
  constructor
  · rintro root ⟨target, rfl, -⟩
    simp [isContainment] at h
  · rintro n ⟨key, rfl⟩
    simp [isContainment] at h

theorem Event.plain_computed (n : Nat) (key : Key) (r : Except Failure Branches) :
    (computed n key r).Plain := by
  constructor
  · rintro root ⟨target, ⟨⟩, -⟩
  · rintro m ⟨k, ⟨⟩⟩

theorem Event.not_begins_invalidated (target : Option String) (n : Nat) :
    ¬ (Event.invalidated target).Begins n := by
  rintro ⟨key, ⟨⟩⟩

theorem Event.forgets_invalidated_iff {target : Option String} {root : String} :
    (Event.invalidated target).Forgets root ↔ Cache.Forgets target root := by
  constructor
  · rintro ⟨t, ⟨⟩, h⟩
    exact h
  · exact fun h => ⟨target, rfl, h⟩

/-- The set is the result of a computation of the key that began after its root was last
forgotten. No other computation has the same serial number. -/
def Fresh (journal : List Event) (key : Key) (b : Branches) : Prop :=
  ∃ n later mid earlier,
    journal = later ++ .computed n key (.ok b) :: mid ++ .computing n key :: earlier ∧
    (∀ e ∈ later ++ mid, ¬ e.Forgets key.root) ∧
    ∀ e ∈ later ++ mid ++ earlier, ¬ e.Begins n

def Numbered (journal : List Event) (serial : Nat) : Prop :=
  ∀ e ∈ journal, ∀ n, e.Begins n → n < serial

theorem Fresh.append {journal l : List Event} {key : Key} {b : Branches} {serial : Nat}
    (h : Fresh journal key b) (hn : Numbered journal serial)
    (kept : ∀ e ∈ l, ¬ e.Forgets key.root) (begun : ∀ e ∈ l, ∀ n, e.Begins n → serial ≤ n) :
    Fresh (l ++ journal) key b := by
  obtain ⟨n, later, mid, earlier, rfl, hf, hb⟩ := h
  have hlt : n < serial := hn (.computing n key) (by simp) n ⟨key, rfl⟩
  refine ⟨n, l ++ later, mid, earlier, by simp, ?_, ?_⟩
  · intro e he
    rw [List.append_assoc, List.mem_append] at he
    rcases he with he | he
    · exact kept e he
    · exact hf e he
  · intro e he hbegins
    rw [List.append_assoc, List.append_assoc, ← List.append_assoc later, List.mem_append] at he
    rcases he with he | he
    · have := begun e he n hbegins
      omega
    · exact hb e he hbegins

namespace Containment

open Run Workspace

variable {ι : Type}

/-- The second workspace comes later than the first: its journal has grown, computations in it
are numbered on, and stamps have not gone back. A root whose stamp is the same has not been
forgotten in between. -/
structure Later (w v : Workspace ι) : Prop where
  serial : w.serial ≤ v.serial
  stamp : ∀ root, w.cache.stamp root ≤ v.cache.stamp root
  journal : ∃ es, v.shell.journal = es ++ w.shell.journal ∧
    (∀ e ∈ es, ∀ n, e.Begins n → w.serial ≤ n) ∧
    ∀ root, w.cache.stamp root = v.cache.stamp root → ∀ e ∈ es, ¬ e.Forgets root

/-- What is remembered is fresh, and neither serial numbers nor stamps come from the future. -/
structure Sound (w : Workspace ι) : Prop where
  fresh : ∀ key b, w.cache.get? key = some b → Fresh w.shell.journal key b
  numbered : Numbered w.shell.journal w.serial
  timely : w.cache.Timely

structure SoundLater (w v : Workspace ι) : Prop where
  later : Later w v
  sound : Sound w → Sound v

theorem Later.trans {w v u : Workspace ι} (h : Later w v) (h' : Later v u) : Later w u := by
  obtain ⟨es, hj, hb, hf⟩ := h.journal
  obtain ⟨es', hj', hb', hf'⟩ := h'.journal
  refine ⟨Nat.le_trans h.serial h'.serial, ?_, es' ++ es, ?_, ?_, ?_⟩
  · exact fun root => Stamp.le_trans (h.stamp root) (h'.stamp root)
  · rw [hj', hj, List.append_assoc]
  · intro e he n hn
    rcases List.mem_append.mp he with he | he
    · exact Nat.le_trans h.serial (hb' e he n hn)
    · exact hb e he n hn
  · intro root same e he
    -- the stamp in between is squeezed by the two equal ones
    have between : w.cache.stamp root = v.cache.stamp root :=
      Stamp.le_antisymm (h.stamp root) (same ▸ h'.stamp root)
    rcases List.mem_append.mp he with he | he
    · exact hf' root (between ▸ same) e he
    · exact hf root between e he

instance : Std.Refl (SoundLater (ι := ι)) where
  refl w := by
    constructor
    · exact ⟨Nat.le_refl _, fun _ => Stamp.le_refl _, [], rfl, by simp, by simp⟩
    · exact fun h => h

instance : IsTrans (Workspace ι) SoundLater where
  trans _ _ _ h h' := ⟨h.later.trans h'.later, fun hs => h'.sound (h.sound hs)⟩

/-- Events that neither forget nor begin anything change nothing about soundness. -/
theorem soundLater_of_plain {w v : Workspace ι} (h : Beside Event.Plain w v) : SoundLater w v := by
  obtain ⟨hc, hs, -, es, hj, hp⟩ := h
  have begins : ∀ e ∈ es, ∀ n, e.Begins n → w.serial ≤ n :=
    fun e he n hn => absurd hn ((hp e he).begins n)
  constructor
  · refine ⟨Nat.le_of_eq hs.symm, ?_, es, hj, begins, ?_⟩
    · rw [hc]
      exact fun root => Stamp.le_refl _
    · exact fun root _ e he => (hp e he).forgets root
  · intro sound
    constructor
    · intro key b hk
      rw [hc] at hk
      rw [hj]
      exact (sound.fresh key b hk).append sound.numbered
        (fun e he => (hp e he).forgets key.root) begins
    · intro e he n hn
      rw [hj] at he
      rw [hs]
      rcases List.mem_append.mp he with he | he
      · exact absurd hn ((hp e he).begins n)
      · exact sound.numbered e he n hn
    · rw [hc]
      exact sound.timely

theorem soundLater_ended (n : Nat) (key : Key) (r : Except Failure Branches) (v : Workspace ι) :
    SoundLater v (ended n key (r, v)) := by
  refine soundLater_of_plain ⟨rfl, rfl, rfl, [.computed n key r], rfl, ?_⟩
  simpa using Event.plain_computed n key r

theorem soundLater_begun (key : Key) (w : Workspace ι) : SoundLater w (begun key w) := by
  have begins : ∀ e ∈ [Event.computing w.serial key], ∀ n, e.Begins n → w.serial = n := by
    rintro e he n ⟨k, rfl⟩
    simp only [List.mem_singleton, Event.computing.injEq] at he
    exact he.1.symm
  have kept : ∀ root, ∀ e ∈ [Event.computing w.serial key], ¬ e.Forgets root := by
    rintro root e he ⟨target, rfl, -⟩
    simp at he
  constructor
  · refine ⟨Nat.le_succ _, fun _ => Stamp.le_refl _, _, rfl, ?_, fun root _ => kept root⟩
    exact fun e he n hn => Nat.le_of_eq (begins e he n hn)
  · intro sound
    constructor
    · intro k b hk
      exact (sound.fresh k b hk).append (l := [_]) sound.numbered (kept k.root)
        fun e he n hn => Nat.le_of_eq (begins e he n hn)
    · intro e he n hn
      rcases List.mem_cons.mp he with rfl | he
      · have := begins _ List.mem_cons_self n hn
        simp only [begun_serial]
        omega
      · exact Nat.lt_succ_of_lt (sound.numbered e he n hn)
    · exact sound.timely

theorem soundLater_of_cache {w : Workspace ι} {c : Cache}
    (stamp : ∀ root, c.stamp root = w.cache.stamp root) (entries : c.entries = w.cache.entries)
    (timely : w.cache.Timely → c.Timely) : SoundLater w { w with cache := c } := by
  constructor
  · refine ⟨Nat.le_refl _, ?_, [], rfl, by simp, by simp⟩
    intro root
    show _ ≤ c.stamp root
    rw [stamp]
    exact Stamp.le_refl _
  · intro sound
    constructor
    · intro key b hk
      apply sound.fresh key b
      rwa [Cache.get?, ← entries]
    · exact sound.numbered
    · exact timely sound.timely

/-- A result may be remembered if it is fresh whenever the stamp is still the present one. -/
theorem soundLater_store {w v : Workspace ι} {key : Key} {stamp : Stamp} {b : Branches}
    (h : SoundLater w v)
    (fresh : Sound w → v.cache.stamp key.root = stamp → Fresh v.shell.journal key b) :
    SoundLater w { v with cache := v.cache.store key stamp b } := by
  constructor
  · refine h.later.trans ⟨Nat.le_refl _, ?_, [], rfl, by simp, by simp⟩
    intro root
    rw [Cache.stamp_store]
    exact Stamp.le_refl _
  · intro sound
    constructor
    · intro k b' hk
      rw [Cache.get?_store] at hk
      split at hk
      · next hs =>
        obtain ⟨hs, rfl⟩ := hs
        cases hk
        exact fresh sound hs
      · exact (h.sound sound).fresh k b' hk
    · exact (h.sound sound).numbered
    · exact (h.sound sound).timely.store key stamp b

/-- A computation whose root has kept its stamp has a fresh result. -/
theorem fresh_of_computed {w v : Workspace ι} {key : Key} (b : Branches)
    (numbered : Numbered w.shell.journal w.serial) (h : Later (begun key w) v)
    (same : v.cache.stamp key.root = w.cache.stamp key.root) :
    Fresh (ended w.serial key (.ok b, v)).shell.journal key b := by
  obtain ⟨es, hj, hb, hf⟩ := h.journal
  refine ⟨w.serial, [], es, w.shell.journal, ?_, hf key.root same.symm, fun e he hn => ?_⟩
  · rw [ended_journal, hj]
    rfl
  · rcases List.mem_append.mp he with he | he
    · exact absurd (hb e he _ hn) (Nat.not_succ_le_self _)
    · exact absurd (numbered e he _ hn) (Nat.lt_irrefl _)

theorem soundLater_started {task : Task} {rest : List Task} {w : Workspace ι}
    (h : w.cache.queue = task :: rest) : SoundLater w (started task rest w) := by
  refine soundLater_of_cache (fun _ => rfl) rfl ?_
  intro timely t ht
  apply timely t
  simp only [Cache.outstanding, h]
  simp only [Cache.outstanding, List.mem_append, List.mem_cons] at ht ⊢
  rcases ht with hr | rfl | hr
  · exact .inl (.inr hr)
  · exact .inl (.inl rfl)
  · exact .inr hr

theorem stamp_of_task {w v : Workspace ι} {task : Task} (timely : w.cache.Timely)
    (asked : task ∈ w.cache.outstanding) (later : Later w v)
    (same : v.cache.stamp task.key.root = task.stamp) :
    v.cache.stamp task.key.root = w.cache.stamp task.key.root :=
  Stamp.le_antisymm (same ▸ timely task asked) (later.stamp task.key.root)

section Compute

variable {g : Compute ι} (hg : ∀ key, Keeps SoundLater (g key))
include hg

theorem soundLater_computed (n : Nat) (key : Key) (w : Workspace ι) :
    SoundLater w (ended n key (g key (begun key w))) :=
  trans_of _ (trans_of _ (soundLater_begun key w) (hg key _)) (soundLater_ended ..)

theorem soundLater_getNow (key : Key) : Keeps SoundLater (getNow g key) := by
  intro w
  cases hk : w.cache.get? key with
  | some b =>
    rw [getNow_of_hit g hk]
    exact refl_of _ w
  | none =>
    have later := hg key (begun key w)
    have whole := soundLater_computed hg w.serial key w
    rw [getNow_of_miss g hk]
    rcases hv : g key (begun key w) with ⟨e | b, v⟩ <;> rw [hv] at later whole
    · exact whole
    · apply soundLater_store whole
      intro sound same
      exact fresh_of_computed b sound.numbered later.later same

theorem soundLater_runNext : Keeps SoundLater (runNext g) := by
  intro w
  cases hq : w.cache.queue with
  | nil =>
    rw [runNext_of_idle g hq]
    exact refl_of _ w
  | cons task rest =>
    have later := hg task.key (begun task.key (started task rest w))
    have whole := trans_of _ (soundLater_started hq)
      (soundLater_computed hg w.serial task.key (started task rest w))
    rw [runNext_of_task g hq]
    rcases hv : g task.key (begun task.key (started task rest w)) with ⟨e | b, v⟩ <;>
      rw [hv] at later whole <;>
      have settled := trans_of _ whole (soundLater_of_cache (c := v.cache.settle task)
        (fun _ => rfl) rfl fun timely => timely.settle task)
    · exact settled
    · apply soundLater_store settled
      intro sound same
      have asked : task ∈ w.cache.outstanding := by simp [Cache.outstanding, hq]
      have now := stamp_of_task sound.timely asked whole.later same
      exact fresh_of_computed (w := started task rest w) b sound.numbered later.later now

end Compute

theorem later_invalidate (target : Option String) (w : Workspace ι) :
    Later w (invalidate target w).2 := by
  refine ⟨Nat.le_refl _, fun root => Cache.stamp_le_invalidate target, [.invalidated target], rfl,
    ?_, ?_⟩
  · simpa using fun n hn => absurd hn (Event.not_begins_invalidated target n)
  · intro root same e he forgets
    obtain rfl := List.mem_singleton.mp he
    exact (Cache.stamp_invalidate_of_forgets (Event.forgets_invalidated_iff.mp forgets)).2 same

theorem Sound.invalidate {w : Workspace ι} (sound : Sound w) (target : Option String) :
    Sound (Containment.invalidate target w).2 := by
  constructor
  · intro key b hk
    by_cases hf : Cache.Forgets target key.root
    · rw [invalidate_eq, Cache.get?_invalidate_of_forgets hf] at hk
      cases hk
    · rw [invalidate_eq, Cache.get?_invalidate_of_not hf] at hk
      refine (sound.fresh key b hk).append (l := [_]) sound.numbered ?_ ?_
      · simpa [Event.forgets_invalidated_iff] using hf
      · simpa using fun n hn => absurd hn (Event.not_begins_invalidated target n)
  · intro e he n hn
    rcases List.mem_cons.mp he with rfl | he
    · exact absurd hn (Event.not_begins_invalidated target n)
    · exact sound.numbered e he n hn
  · exact sound.timely.invalidate target

theorem maintains_soundLater {g : Compute ι} (hg : ∀ key, Keeps SoundLater (g key)) :
    Maintains SoundLater g := by
  constructor
  case beside =>
    intro w v h
    apply soundLater_of_plain
    apply h.mono
    intro e he
    apply Event.plain_of_not_isContainment
    cases e <;> first | rfl | simp [Event.isAside, Event.isQuery, Event.isNotice] at he
  case getNow => exact soundLater_getNow hg
  case request =>
    intro key w
    rw [request_snd]
    exact soundLater_of_cache (fun _ => Cache.stamp_request _ _ _) (Cache.entries_request _)
      fun timely => timely.request key
  case runNext => exact soundLater_runNext hg
  case invalidate => exact fun target w => ⟨later_invalidate target w, (·.invalidate target)⟩
  case shutdown => exact fun w => soundLater_of_cache (fun _ => rfl) rfl fun timely => timely

end Containment

namespace Session

open Run Workspace Containment

theorem soundLater_of_reaches {w v : Session} (h : Reaches w v) : SoundLater w v := by
  have own (w : Session) (own : Script) : SoundLater w { w with own } :=
    ⟨⟨Nat.le_refl _, fun _ => Stamp.le_refl _, [], rfl, by simp, by simp⟩,
      fun sound => ⟨sound.fresh, sound.numbered, sound.timely⟩⟩
  have edits (edit : Edit) (commit : Commit) :
      Keeps SoundLater (onShell (ι := Script) (edit.carryOut commit)) := by
    refine (beside_onShell (Edit.outward_carryOut edit commit)).mono ?_
    intro _ _ hb
    exact soundLater_of_plain (hb.mono fun _ => Event.plain_of_not_isContainment)
  have maintains := fun g : Compute Script => maintains_soundLater (g := g)
  refine h.rel ?_ (keeps_step ⟨?_, ?_⟩ maintains edits) soundLater_begun ?_ own
  · exact (maintains (fun _ => .fail .noAnswer) fun _ => keeps_fail _).beside
  · exact fun table w => own w _
  · exact fun w outcome => own w _
  · exact fun _ _ _ => soundLater_started

theorem Initial.sound {w : Session} (h : Initial w) : Sound w := by
  constructor
  · intro key b hk
    rw [h.cache] at hk
    cases hk
  · intro e he
    rw [h.journal] at he
    cases he
  · intro task ht
    rw [h.cache] at ht
    cases ht

/-- In whatever state a session comes through, what is remembered of a key is the result of a
computation of that key that began after its root was last forgotten, and nothing else is served.
A result that was asked for before a root is forgotten is not remembered afterwards. -/
theorem remembered_fresh {start w : Session} (initial : Initial start) (reaches : Reaches start w) :
    (∀ key b, w.cache.get? key = some b → Fresh w.shell.journal key b) ∧
    (∀ key b v, getCached key w = (.ok (some b), v) → Fresh w.shell.journal key b) ∧
    (∀ compute key b v, w.cache.get? key ≠ none → getNow compute key w = (.ok b, v) →
      Fresh w.shell.journal key b) ∧
    (∀ commit repository u, repository? commit.root w = (.ok (some repository), u) →
      commit.parentCount = 1 →
      Gate.enablement [commit] w = (.ok .available, u) ∨
      ∃ b, Fresh w.shell.journal commit.key b ∧
        Gate.enablement [commit] w = (Verdict.presentation <$> Gate.verdict repository b) u) ∧
    ∀ target u v key stamp b, Reaches start u → Reaches u w →
      stamp = u.cache.stamp key.root ∨ ⟨key, stamp⟩ ∈ u.cache.outstanding →
      Cache.Forgets target key.root → Reaches (invalidate target w).2 v →
      v.cache.store key stamp b = v.cache ∧
        (v.cache.finish ⟨key, stamp⟩ b).entries = v.cache.entries := by
  have sound : Sound w := (soundLater_of_reaches reaches).sound initial.sound
  refine ⟨sound.fresh, ?_, ?_, ?_, ?_⟩
  · intro key b v h
    exact sound.fresh key b (read_eq_ok.mp h).1
  · intro compute key b v hk h
    obtain ⟨b', hk⟩ := Option.ne_none_iff_exists'.mp hk
    rw [getNow_of_hit compute hk] at h
    cases h
    exact sound.fresh key b hk
  · intro commit repository u found one
    rcases Gate.enablement_of_found found one with ⟨-, h⟩ | ⟨b, hb, h⟩
    · exact .inl h
    · exact .inr ⟨b, sound.fresh _ b hb, h⟩
  · intro target u v key stamp b hu hw asked forgets hv
    have before : stamp ≤ u.cache.stamp key.root := by
      rcases asked with rfl | task
      · exact Stamp.le_refl _
      · exact ((soundLater_of_reaches hu).sound initial.sound).timely _ task
    have stale : v.cache.stamp key.root ≠ stamp := by
      rintro rfl
      have upTo := Stamp.le_trans before ((soundLater_of_reaches hw).later.stamp key.root)
      have after := (soundLater_of_reaches hv).later.stamp key.root
      obtain ⟨grows, differs⟩ := Cache.stamp_invalidate_of_forgets (c := w.cache) forgets
      exact differs (Stamp.le_antisymm grows (Stamp.le_trans after upTo))
    constructor
    · exact Cache.store_of_stale b stale
    · rw [Cache.finish, Cache.store_of_stale b (by exact stale)]
      rfl

/-- A session in which the commit `c` is found in the branch `topic`, and its root is forgotten
while that is computed for the first time. -/
def interruptedSession : Session where
  shell := { git := Git.ofRules [] }
  policy := .protection {}
  lookup := .fixed []
  own := { prepared := some (Table.empty.put ⟨"/work", "c"⟩
    [{ result := .ok (.ofList ["topic"]), during := [.invalidate (some "/work")] },
      { result := .ok (.ofList ["topic"]) }]) }

theorem remembered_fresh_interrupted :
    let key : Key := ⟨"/work", "c"⟩
    let once := (step 1 (.getNow key) interruptedSession).2
    let twice := (step 1 (.getNow key) once).2
    once.cache.get? key = none ∧ twice.cache.get? key = some (.ofList ["topic"]) ∧
      Fresh twice.shell.journal key (.ofList ["topic"]) ∧
      (invalidate none twice).2.cache.store key (once.cache.stamp key.root) (.ofList ["topic"]) =
        (invalidate none twice).2.cache := by
  intro key once twice
  have hit : twice.cache.get? key = some (.ofList ["topic"]) := rfl
  have later : Reaches once twice := .step 1 (.getNow key) .refl
  have reaches : Reaches interruptedSession once := .step 1 (.getNow key) .refl
  obtain ⟨fresh, -, -, -, stale⟩ := remembered_fresh ⟨rfl, rfl⟩ (reaches.trans later)
  refine ⟨rfl, hit, fresh key _ hit, ?_⟩
  exact (stale none once _ key _ _ reaches later (.inl rfl) (.inl rfl) .refl).1

end Session

end HistoryGuard
