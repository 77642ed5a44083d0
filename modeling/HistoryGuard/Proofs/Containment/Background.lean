import Mathlib.Logic.Relation
import HistoryGuard.Proofs.Containment.Count
import HistoryGuard.Proofs.Containment.Freshness
import HistoryGuard.Proofs.Containment.Pending
import HistoryGuard.Proofs.Gate.Failing

/-! # Work in the background

A task takes its time. Between the beginning and the end of its computation git is asked, other
tasks begin and end, and roots are forgotten. The result is remembered only if its root has not
been forgotten since the task was asked for, and a key that was asked for is remembered as soon as
nothing is outstanding, unless a computation fails.
-/

namespace HistoryGuard

namespace Cache

variable {c : Cache} {key : Key} {task : Task}

theorem Owed.finish (h : c.Owed key) (task : Task) (b : Branches) : (c.finish task b).Owed key := by
  have stamp : (c.finish task b).stamp key.root = c.stamp key.root := stamp_store ..
  have out : (c.finish task b).outstanding = c.queue ++ c.running.erase task := outstanding_store ..
  rw [Owed, stamp, out]
  simp only [Cache.finish, get?_store]
  by_cases own : task = ⟨key, c.stamp key.root⟩
  · subst own
    left
    rw [if_pos ⟨rfl, rfl⟩]
    simp
  rcases h with known | waits
  · left
    split
    · simp
    · exact known
  · right
    rcases List.mem_append.mp waits with queued | running
    · exact List.mem_append_left _ queued
    · exact List.mem_append_right _ ((List.mem_erase_of_ne (Ne.symm own)).mpr running)

/-- Any task that is being carried out can be taken off with its mark, whenever it began. -/
theorem Booked.settle_of_mem (h : c.Booked) (running : task ∈ c.running) :
    (c.settle task).Booked := by
  let front : Cache := { c with running := task :: c.running.erase task }
  have perm : front.outstanding.Perm c.outstanding :=
    (List.perm_cons_erase running).symm.append_left c.queue
  have booked : front.Booked := h.of_perm perm rfl rfl fun ho => ho
  have same : front.settle task = c.settle task := by simp [front, Cache.settle]
  exact same ▸ booked.settle rfl

end Cache

namespace Containment

open Run Workspace

variable {ι : Type} {w v : Workspace ι} {n : Nat} {task : Task} {rest : List Task}

structure Onward (w v : Workspace ι) : Prop where
  sound : SoundLater w v
  counted : CountedLater w v
  booked : BookedLater w v

instance : Std.Refl (Onward (ι := ι)) := ⟨fun w => ⟨refl_of _ w, refl_of _ w, refl_of _ w⟩⟩

instance : IsTrans (Workspace ι) Onward where
  trans _ _ _ h h' :=
    ⟨trans_of SoundLater h.sound h'.sound, trans_of CountedLater h.counted h'.counted,
      trans_of BookedLater h.booked h'.booked⟩

theorem onward_of_beside (h : Beside Edit.Outward w v) : Onward w v := by
  constructor
  · exact soundLater_of_plain (h.mono fun _ => Event.plain_of_not_isContainment)
  · refine fun counted => counted.beside (h.mono fun e outward target => ?_)
    cases e with
    | invalidated forgotten => cases outward
    | _ => rfl
  · exact bookedLater_of_beside h

theorem onward_of_asks (h : Beside (Event.isQuery ·) w v) : Onward w v := by
  apply onward_of_beside
  refine h.mono fun e query => ?_
  cases e with
  | called => rfl
  | _ => simp [Event.isQuery] at query

theorem maintains_onward {g : Compute ι} (hg : ∀ key, Keeps Onward (g key)) :
    Maintains Onward g := by
  have sound := maintains_soundLater fun key => (hg key).mono fun _ _ h => h.sound
  have counted := maintains_counted fun key => (hg key).mono fun _ _ h => h.counted
  have booked := maintains_bookedLater fun key => (hg key).mono fun _ _ h => h.booked
  constructor
  case beside => exact fun w v h => ⟨sound.beside w v h, counted.beside w v h, booked.beside w v h⟩
  case getNow => exact fun key w => ⟨sound.getNow key w, counted.getNow key w, booked.getNow key w⟩
  case request =>
    exact fun key w => ⟨sound.request key w, counted.request key w, booked.request key w⟩
  case runNext => exact fun w => ⟨sound.runNext w, counted.runNext w, booked.runNext w⟩
  case invalidate =>
    exact fun root w =>
      ⟨sound.invalidate root w, counted.invalidate root w, booked.invalidate root w⟩
  case shutdown => exact fun w => ⟨sound.shutdown w, counted.shutdown w, booked.shutdown w⟩

/-- The computation with this number began in an earlier workspace, when its task was already asked
for. -/
def Underway (n : Nat) (task : Task) (w : Workspace ι) : Prop :=
  ∃ before : Workspace ι, before.serial = n ∧ Numbered before.shell.journal n ∧
    task.stamp ≤ before.cache.stamp task.key.root ∧ Later (begun task.key before) w

theorem Underway.later (h : Underway n task w) (later : Later w v) : Underway n task v := by
  obtain ⟨before, serial, numbered, asked, since⟩ := h
  exact ⟨before, serial, numbered, asked, since.trans later⟩

theorem underway_begun (sound : Sound w) (queued : w.cache.queue = task :: rest) :
    Underway w.serial task (begun task.key (started task rest w)) := by
  refine ⟨started task rest w, rfl, sound.numbered, ?_, (refl_of SoundLater _).later⟩
  exact sound.timely task (by simp [Cache.outstanding, queued])

def concluded (n : Nat) (task : Task) (outcome : Except Failure Branches) (w : Workspace ι) :
    Workspace ι :=
  let u := ended n task.key (outcome, w)
  match outcome with
  | .ok b => { u with cache := u.cache.finish task b }
  | .error _ => { u with cache := u.cache.settle task }

theorem runNext_snd (f : Compute ι) (queued : w.cache.queue = task :: rest) :
    let r := f task.key (begun task.key (started task rest w))
    (runNext f w).2 = concluded w.serial task r.1 r.2 := by
  rw [runNext_of_task f queued]
  rcases f task.key (begun task.key (started task rest w)) with ⟨e | b, v⟩ <;> rfl

theorem keeps_runNext {R : Workspace ι → Workspace ι → Prop} [Std.Refl R]
    [IsTrans (Workspace ι) R] {f : Compute ι}
    (starts : ∀ task rest w, w.cache.queue = task :: rest → R w (started task rest w))
    (traced : ∀ key, Keeps R (traced f key))
    (finishes : ∀ task b (w : Workspace ι), R w { w with cache := w.cache.finish task b })
    (settles : ∀ task (w : Workspace ι), R w { w with cache := w.cache.settle task }) :
    Keeps R (runNext f) := by
  intro w
  cases queued : w.cache.queue with
  | nil =>
    rw [runNext_of_idle f queued]
    exact refl_of R w
  | cons task rest =>
    have computed := trans_of R (starts task rest w queued) (traced task.key (started task rest w))
    rw [traced_eq] at computed
    rw [runNext_snd f queued]
    rcases came : f task.key (begun task.key (started task rest w)) with ⟨e | b, v⟩
    all_goals rw [came] at computed
    · exact trans_of R computed (settles task _)
    · exact trans_of R computed (finishes task b _)

section Concluded

variable (outcome : Except Failure Branches)

theorem soundLater_concluded (under : Underway n task w) :
    SoundLater w (concluded n task outcome w) := by
  have noted : SoundLater w (ended n task.key (outcome, w)) := soundLater_ended ..
  have settled := trans_of SoundLater noted (soundLater_of_cache (c := w.cache.settle task)
    (fun _ => rfl) rfl fun timely => timely.settle task)
  cases outcome with
  | error e => exact settled
  | ok b =>
    refine soundLater_store settled fun _ same => ?_
    obtain ⟨before, rfl, numbered, asked, since⟩ := under
    -- the root has kept the stamp of the task from before the beginning up to now
    have now : w.cache.stamp task.key.root = before.cache.stamp task.key.root := by
      have same : w.cache.stamp task.key.root = task.stamp := same
      exact Stamp.le_antisymm (same ▸ asked) (since.stamp task.key.root)
    exact fresh_of_computed b numbered since now

theorem counted_concluded (h : Counted w) : Counted (concluded n task outcome w) := by
  cases outcome with
  | ok b =>
    refine h.cons (fun _ => ?_) (ended_journal n task.key (.ok b, w)) fun _ => rfl
    exact Cache.stamp_store ..
  | error e => exact h.cons (fun _ => rfl) (ended_journal n task.key (.error e, w)) fun _ => rfl

theorem booked_concluded (h : w.cache.Booked) (running : task ∈ w.cache.running) :
    (concluded n task outcome w).cache.Booked := by
  have settled := h.settle_of_mem running
  cases outcome with
  | ok b => exact booked_store settled ..
  | error e => exact settled

@[simp] theorem running_concluded :
    (concluded n task outcome w).cache.running = w.cache.running.erase task := by
  cases outcome with
  | ok b => exact Cache.running_store ..
  | error e => rfl

end Concluded

/-- A move of the work in the background. The computations under way are listed with their numbers,
and may come to the outcomes that satisfy `P`. -/
inductive Works (P : Except Failure Branches → Prop) :
    List (Nat × Task) × Workspace ι → List (Nat × Task) × Workspace ι → Prop
  | begins {working : List (Nat × Task)} {w : Workspace ι} {task : Task} {rest : List Task}
      (queued : w.cache.queue = task :: rest) :
      Works P (working, w) ((w.serial, task) :: working, begun task.key (started task rest w))
  | asks {working : List (Nat × Task)} {w : Workspace ι} {α : Type} {x : Run Shell α}
      (asks : Git.Asks x) : Works P (working, w) (working, (onShell x w).2)
  | ends {working : List (Nat × Task)} {w : Workspace ι} {n : Nat} {task : Task}
      {outcome : Except Failure Branches} (under : (n, task) ∈ working) (comes : P outcome) :
      Works P (working, w) (working.erase (n, task), concluded n task outcome w)

def Succeeds (outcome : Except Failure Branches) : Prop := ∃ b, outcome = .ok b

/-- What is remembered is fresh, stamps and marks are exact, and the tasks that are being carried
out are those under way. -/
structure Orderly (working : List (Nat × Task)) (w : Workspace ι) : Prop where
  sound : Sound w
  counted : Counted w
  booked : w.cache.Booked
  running : (working.map Prod.snd).Perm w.cache.running
  underway : ∀ p ∈ working, Underway p.1 p.2 w

theorem Orderly.onward {working : List (Nat × Task)} (h : Orderly working w) (onward : Onward w v) :
    Orderly working v where
  sound := onward.sound.sound h.sound
  counted := onward.counted h.counted
  booked := onward.booked.booked h.booked
  running := onward.booked.running ▸ h.running
  underway p hp := (h.underway p hp).later onward.sound.later

variable {P : Except Failure Branches → Prop} {p q : List (Nat × Task) × Workspace ι}

theorem Works.orderly (h : Works P p q) (orderly : Orderly p.1 p.2) : Orderly q.1 q.2 := by
  cases h with
  | @begins working w task rest queued =>
    have start : SoundLater w (begun task.key (started task rest w)) :=
      trans_of SoundLater (soundLater_started queued) (soundLater_begun ..)
    constructor
    · exact start.sound orderly.sound
    · exact counted_begun task.key orderly.counted
    · exact booked_started queued orderly.booked
    · exact orderly.running.cons task
    · rintro p hp
      rcases List.mem_cons.mp hp with rfl | hp
      · exact underway_begun orderly.sound queued
      · exact (orderly.underway p hp).later start.later
  | asks asks => exact orderly.onward (onward_of_asks (beside_onShell asks _))
  | @ends working w n task outcome under comes =>
    have later := soundLater_concluded outcome (orderly.underway _ under)
    have running : task ∈ w.cache.running :=
      orderly.running.subset (List.mem_map_of_mem (f := Prod.snd) under)
    constructor
    · exact later.sound orderly.sound
    · exact counted_concluded outcome orderly.counted
    · exact booked_concluded outcome orderly.booked running
    · rw [running_concluded]
      apply List.Perm.cons_inv (a := task)
      calc task :: (working.erase (n, task)).map Prod.snd
        _ = ((n, task) :: working.erase (n, task)).map Prod.snd := rfl
        _ |>.Perm (working.map Prod.snd) := ((List.perm_cons_erase under).map _).symm
        _ |>.Perm w.cache.running := orderly.running
        _ |>.Perm (task :: w.cache.running.erase task) := List.perm_cons_erase running
    · exact fun p hp => (orderly.underway p (List.mem_of_mem_erase hp)).later later.later

theorem Works.mono {P' : Except Failure Branches → Prop} (h : Works P p q)
    (weaker : ∀ outcome, P outcome → P' outcome) : Works P' p q := by
  cases h with
  | begins queued => exact .begins queued
  | asks asks => exact .asks asks
  | ends under comes => exact .ends under (weaker _ comes)

theorem Works.within {Q : Event → Prop} (calls : ∀ c started, Q (.called c started))
    (computing : ∀ n key, Q (.computing n key))
    (computed : ∀ n key outcome, Q (.computed n key outcome)) (h : Works P p q) :
    Within Q p.2 q.2 := by
  cases h with
  | begins queued => exact within_of_log rfl (computing ..)
  | asks asks => exact (upholds_within calls).query asks _
  | @ends working w n task outcome under comes =>
    cases outcome with
    | ok b => exact within_of_log rfl (computed ..)
    | error e => exact within_of_log rfl (computed ..)

theorem Works.closed (h : Works P p q) : q.2.cache.closed = p.2.cache.closed := by
  cases h with
  | begins queued => rfl
  | asks asks => rfl
  | @ends working w n task outcome under comes =>
    cases outcome with
    | ok b => exact Cache.closed_store ..
    | error e => rfl

/-- What is owed stays so as long as the computations come to a result. -/
theorem Works.owed {key : Key} (h : Works Succeeds p q) (owed : p.2.cache.Owed key) :
    q.2.cache.Owed key := by
  cases h with
  | begins queued => exact owed.imp_right (outstanding_started queued).mem_iff.mpr
  | asks asks => exact owed
  | @ends working w n task outcome under comes =>
    obtain ⟨b, rfl⟩ := comes
    exact owed.finish task b

theorem owed_of_works {key : Key} (h : Relation.ReflTransGen (Works Succeeds) p q)
    (owed : p.2.cache.Owed key) : q.2.cache.Owed key := by
  induction h with
  | refl => exact owed
  | tail _ move ih => exact move.owed ih

/-- To carry out the task that has waited longest is to begin it, to ask git, and to end it. -/
theorem works_of_runNext {working : List (Nat × Task)} {r : Option Branches}
    (ran : runNext compute w = (.ok r, v)) :
    Relation.ReflTransGen (Works Succeeds) (working, w) (working, v) := by
  cases queued : w.cache.queue with
  | nil =>
    rw [runNext_of_idle compute queued] at ran
    cases ran
    exact .refl
  | cons task rest =>
    let y := begun task.key (started task rest w)
    have after : v = concluded w.serial task (compute task.key y).1 (compute task.key y).2 := by
      have whole := runNext_snd compute queued
      rwa [ran] at whole
    have succeeds : Succeeds (compute task.key y).1 := by
      rw [runNext_of_task compute queued] at ran
      rcases came : compute task.key y with ⟨e | b, u⟩
      · simp [y, came] at ran
      · exact ⟨b, rfl⟩
    have begins : Works Succeeds (working, w) ((w.serial, task) :: working, y) := .begins queued
    have asks : Works Succeeds ((w.serial, task) :: working, y)
        ((w.serial, task) :: working, (compute task.key y).2) :=
      .asks (Git.asks_containing task.key.root task.key.sha)
    have under : (w.serial, task) ∈ (w.serial, task) :: working := List.mem_cons_self
    have ends := Works.ends (w := (compute task.key y).2) under succeeds
    rw [List.erase_cons_head, ← after] at ends
    exact .head begins (.head asks (.single ends))

end Containment

end HistoryGuard
