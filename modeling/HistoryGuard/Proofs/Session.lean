import HistoryGuard.Proofs.Step
import HistoryGuard.Session.Basic

/-! # Nested steps

A computation of containing branches carries out the steps that its prepared result comes with.
What every step keeps with every computation is kept by a step with all the steps nested in it.
`Within` says which steps, in which states, are carried out in the course of a step, and
`Reaches` which states a session comes through, those inside computations included.
-/

namespace HistoryGuard.Session

open Run Workspace Containment

def nestedStep : Nat → Step → Run Session Answer
  | 0 => fun _ => .fail .nestedTooDeep
  | n + 1 => step n

theorem step_eq (n : Nat) (s : Step) : step n s = s.run (compute (nestedStep n)) := by
  cases n <;> rfl

def prepare (table : Table Key (List Prepared)) (w : Session) : Session :=
  { w with own := { w.own with prepared := some table } }

def afterNested (f : Step → Run Session Answer) (s : Step) (w : Session) : Session :=
  let p := f s w
  { p.2 with own := { p.2.own with nested := p.1 :: p.2.own.nested } }

variable (f : Step → Run Session Answer) {key : Key} {w : Session}

@[simp] theorem runNested_nil (w : Session) : runNested f [] w = (.ok (), w) := rfl

@[simp] theorem runNested_cons (s : Step) (rest : List Step) (w : Session) :
    runNested f (s :: rest) w = runNested f rest (afterNested f s w) := rfl

theorem runNested_fst (l : List Step) (w : Session) : (runNested f l w).1 = .ok () := by
  induction l generalizing w with
  | nil => rfl
  | cons s rest ih => exact ih _

theorem compute_of_git (h : w.own.prepared = none) : compute f key w = Workspace.compute key w := by
  have hr : Run.read (·.own.prepared) w = (.ok none, w) := by rw [Run.read, h]
  rw [compute, bind_of_ok hr]

theorem compute_of_unprepared {table : Table Key (List Prepared)} (h : w.own.prepared = some table)
    (ht : takePrepared key table = none) : compute f key w = (.error .noAnswer, w) := by
  have hr : Run.read (·.own.prepared) w = (.ok (some table), w) := by rw [Run.read, h]
  rw [compute, bind_of_ok hr]
  simp only [ht]
  rfl

theorem compute_of_prepared {table rest : Table Key (List Prepared)} {p : Prepared}
    (h : w.own.prepared = some table) (ht : takePrepared key table = some (p, rest)) :
    compute f key w = (p.result, (runNested f p.during (prepare rest w)).2) := by
  have hr : Run.read (·.own.prepared) w = (.ok (some table), w) := by rw [Run.read, h]
  have hn : runNested f p.during (prepare rest w) =
      (.ok (), (runNested f p.during (prepare rest w)).2) := Prod.ext (runNested_fst f _ _) rfl
  rw [compute, bind_of_ok hr]
  simp only [ht]
  show (runNested f p.during >>= fun _ => ofExcept p.result) (prepare rest w) = _
  rw [bind_of_ok hn]
  rfl

/-- Carrying out the step `s` in `w` at the limit `n` includes carrying out `t` in `u` at the
limit `m`. -/
inductive Within : Nat → Step → Session → Nat → Step → Session → Prop
  | self (n : Nat) (s : Step) (w : Session) : Within n s w n s w
  | nested {n m : Nat} {s r t : Step} {w v u : Session} {key : Key} {p : Prepared}
      {table rest : Table Key (List Prepared)} {before after : List Step}
      (computes : s.computation? w = some (key, v))
      (prepared : v.own.prepared = some table)
      (taken : takePrepared key table = some (p, rest))
      (during : p.during = before ++ r :: after)
      (within : Within n r (runNested (step n) before (prepare rest v)).2 m t u) :
      Within (n + 1) s w m t u

section Keeps

variable {R : Session → Session → Prop} [Std.Refl R] [IsTrans Session R]

/-- The bookkeeping of the script is of no account to the preorder `R`. -/
structure IgnoresScript (R : Session → Session → Prop) : Prop where
  prepare : ∀ table w, R w (prepare table w)
  nested : ∀ (w : Session) outcome, R w { w with own.nested := outcome :: w.own.nested }

theorem runNested_rel (hs : IgnoresScript R) {l : List Step}
    (h : ∀ before r after, l = before ++ r :: after →
      R (runNested f before w).2 (f r (runNested f before w).2).2) :
    R w (runNested f l w).2 := by
  induction l generalizing w with
  | nil => exact refl_of R w
  | cons s rest ih =>
    have first := h [] s rest rfl
    refine trans_of R (trans_of R first (hs.nested _ (f s w).1)) (ih fun before r after hl => ?_)
    exact h (s :: before) r after (congrArg (s :: ·) hl)

theorem compute_rel (hs : IgnoresScript R) (hb : ∀ w v, Beside (Event.isAside ·) w v → R w v)
    (h : ∀ table p rest before r after, w.own.prepared = some table →
      takePrepared key table = some (p, rest) → p.during = before ++ r :: after →
      R (runNested f before (prepare rest w)).2 (f r (runNested f before (prepare rest w)).2).2) :
    R w (compute f key w).2 := by
  cases hw : w.own.prepared with
  | none =>
    rw [compute_of_git f hw]
    exact hb _ _ ((asks_compute key w).mono fun _ => Event.isAside_of_isQuery)
  | some table =>
    cases ht : takePrepared key table with
    | none =>
      rw [compute_of_unprepared f hw ht]
      exact refl_of R w
    | some taken =>
      rw [compute_of_prepared f hw ht]
      refine trans_of R (hs.prepare _ w) (runNested_rel f hs fun before r after hd => ?_)
      exact h table taken.1 taken.2 before r after hw ht hd

theorem step_rel_of_compute (hm : ∀ g : Compute Script, (∀ key, Keeps R (g key)) → Maintains R g)
    {n : Nat} {s : Step}
    (hc : ∀ k v, s.computation? w = some (k, v) → R v (compute (nestedStep n) k v).2)
    (he : ∀ edit commit v, s = .perform edit [commit] →
      Gate.attemptEdit (compute (nestedStep n)) [commit] edit.action.failureTitle w =
        (.ok true, v) →
      R v (onShell (edit.carryOut commit) v).2) :
    R w (step n s w).2 := by
  obtain ⟨g, hg, hcg⟩ := Step.exists_keeping hc
  have maintains := hm g hg
  rw [step_eq, Step.run_congr hcg]
  apply maintains.step_at
  intro edit sel hp
  apply maintains.perform_at
  intro commit v hsel ha
  subst hp hsel
  rw [← Gate.attemptEdit_congr hcg] at ha
  exact he edit commit v rfl ha

/-- The induction over nested steps: what the operations of the cache keep with every computation
that keeps it, a step keeps with all the steps nested in it, if the edits do that are carried out
in the course of the step. -/
theorem step_rel (hs : IgnoresScript R)
    (hm : ∀ g : Compute Script, (∀ key, Keeps R (g key)) → Maintains R g) {n : Nat} {s : Step}
    (he : ∀ m edit commit u v, Within n s w m (.perform edit [commit]) u →
      Gate.attemptEdit (compute (nestedStep m)) [commit] edit.action.failureTitle u =
        (.ok true, v) →
      R v (onShell (edit.carryOut commit) v).2) :
    R w (step n s w).2 := by
  have hb := (hm (fun _ => .fail .noAnswer) fun _ => keeps_fail _).beside
  induction n generalizing s w with
  | zero =>
    refine step_rel_of_compute hm (fun k v _ => ?_) ?_
    · exact compute_rel _ hs hb fun _ _ _ _ _ _ _ _ _ => refl_of R _
    · rintro edit commit v rfl ha
      exact he 0 edit commit w v (.self _ _ _) ha
  | succ n ih =>
    refine step_rel_of_compute hm (fun k v hc => ?_) ?_
    · apply compute_rel _ hs hb
      intro table p rest before r after hw ht hd
      apply ih
      exact fun m edit commit u v hin => he m edit commit u v (.nested hc hw ht hd hin)
    · rintro edit commit v rfl ha
      exact he (n + 1) edit commit w v (.self _ _ _) ha

/-- What every step keeps as soon as its computation keeps it, a step keeps with all the steps
nested in it. -/
theorem keeps_step (hs : IgnoresScript R)
    (hm : ∀ g : Compute Script, (∀ key, Keeps R (g key)) → Maintains R g)
    (he : ∀ (edit : Edit) commit, Keeps R (onShell (ι := Script) (edit.carryOut commit)))
    (n : Nat) (s : Step) : Keeps R (step n s) :=
  fun _ => step_rel hs hm fun _ edit commit _ v _ _ => he edit commit v

theorem keeps_compute (hs : IgnoresScript R)
    (hm : ∀ g : Compute Script, (∀ key, Keeps R (g key)) → Maintains R g)
    (he : ∀ (edit : Edit) commit, Keeps R (onShell (ι := Script) (edit.carryOut commit)))
    (n : Nat) (key : Key) : Keeps R (compute (nestedStep n) key) := by
  intro w
  have hb := (hm (fun _ => .fail .noAnswer) fun _ => keeps_fail _).beside
  refine compute_rel _ hs hb fun _ _ _ _ r _ _ _ _ => ?_
  cases n with
  | zero => exact refl_of R _
  | succ n => exact keeps_step hs hm he n r _

/-- Carrying out the steps in `w` at the limit includes the perform of an edit in `u` at the limit
`m`. -/
def Performs (limit : Nat) (steps : List Step) (w : Session) (m : Nat) (edit : Edit)
    (selection : Selection) (u : Session) : Prop :=
  ∃ before s after, steps = before ++ s :: after ∧
    Within limit s (run limit before w).2 m (.perform edit selection) u

theorem run_rel (hs : IgnoresScript R)
    (hm : ∀ g : Compute Script, (∀ key, Keeps R (g key)) → Maintains R g) {limit : Nat}
    {steps : List Step}
    (he : ∀ m edit commit u v, Performs limit steps w m edit [commit] u →
      Gate.attemptEdit (compute (nestedStep m)) [commit] edit.action.failureTitle u =
        (.ok true, v) →
      R v (onShell (edit.carryOut commit) v).2) :
    R w (run limit steps w).2 := by
  induction steps generalizing w with
  | nil => exact refl_of R w
  | cons s rest ih =>
    refine trans_of R (step_rel hs hm fun m edit commit u v hin => ?_) (ih ?_)
    · exact he m edit commit u v ⟨[], s, rest, rfl, hin⟩
    · rintro m edit commit u v ⟨before, t, after, rfl, hin⟩
      exact he m edit commit u v ⟨s :: before, t, after, rfl, hin⟩

end Keeps

/-- A session that starts in `w` comes through this state, after a step or inside the
computation of one, with any prepared results to come. -/
inductive Reaches (w : Session) : Session → Prop
  | refl : Reaches w w
  | step {v : Session} (n : Nat) (s : Step) : Reaches w v → Reaches w (step n s v).2
  | inside {v u : Session} {s : Step} {key : Key} :
      Reaches w v → s.computation? v = some (key, u) → Reaches w u
  | script {v : Session} (own : Script) : Reaches w v → Reaches w { v with own }

theorem Reaches.trans {w v u : Session} (h : Reaches w v) (h' : Reaches v u) : Reaches w u := by
  induction h' with
  | refl => exact h
  | step n s _ ih => exact ih.step n s
  | inside _ hc ih => exact ih.inside hc
  | script own _ ih => exact ih.script own

/-- A session in which nothing has been computed or asked for yet. -/
structure Initial (w : Session) : Prop where
  cache : w.cache = {}
  journal : w.shell.journal = []

/-- The induction over the states that a session comes through. -/
theorem Reaches.rel {R : Session → Session → Prop} [Std.Refl R] [IsTrans Session R]
    (beside : ∀ w v, Beside (Event.isAside ·) w v → R w v)
    (steps : ∀ n s, Keeps R (Session.step n s)) (begins : ∀ key w, R w (begun key w))
    (starts : ∀ task rest w, w.cache.queue = task :: rest → R w (started task rest w))
    (script : ∀ (w : Session) own, R w { w with own }) {v : Session} (h : Reaches w v) : R w v := by
  induction h with
  | refl => exact refl_of R w
  | step n s _ ih => exact trans_of R ih (steps n s _)
  | inside _ hc ih => exact trans_of R ih (Step.rel_of_computation? beside begins starts hc)
  | script own _ ih => exact trans_of R ih (script _ own)

theorem reaches_run (limit : Nat) (steps : List Step) (w : Session) :
    Reaches w (run limit steps w).2 := by
  induction steps generalizing w with
  | nil => exact .refl
  | cons s rest ih => exact (Reaches.step limit s .refl).trans (ih _)

end HistoryGuard.Session
