import HistoryGuard.Proofs.Edit.Forgetting
import HistoryGuard.Proofs.Git.Abort

/-! # Carrying out a plan

History is rewritten by one call of git, the rebase that carries out the plan of a draft. When it
is called, git has listed the commits that are replayed and has named the parents of the commit.
-/

namespace HistoryGuard

open Run Shell

theorem suffix_of_suffix_append {α : Type} {a : α} {k l m : List α} (h : a :: k <:+ l ++ m)
    (ha : a ∉ l) : a :: k <:+ m := by
  induction l with
  | nil => exact h
  | cons b l ih =>
    rw [List.mem_cons, not_or] at ha
    rcases List.suffix_cons_iff.mp h with same | below
    · exact absurd (List.cons.inj same).1 ha.1
    · exact ih below ha.2

namespace Git

inductive Lists (dir sha listing : String) (s t : Shell) : Prop
  | intro {full merges : String} {parents : List String} {u v : Shell}
      (named : Git.parents dir sha s = (.ok (full, parents), u))
      (searched : output dir ["rev-list", "--min-parents=2", range parents] u = (.ok merges, v))
      (noMerge : Text.fields merges = [])
      (listed : output dir ["rev-list", "--reverse", "--topo-order", range parents] v =
        (.ok listing, t)) : Lists dir sha listing s t

theorem commitsFrom_eq_ok {dir sha : String} {s t : Shell} {shas : List String} :
    commitsFrom dir sha s = (.ok shas, t) ↔
      ∃ listing, Lists dir sha listing s t ∧ readShas listing = shas := by
  simp only [commitsFrom, bind_eq_ok]
  constructor
  · rintro ⟨⟨full, parents⟩, u, named, merges, v, searched, h⟩
    split at h
    · next noMerge =>
      obtain ⟨listing, _, listed, read⟩ := bind_eq_ok.mp h
      obtain ⟨rfl, rfl⟩ := pure_eq_ok.mp read
      exact ⟨listing, ⟨named, searched, noMerge, listed⟩, rfl⟩
    · simp [fail] at h
  · rintro ⟨listing, ⟨named, searched, noMerge, listed⟩, rfl⟩
    refine ⟨_, _, named, _, _, searched, ?_⟩
    rw [if_pos noMerge, bind_of_ok listed]
    rfl

theorem grows_runPlan (c : Call) (s : Shell) :
    Grows Edit.Harmless (after c s) (runPlan c s).2 := by
  rw [runPlan, bind_apply, complete_apply]
  rcases finished (s.git s.past c) with e | f
  · exact refl_of _ _
  · dsimp only
    split
    · exact refl_of _ _
    · have abort : Keeps (Grows Edit.Harmless) (call (abortCall c.dir)) := keeps_call fun _ => rfl
      refine (abort.bind fun reply => ?_) _
      cases reply <;> exact keeps_fail _

theorem suffix_runPlan (c : Call) (s : Shell) : s.journal <:+ (runPlan c s).2.journal :=
  (List.suffix_cons _ _).trans (grows_runPlan c s).suffix

theorem rewrite_of_runPlan {c c' : Call} {started : Bool} {s : Shell} {earlier : List Event}
    (noted : .called c started :: earlier <:+ (runPlan c' s).2.journal)
    (since : s.journal <:+ earlier) (rewrites : c.rewrites = true) :
    c = c' ∧ earlier = s.journal := by
  have grows := grows_runPlan c' s
  rcases suffix_of_cons_suffix noted grows.suffix with inside | above
  · rcases List.suffix_cons_iff.mp inside with same | below
    · obtain ⟨called, rfl⟩ := List.cons.inj same
      obtain ⟨rfl, -⟩ := Event.called.inj called
      exact ⟨rfl, rfl⟩
    · exact absurd (below.trans since).length_le (by simp)
  · have harmless := grows.of_suffix noted above
    simp [Edit.Harmless, Event.isRewrite, rewrites] at harmless

theorem runPlan_eq_ok {c : Call} {s t : Shell} :
    runPlan c s = (.ok (), t) ↔ ∃ out err text warnings,
      s.git s.past c = .ended 0 out err ∧ decode out = some text ∧ decode err = some warnings ∧
        t = after c s := by
  constructor
  · intro h
    obtain ⟨⟨status, text, warnings⟩, u, completed, h⟩ := bind_eq_ok.mp h
    obtain ⟨read, rfl⟩ := Prod.mk.inj ((complete_apply ..).symm.trans completed)
    dsimp only at h
    split at h
    · next zero =>
      obtain ⟨-, rfl⟩ := pure_eq_ok.mp h
      cases hr : s.git s.past c with
      | refused => simp [hr, finished] at read
      | notStarted cause => simp [hr, finished] at read
      | ended status' out err =>
        rw [hr, finished] at read
        split at read
        · next text' warnings' readOut readErr =>
          obtain ⟨rfl, rfl, rfl⟩ := Finished.mk.inj (Except.ok.inj read)
          exact ⟨out, err, _, _, by rw [zero], readOut, readErr, rfl⟩
        · cases read
    · obtain ⟨reply, u, -, h⟩ := bind_eq_ok.mp h
      cases reply <;> simp [fail] at h
  · rintro ⟨out, err, text, warnings, reply, readOut, readErr, rfl⟩
    exact runPlan_of_zero (by rw [complete_apply, reply, finished_of_read readOut readErr])

end Git

namespace Edit

/-- From `s` on the edit has come to a plan, and in `u` git has named the parents of the commit as
well, so that the rebase is called next. -/
inductive Ready (edit : Edit) (commit : Commit) (s : Shell) (plan : Plan) (parents : List String)
    (u : Shell) : Prop
  | intro {t : Shell} {full : String} (drafted : edit.draft commit s = (.ok (some plan), t))
      (named : Git.parents commit.root commit.sha t = (.ok (full, parents), u)) :
      Ready edit commit s plan parents u

variable {edit : Edit} {commit : Commit} {s u : Shell} {plan : Plan} {parents : List String}

theorem Ready.grows (h : Ready edit commit s plan parents u) : Grows Harmless s u := by
  obtain ⟨drafted, named⟩ := h
  exact trans_of (Grows Harmless) ((harmless_draft edit commit).of_eq drafted)
    (((Git.asks_parents _ _).of_eq named).mono fun _ => harmless_of_isQuery)

theorem Ready.carryOut (h : Ready edit commit s plan parents u) :
    edit.carryOut commit s =
      (Git.runPlan (Git.rebaseCall commit.root parents plan) >>= fun _ => pure true) u := by
  obtain ⟨drafted, named⟩ := h
  rw [carryOut_eq, bind_of_ok drafted, carryOutDraft, Git.rebase, bind_assoc, bind_of_ok named]

theorem rewrite_of_carryOut {c : Call} {started : Bool} {earlier : List Event}
    (noted : .called c started :: earlier <:+ (edit.carryOut commit s).2.journal)
    (since : s.journal <:+ earlier) (rewrites : c.rewrites = true) :
    ∃ plan parents u, Ready edit commit s plan parents u ∧
      c = Git.rebaseCall commit.root parents plan ∧ earlier = u.journal := by
  -- no state that comes of harmless events alone has the call
  have above {t : Shell} (ht : Grows Harmless s t) : ¬ .called c started :: earlier <:+ t.journal :=
    fun h => by simpa [Harmless, Event.isRewrite, rewrites] using ht.of_suffix h since
  have drafting := harmless_draft edit commit s
  rcases drafted : edit.draft commit s with ⟨e | _ | plan, t⟩
  all_goals rw [drafted] at drafting
  · rw [carryOut_eq, bind_of_error drafted] at noted
    exact absurd noted (above drafting)
  · rw [carryOut_eq, bind_of_ok drafted] at noted
    exact absurd noted (above drafting)
  have naming := (Git.asks_parents commit.root commit.sha t)
  rcases named : Git.parents commit.root commit.sha t with ⟨e | ⟨full, parents⟩, u⟩
  all_goals
    rw [named] at naming
    have grown : Grows Harmless s u :=
      trans_of (Grows Harmless) drafting (naming.mono fun _ => harmless_of_isQuery)
  · rw [carryOut_eq, bind_of_ok drafted, carryOutDraft, Git.rebase, bind_assoc,
      bind_of_error named] at noted
    exact absurd noted (above grown)
  have ready : Ready edit commit s plan parents u := ⟨drafted, named⟩
  rw [ready.carryOut, bind_pure_apply] at noted
  rcases suffix_of_cons_suffix noted (Git.suffix_runPlan _ u) with inside | below
  · exact absurd inside (above grown)
  obtain ⟨rfl, rfl⟩ := Git.rewrite_of_runPlan noted below rewrites
  exact ⟨plan, parents, u, ready, rfl, rfl⟩

theorem carryOut_eq_true {v : Shell} (h : edit.carryOut commit s = (.ok true, v)) :
    ∃ plan parents u, Ready edit commit s plan parents u ∧
      v.journal = .called (Git.rebaseCall commit.root parents plan) true :: u.journal := by
  rw [carryOut_eq] at h
  obtain ⟨plan?, t, drafted, h⟩ := bind_eq_ok.mp h
  cases plan? with
  | none => simp [carryOutDraft, pure_eq_ok] at h
  | some plan =>
    obtain ⟨_, _, rebased, h⟩ := bind_eq_ok.mp h
    obtain ⟨⟨full, parents⟩, u, named, ran⟩ := bind_eq_ok.mp rebased
    obtain ⟨-, rfl⟩ := pure_eq_ok.mp h
    obtain ⟨out, err, _, _, reply, -, -, rfl⟩ := Git.runPlan_eq_ok.mp ran
    refine ⟨plan, parents, u, ⟨drafted, named⟩, ?_⟩
    rw [after, reply]
    rfl

section Perform

variable {ι : Type} {compute : Compute ι} {w t : Workspace ι}

theorem perform_journal (allowed : Gate.attemptEdit compute [commit] edit.action.failureTitle w =
      (.ok true, t)) :
    (edit.perform compute [commit] w).2.shell.journal = .invalidated (some commit.root) ::
      (edit.notices (edit.carryOut commit t.shell).1 ++
        (edit.carryOut commit t.shell).2.journal) := by
  rw [perform_of_allowed allowed]
  rfl

theorem perform_of_no_plan (allowed : Gate.attemptEdit compute [commit] edit.action.failureTitle w =
      (.ok true, t)) (drafted : edit.draft commit t.shell = (.ok none, u)) :
    (edit.perform compute [commit] w).1 = .ok false ∧
      (edit.perform compute [commit] w).2.shell.journal =
        .invalidated (some commit.root) :: u.journal := by
  have ended : edit.carryOut commit t.shell = (.ok false, u) := by
    rw [carryOut_eq, bind_of_ok drafted]
    rfl
  have journal := perform_journal allowed
  rw [ended] at journal
  refine ⟨?_, journal⟩
  rw [perform_of_allowed allowed, ended]
  rfl

theorem called_of_ready (allowed : Gate.attemptEdit compute [commit] edit.action.failureTitle w =
      (.ok true, t)) (ready : Ready edit commit t.shell plan parents u) :
    let call := Git.rebaseCall commit.root parents plan
    .called call (u.git u.past call).started :: u.journal <:+
      (edit.perform compute [commit] w).2.shell.journal := by
  intro call
  rw [perform_journal allowed, ready.carryOut, bind_pure_apply, ← List.cons_append]
  exact (Git.grows_runPlan call u).suffix.trans (List.suffix_append _ _)

theorem isNotice_of_mem_notices {outcome : Except Failure Bool} {e : Event}
    (h : e ∈ edit.notices outcome) : e.isNotice = true := by
  cases outcome with
  | ok done => cases h
  | error failure =>
    rw [notices] at h
    split at h
    · obtain rfl := List.mem_singleton.mp h
      rfl
    · cases h

theorem suffix_carryOut {e : Event} {earlier : List Event}
    (allowed : Gate.attemptEdit compute [commit] edit.action.failureTitle w = (.ok true, t))
    (noted : e :: earlier <:+ (edit.perform compute [commit] w).2.shell.journal)
    (notice : e.isNotice = false) (outward : Outward e) :
    e :: earlier <:+ (edit.carryOut commit t.shell).2.journal := by
  rw [perform_journal allowed, ← List.cons_append] at noted
  apply suffix_of_suffix_append noted
  intro h
  rcases List.mem_cons.mp h with rfl | h
  · cases outward
  · simp [isNotice_of_mem_notices h] at notice

theorem rewrite_of_allowed {c : Call} {started : Bool} {earlier : List Event}
    (allowed : Gate.attemptEdit compute [commit] edit.action.failureTitle w = (.ok true, t))
    (noted : .called c started :: earlier <:+ (edit.perform compute [commit] w).2.shell.journal)
    (since : t.shell.journal <:+ earlier) (rewrites : c.rewrites = true) :
    ∃ plan parents u, Ready edit commit t.shell plan parents u ∧
      c = Git.rebaseCall commit.root parents plan ∧ earlier = u.journal := by
  exact rewrite_of_carryOut (suffix_carryOut allowed noted rfl rfl) since rewrites

/-- Once the gate has judged, history is rewritten only if it has allowed the edit, and by the
rebase of a plan that the edit has come to since. -/
theorem rewrite_of_perform {selection : Selection} {c : Call} {started : Bool}
    {earlier : List Event}
    (noted : .called c started :: earlier <:+ (edit.perform compute selection w).2.shell.journal)
    (since : (Gate.attemptEdit compute selection edit.action.failureTitle w).2.shell.journal <:+
      earlier)
    (rewrites : c.rewrites = true) :
    ∃ commit t, selection = [commit] ∧
      Gate.attemptEdit compute selection edit.action.failureTitle w = (.ok true, t) ∧
      ∃ plan parents u, Ready edit commit t.shell plan parents u ∧
        c = Git.rebaseCall commit.root parents plan ∧ earlier = u.journal := by
  by_cases h : ∃ t, Gate.attemptEdit compute selection edit.action.failureTitle w = (.ok true, t)
  · obtain ⟨t, allowed⟩ := h
    obtain ⟨approval⟩ := Gate.attemptEdit_eq_true_iff.mp allowed
    obtain ⟨commit, rfl⟩ : ∃ commit, selection = [commit] := ⟨_, approval.single⟩
    rw [allowed] at since
    exact ⟨commit, t, rfl, allowed, rewrite_of_allowed allowed noted since rewrites⟩
  · rw [(edit.perform_of_denied (not_exists.mp h)).1] at noted
    exact absurd (noted.trans since).length_le (by simp)

/-- A perform that answers yes has been allowed, and has carried out a plan. -/
theorem perform_eq_true {selection : Selection} {v : Workspace ι}
    (h : edit.perform compute selection w = (.ok true, v)) :
    ∃ commit t, selection = [commit] ∧
      Gate.attemptEdit compute selection edit.action.failureTitle w = (.ok true, t) ∧
      ∃ plan parents u, Ready edit commit t.shell plan parents u ∧
        v.shell.journal = .invalidated (some commit.root) ::
          .called (Git.rebaseCall commit.root parents plan) true :: u.journal := by
  by_cases ha : ∃ t, Gate.attemptEdit compute selection edit.action.failureTitle w = (.ok true, t)
  · obtain ⟨t, allowed⟩ := ha
    obtain ⟨approval⟩ := Gate.attemptEdit_eq_true_iff.mp allowed
    obtain ⟨commit, rfl⟩ : ∃ commit, selection = [commit] := ⟨_, approval.single⟩
    have journal := perform_journal allowed
    rw [h] at journal
    rw [perform_of_allowed allowed] at h
    have done : (edit.carryOut commit t.shell).1 = .ok true := by
      have answered := congrArg Prod.fst h
      rcases ho : (edit.carryOut commit t.shell).1 with e | done
      · rw [ho, answer] at answered
        split at answered <;> simp at answered
      · rw [ho] at answered
        exact answered
    obtain ⟨plan, parents, u, ready, called⟩ := carryOut_eq_true (eq_of_fst done)
    rw [done, called] at journal
    exact ⟨commit, t, rfl, allowed, plan, parents, u, ready, journal⟩
  · obtain ⟨same, denied⟩ := edit.perform_of_denied (not_exists.mp ha)
    rw [← same, h] at denied
    exact absurd rfl denied

end Perform

/-- Git in a work tree in which the commit `c` has the parent `p` and the message `m`, and the
commits after `p` are listed like this. -/
def listingGit (listing : String) : Git := fun _ call =>
  let out := match call.args with
    | "log" :: _ => "m\n"
    | "rev-list" :: "--parents" :: _ => "c p\n"
    | "rev-list" :: "--reverse" :: _ => listing
    | _ => ""
  .ended 0 out.toByteArray "".toByteArray

def listingWorkspace (listing : String) : Workspace Unit where
  shell := { git := listingGit listing }
  policy := .protection {}
  lookup := .fixed [(Session.topCommit.root, .recorded "topic" [])]
  cache := { entries := Table.empty.put Session.topCommit.key (.ofList ["topic"]) }
  own := ()

end Edit

end HistoryGuard
