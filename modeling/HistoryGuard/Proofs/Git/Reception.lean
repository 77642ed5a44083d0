import HistoryGuard.Proofs.Shell

/-! # How replies are taken

A reply of git answers a query, or is a failure that the program knows and reports, or is nothing
that the program has thought of. A question to git goes on as long as its queries are answered,
and the first reply of another kind ends it in a way that tells which kind it was.
-/

namespace HistoryGuard

inductive Reception
  | answered
  /-- The reply is reported as the failure of a command. -/
  | failed
  /-- The reply is not expected, and ends the program. -/
  | escaped
  deriving DecidableEq

namespace Call

def asksStatus (c : Call) : Bool :=
  ["symbolic-ref"].isPrefixOf c.args || ["merge-base"].isPrefixOf c.args

/-- The query names a commit that has to exist. -/
def asksParents (c : Call) : Bool := ["rev-list", "--parents"].isPrefixOf c.args

end Call

/-- What is printed has to be text, whatever the status. A query for a status also needs a git
that starts. -/
def Reply.reception (c : Call) : Reply → Reception
  | .refused => .escaped
  | .notStarted _ => if c.asksStatus then .escaped else .failed
  | .ended status out err =>
    match Shell.decode out, Shell.decode err with
    | some text, some _ =>
      if c.asksStatus then if status = 0 ∨ status = 1 then .answered else .failed
      else if status = 0 ∧ ¬ (c.asksParents = true ∧ Text.fields text = []) then .answered
      else .failed
    | _, _ => .escaped

/-- Git behind a system that refuses what cannot be handed to it. -/
def Git.Strict (git : Git) : Prop := ∀ past c, c.passable = false → git past c = .refused

/-- After the calls in `past`, the calls in the list were made, and all but the last of them were
answered. The last was taken in this way. -/
inductive Heard (git : Git) (past : List Call) : Reception → List Call → Prop
  | none : Heard git past .answered []
  | next {cs : List Call} (c : Call) (h : Heard git past .answered cs) :
      Heard git past ((git (cs ++ past) c).reception c) (c :: cs)

theorem Heard.append {git : Git} {past cs : List Call} {k : Reception}
    (h : Heard git past .answered cs) {later : List Call}
    (h' : Heard git (cs ++ past) k later) : Heard git past k (later ++ cs) := by
  generalize hp : cs ++ past = p at h'
  induction h' with
  | none => exact h
  | @next between c _ ih =>
    subst hp
    rw [← List.append_assoc]
    exact .next c ih

/-- Which reply was met is told by the last one, unless all queries were answered. -/
theorem Heard.met_iff {git : Git} {past cs : List Call} {k j : Reception}
    (h : Heard git past k cs) (hj : j ≠ .answered) :
    (∃ later c earlier, cs = later ++ c :: earlier ∧
      (git (earlier ++ past) c).reception c = j) ↔ k = j := by
  induction h generalizing j with
  | none => simp [Ne.symm hj]
  | @next cs c h ih =>
    constructor
    · rintro ⟨later, d, earlier, hcs, hd⟩
      rcases List.cons_eq_append_iff.mp hcs with ⟨rfl, last⟩ | ⟨later, rfl, before⟩
      · obtain ⟨rfl, rfl⟩ := List.cons.inj last
        exact hd
      · exact absurd ((ih hj).mp ⟨later, d, earlier, before, hd⟩) (Ne.symm hj)
    · exact fun hk => ⟨[], c, cs, rfl, hk⟩

def Event.call? : Event → Option Call
  | called c _ => some c
  | _ => none

namespace Shell

def calls (s : Shell) : List Call := s.journal.filterMap Event.call?

/-- Between the two shells queries were made, and the last of them was taken in this way. -/
structure Course (k : Reception) (s t : Shell) : Prop where
  git : t.git = s.git
  heard : ∃ cs, t.past = cs ++ s.past ∧ t.calls = cs ++ s.calls ∧ Heard s.git s.past k cs

theorem Course.refl (s : Shell) : Course .answered s s := ⟨rfl, [], rfl, rfl, .none⟩

theorem Course.trans {k : Reception} {s t u : Shell} (h : Course .answered s t)
    (h' : Course k t u) : Course k s u := by
  obtain ⟨hg, cs, hp, hc, heard⟩ := h
  obtain ⟨hg', cs', hp', hc', heard'⟩ := h'
  refine ⟨hg'.trans hg, cs' ++ cs, ?_, ?_, heard.append ?_⟩
  · rw [hp', hp, List.append_assoc]
  · rw [hc', hc, List.append_assoc]
  · rw [← hp, ← hg]
    exact heard'

theorem course_after (c : Call) (s : Shell) :
    Course ((s.git s.past c).reception c) s (after c s) :=
  ⟨rfl, [c], rfl, rfl, .next c .none⟩

theorem Course.log {k : Reception} {s t : Shell} (h : Course k s t) {e : Event}
    (he : e.call? = none) : Course k s (t.log e) := by
  obtain ⟨hg, cs, hp, hc, heard⟩ := h
  refine ⟨hg, cs, hp, ?_, heard⟩
  rw [← hc]
  exact List.filterMap_cons_none he

end Shell

namespace Run

variable {σ α β : Type}

inductive Tells : Reception → Except Failure α → Prop
  | value (a : α) : Tells .answered (.ok a)
  | command {e : Failure} (h : e.isCommand = true) : Tells .failed (.error e)
  | other {e : Failure} (h : e.isOwn = false) : Tells .escaped (.error e)

theorem Tells.error {k : Reception} {e : Failure} (h : Tells (α := α) k (.error e)) :
    Tells (α := β) k (.error e) := by
  cases h with
  | command h => exact .command h
  | other h => exact .other h

/-- In this state the outcome of the run tells how its last query is taken. -/
def Shows (R : Reception → σ → σ → Prop) (x : Run σ α) (s : σ) : Prop :=
  ∃ k, Tells k (x s).1 ∧ R k s (x s).2

structure Sequential (R : Reception → σ → σ → Prop) : Prop where
  refl : ∀ s, R .answered s s
  trans : ∀ {k s t u}, R .answered s t → R k t u → R k s u

variable {R : Reception → σ → σ → Prop} {s : σ}

theorem Sequential.pure (hR : Sequential R) (a : α) : Shows R (Pure.pure a) s :=
  ⟨.answered, .value a, hR.refl s⟩

theorem Shows.bind (hR : Sequential R) {x : Run σ α} {f : α → Run σ β} (hx : Shows R x s)
    (hf : ∀ a t, R .answered s t → Shows R (f a) t) : Shows R (x >>= f) s := by
  obtain ⟨k, tells, hk⟩ := hx
  rcases hs : x s with ⟨e | a, t⟩
  · rw [hs] at tells hk
    refine ⟨k, ?_, ?_⟩
    · rw [bind_of_error hs]
      exact tells.error
    · rwa [bind_of_error hs]
  · rw [hs] at tells hk
    cases tells
    obtain ⟨j, tells, hj⟩ := hf a t hk
    refine ⟨j, ?_, ?_⟩
    · rwa [bind_of_ok hs]
    · rw [bind_of_ok hs]
      exact hR.trans hk hj

end Run

namespace Git

open Run Shell

theorem sequential_course : Sequential Course := ⟨Course.refl, Course.trans⟩

variable {α : Type}

theorem shows_of_call {x : Run Shell α} {c : Call} {s : Shell} (shell : (x s).2 = after c s)
    (tells : Tells ((s.git s.past c).reception c) (x s).1) : Shows Course x s :=
  ⟨_, tells, shell ▸ course_after c s⟩

theorem shows_status {c : Call} (status : c.asksStatus = true) {read : Finished → Except Failure α}
    (known : ∀ f : Finished, f.status = 0 ∨ f.status = 1 → ∃ a, read f = .ok a)
    (other : ∀ f : Finished, ¬ (f.status = 0 ∨ f.status = 1) →
      read f = .error (.ofCommand c.words f.err (some f.status))) (s : Shell) :
    Shows Course (complete c >>= fun f => .ofExcept (read f)) s := by
  have apply : (complete c >>= fun f => .ofExcept (read f)) s =
      (finished (s.git s.past c) >>= read, after c s) := by
    rw [bind_apply, complete_apply]
    cases finished (s.git s.past c) <;> rfl
  refine shows_of_call (congrArg Prod.snd apply) ?_
  rw [apply]
  cases s.git s.past c with
  | refused => exact .other rfl
  | notStarted cause =>
    rw [Reply.reception, if_pos status]
    exact .other rfl
  | ended n out err =>
    rw [Reply.reception, finished]
    cases decode out with
    | none => exact .other rfl
    | some text =>
      cases decode err with
      | none => exact .other rfl
      | some warnings =>
        dsimp only
        rw [if_pos status]
        split
        · next h =>
          obtain ⟨a, ha⟩ := known ⟨n, text, warnings⟩ h
          show Tells _ (read ⟨n, text, warnings⟩)
          rw [ha]
          exact .value a
        · next h =>
          show Tells _ (read ⟨n, text, warnings⟩)
          rw [other _ h]
          exact .command rfl

/-- The output of a command is there if the query is answered, or if it lacks the commit that the
query names. -/
theorem outputOf_cases {c : Call} (status : c.asksStatus = false) (words : List String)
    (reply : Reply) :
    (∃ text, outputOf words reply = .ok text ∧ reply.reception c =
      if c.asksParents = true ∧ Text.fields text = [] then .failed else .answered) ∨
    ∃ e, outputOf words reply = .error e ∧ Tells (α := String) (reply.reception c) (.error e) := by
  cases reply with
  | refused => exact .inr ⟨_, rfl, .other rfl⟩
  | notStarted cause =>
    rw [Reply.reception, status]
    exact .inr ⟨_, rfl, .command rfl⟩
  | ended n out err =>
    rw [Reply.reception, status]
    simp only [outputOf, finished]
    cases decode out with
    | none => exact .inr ⟨_, rfl, .other rfl⟩
    | some text =>
      cases decode err with
      | none => exact .inr ⟨_, rfl, .other rfl⟩
      | some warnings =>
        simp only [bind, Except.bind]
        by_cases zero : n = 0
        · left
          refine ⟨text, if_pos zero, ?_⟩
          by_cases h : c.asksParents = true ∧ Text.fields text = [] <;> simp [zero, h]
        · right
          refine ⟨_, if_neg zero, ?_⟩
          simp only [zero, false_and, if_false]
          exact .command rfl

theorem shows_output {dir : String} {args : List String}
    (status : ({ args, dir } : Call).asksStatus = false)
    (parents : ({ args, dir } : Call).asksParents = false) (s : Shell) :
    Shows Course (output dir args) s := by
  apply shows_of_call rfl
  rw [output_apply]
  rcases outputOf_cases status ("git" :: args) (s.git s.past { args, dir }) with
    ⟨text, told, taken⟩ | ⟨e, told, tells⟩
  · rw [told, taken, parents]
    exact .value text
  · rw [told]
    exact tells

variable (dir sha : String) (s : Shell)

theorem shows_topLevel : Shows Course (topLevel dir) s :=
  (shows_output rfl rfl s).bind sequential_course fun _ _ _ => sequential_course.pure _

theorem shows_parents : Shows Course (parents dir sha) s := by
  have apply : output dir (parentsCall dir sha).args s =
      (outputOf (parentsCall dir sha).words (s.git s.past (parentsCall dir sha)),
        after (parentsCall dir sha) s) := rfl
  rcases outputOf_cases (c := parentsCall dir sha) rfl (parentsCall dir sha).words
    (s.git s.past (parentsCall dir sha)) with ⟨text, told, taken⟩ | ⟨e, told, tells⟩
  · have answer : parents dir sha s = _ := bind_of_ok (apply.trans (congrArg (·, _) told))
    cases hf : Text.fields text with
    | nil =>
      simp only [hf] at answer
      refine shows_of_call (c := parentsCall dir sha) (congrArg Prod.snd answer) ?_
      rw [taken, if_pos ⟨rfl, hf⟩, answer]
      exact .command rfl
    | cons full rest =>
      simp only [hf] at answer
      refine shows_of_call (c := parentsCall dir sha) (congrArg Prod.snd answer) ?_
      rw [taken, if_neg (by simp [hf]), answer]
      exact .value _
  · have answer : parents dir sha s = _ := bind_of_error (apply.trans (congrArg (·, _) told))
    refine shows_of_call (c := parentsCall dir sha) (congrArg Prod.snd answer) ?_
    rw [answer]
    exact tells.error

theorem shows_currentBranch : Shows Course (currentBranch dir) s := by
  apply shows_status rfl
  · rintro f (zero | one)
    · exact ⟨_, if_pos zero⟩
    · refine ⟨head, ?_⟩
      rw [readCurrentBranch, if_neg (by rw [one]; decide), if_pos one]
  · intro f other
    rw [not_or] at other
    rw [readCurrentBranch, if_neg other.1, if_neg other.2]

theorem shows_isAncestor (descendant : String) :
    Shows Course (isAncestor dir sha descendant) s := by
  apply shows_status rfl
  · rintro f (zero | one)
    · exact ⟨_, if_pos zero⟩
    · refine ⟨false, ?_⟩
      rw [readIsAncestor, if_neg (by rw [one]; decide), if_pos one]
  · intro f other
    rw [not_or] at other
    rw [readIsAncestor, if_neg other.1, if_neg other.2]

theorem shows_commit : Shows Course (commit dir sha) s :=
  (shows_topLevel dir s).bind sequential_course fun root t _ =>
    (shows_parents root sha t).bind sequential_course fun _ _ _ => sequential_course.pure _

theorem shows_headSha : Shows Course (headSha dir) s :=
  (shows_output rfl rfl s).bind sequential_course fun _ _ _ => sequential_course.pure _

theorem shows_log (limit : Int) : Shows Course (log dir limit) s :=
  (shows_output rfl rfl s).bind sequential_course fun _ _ _ => sequential_course.pure _

theorem shows_message : Shows Course (message dir sha) s :=
  (shows_output rfl rfl s).bind sequential_course fun _ _ _ => sequential_course.pure _

theorem shows_containing : Shows Course (containing dir sha) s := by
  refine (shows_output rfl rfl s).bind sequential_course fun _ t _ => ?_
  refine (shows_currentBranch dir t).bind sequential_course fun branch u _ => ?_
  dsimp only
  split
  · exact (shows_isAncestor dir sha u head).bind sequential_course fun _ _ _ =>
      sequential_course.pure _
  · exact (sequential_course.pure false).bind sequential_course fun _ _ _ =>
      sequential_course.pure _

theorem shows_remoteBranches : Shows Course (remoteBranches dir) s :=
  (shows_output rfl rfl s).bind sequential_course fun _ t _ =>
    (shows_output rfl rfl t).bind sequential_course fun _ _ _ => sequential_course.pure _

end Git

end HistoryGuard
