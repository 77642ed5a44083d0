import HistoryGuard.Proofs.CommandLine.Check
import HistoryGuard.Proofs.Gate.Reception

/-! # How a check ends

The replies of git that a check has met decide how it ends: with a verdict if they all answer it,
with a reported failure if one of them tells a failure, and with an error that nobody reports if
one of them is of neither kind.
-/

namespace HistoryGuard

open Run

variable {ι α : Type}

namespace Check

open Workspace

inductive Concludes : Reception → Except Failure Ending → Prop
  | allowed : Concludes .answered (.ok .allowed)
  | denied (reason : Denial) : Concludes .answered (.ok (.denied reason))
  | failed (text : String) : Concludes .failed (.ok (.failed text))
  | escaped (e : Failure) : Concludes .escaped (.error e)

theorem reportOwn_apply (x : Run (Workspace ι) Ending) (w : Workspace ι) :
    reportOwn x w = match x w with
      | (.ok e, v) => (.ok e, v)
      | (.error e, v) => (if e.isOwn then .ok (.failed e.message) else .error e, v) := by
  rw [reportOwn, bind_apply, attempt]
  rcases x w with ⟨e | e, v⟩
  · dsimp only
    split <;> rfl
  · rfl

/-- Reported in this state, the run tells how its last query is taken. -/
def Concluded (x : Run (Workspace ι) Ending) (w : Workspace ι) : Prop :=
  ∃ k, Concludes k (reportOwn x w).1 ∧ Course k w (reportOwn x w).2

variable {x y : Run (Workspace ι) Ending} {w v : Workspace ι}

theorem concluded_of_ok {k : Reception} {e : Ending} (h : x w = (.ok e, v))
    (concludes : Concludes k (.ok e)) (course : Course k w v) : Concluded x w := by
  refine ⟨k, ?_, ?_⟩
  · rw [reportOwn_apply, h]
    exact concludes
  · rw [reportOwn_apply, h]
    exact course

theorem concluded_of_escaped {e : Failure} (h : x w = (.error e, v)) (foreign : e.isOwn = false)
    (course : Course .escaped w v) : Concluded x w := by
  refine ⟨.escaped, ?_, ?_⟩
  · rw [reportOwn_apply, h]
    dsimp only
    rw [if_neg (by simp [foreign])]
    exact .escaped e
  · rw [reportOwn_apply, h]
    exact course

theorem Concluded.after (h : Concluded y v) (same : x w = y v) (course : Course .answered w v) :
    Concluded x w := by
  obtain ⟨k, concludes, rest⟩ := h
  rw [reportOwn_apply, ← same, ← reportOwn_apply] at concludes rest
  exact ⟨k, concludes, sequential_course.trans course rest⟩

theorem concluded_bind {q : Run (Workspace ι) α} {f : α → Run (Workspace ι) Ending}
    (hq : Shows Course q w) (hf : ∀ a v, q w = (.ok a, v) → Concluded (f a) v) :
    Concluded (q >>= f) w := by
  obtain ⟨k, tells, course⟩ := hq
  rcases hw : q w with ⟨e | a, v⟩
  · rw [hw] at tells course
    cases tells with
    | command h =>
      refine ⟨.failed, ?_, ?_⟩
      · rw [reportOwn_apply, bind_of_error hw]
        dsimp only
        rw [if_pos (Failure.isOwn_of_isCommand h)]
        exact .failed e.message
      · rw [reportOwn_apply, bind_of_error hw]
        exact course
    | other h => exact concluded_of_escaped (bind_of_error hw) h course
  · rw [hw] at tells course
    cases tells
    exact (hf a v hw).after (bind_of_ok hw) course

variable {p : Protection}

theorem concluded_endingFor {r : Registry} (commit : Commit) (policy : w.policy = .protection p)
    (registry : w.lookup = .registry r) (cache : w.cache = {}) :
    Concluded (endingFor commit) w := by
  rcases repository?_cases commit.root registry with ⟨e, v, found, foreign, course⟩ |
    ⟨v, found, course⟩ | ⟨repository, v, found, again, course⟩
  · have failed : Gate.enablement [commit] w = (.error e, v) := bind_of_error found
    exact concluded_of_escaped (bind_of_error failed) foreign course
  · exact concluded_of_ok (bind_of_ok (Gate.enablement_unknown found)) (.failed _) course
  by_cases one : commit.parentCount = 1
  case neg =>
    have disabled := Gate.enablement_not_single_parent found one
    exact concluded_of_ok (bind_of_ok disabled) (.denied _) course
  rcases Gate.enablement_of_found found one with ⟨-, available⟩ | ⟨b, cached, -⟩
  case inr =>
    rw [cache] at cached
    cases cached
  have shown : Shows Course (Gate.judge compute [commit]) v := by
    have judged : Gate.judge compute [commit] v = _ := Gate.judge_found again
    rw [Shows, judged, if_pos one]
    exact (Gate.shows_containing commit v).bind sequential_course fun b u hu =>
      Gate.shows_verdict repository b (hu.policy.trans (course.policy.trans policy))
  refine Concluded.after (v := v) ?_ (bind_of_ok available) course
  refine concluded_bind shown fun verdict u _ => ?_
  cases verdict with
  | allowed => exact concluded_of_ok rfl .allowed (sequential_course.refl u)
  | denied reason => exact concluded_of_ok rfl (.denied reason) (sequential_course.refl u)

theorem run_concludes {r : Registry} (dir sha : String) (policy : w.policy = .protection p)
    (registry : w.lookup = .registry r) (cache : w.cache = {}) :
    ∃ k, Concludes k (run dir sha w).1 ∧ Course k w (run dir sha w).2 := by
  refine concluded_bind (shows_onShell (Git.shows_commit dir sha _)) fun commit v hv => ?_
  obtain ⟨-, rfl⟩ := Prod.mk.inj hv
  exact concluded_endingFor commit policy registry cache

end Check

namespace CommandLine

def Report.calls (r : Report) : List Call := r.events.filterMap Event.call?

/-- Git gave a reply to the program that is taken in this way. -/
def Report.Met (r : Report) (git : Git) (k : Reception) : Prop :=
  ∃ before c after, r.calls = before ++ c :: after ∧ (git before.reverse c).reception c = k

theorem load_without_store (env : Environment) : ∃ p, Protection.load none env = .ok p := by
  unfold Protection.load
  cases env.get? Protection.patternsVariable with
  | none => exact ⟨_, rfl⟩
  | some text => exact ⟨_, rfl⟩

section Check

variable {around : Surroundings} {args : List String} {a : Arguments} {commit : String}

theorem policy_of_texts (texts : none ∉ a.patterns) (env : Environment) :
    ∃ p, a.policy none env = .ok (.protection p) := by
  unfold Arguments.policy
  split
  · obtain ⟨p, hp⟩ := load_without_store env
    exact ⟨p, by rw [hp]; rfl⟩
  · have all : a.patterns.all Option.isSome = true := by
      rw [List.all_eq_true]
      intro pattern hm
      cases pattern with
      | none => exact absurd hm texts
      | some text => rfl
    exact ⟨{ patterns := a.patterns.filterMap id }, by rw [Policy.ofPatterns, if_pos all]⟩

theorem directory_of_text (place : a.location ≠ .withoutText) (around : Surroundings) :
    ∃ dir, a.directory around = .ok dir := by
  unfold Arguments.directory
  split
  · exact ⟨_, rfl⟩
  · exact ⟨_, rfl⟩
  · next h => exact absurd h place

theorem run_of_unset {e : Failure} (parsed : Arguments.parse args = .ok a)
    (place : a.location ≠ .withoutText)
    (unset : LogLevel.choose a.logLevel around.environment = .error e) :
    run around args = { outcome := .error e } := by
  obtain ⟨dir, hd⟩ := directory_of_text place around
  simp only [run, parsed, hd, unset]

/-- Once the log is set up, the program has nothing but the replies of git to go by. -/
theorem run_concludes {level : Nat} (parsed : Arguments.parse args = .ok a)
    (request : a.request = .check commit) (place : a.location ≠ .withoutText)
    (texts : none ∉ a.patterns)
    (set : LogLevel.choose a.logLevel around.environment = .ok level) :
    ∃ k, Check.Concludes k (run around args).outcome ∧
      Heard around.git [] k (run around args).calls.reverse := by
  obtain ⟨dir, hd⟩ := directory_of_text place around
  obtain ⟨p, hp⟩ := policy_of_texts texts around.environment
  let start := workspace around { git := around.git } (.protection p)
  have went : (run around args).outcome = (Check.run dir commit start).1 ∧
      (run around args).events = (Check.run dir commit start).2.shell.journal.reverse := by
    simp only [run, parsed, hd, set, runRequest, request, runCheck, hp]
    exact ⟨rfl, rfl⟩
  obtain ⟨k, concludes, course⟩ := Check.run_concludes (w := start) dir commit rfl rfl rfl
  obtain ⟨cs, -, calls, heard⟩ := course.shell.heard
  refine ⟨k, went.1 ▸ concludes, ?_⟩
  have same : (run around args).calls.reverse = cs := by
    rw [Report.calls, went.2, List.filterMap_reverse, List.reverse_reverse]
    exact calls.trans (List.append_nil cs)
  rw [same]
  exact heard

theorem Report.met_iff {r : Report} {git : Git} {k j : Reception}
    (heard : Heard git [] k r.calls.reverse) (hj : j ≠ .answered) : r.Met git j ↔ k = j := by
  rw [← heard.met_iff hj]
  constructor
  · rintro ⟨before, c, after, split, taken⟩
    exact ⟨after.reverse, c, before.reverse, by simp [split], by simpa using taken⟩
  · rintro ⟨later, c, earlier, split, taken⟩
    refine ⟨earlier.reverse, c, later.reverse, ?_, by simpa using taken⟩
    rw [← List.reverse_reverse r.calls, split]
    simp

theorem Report.met_of_impassable {r : Report} {git : Git} {c : Call} (strict : git.Strict)
    (called : c ∈ r.calls) (impassable : c.passable = false) : r.Met git .escaped := by
  obtain ⟨before, after, split⟩ := List.append_of_mem called
  refine ⟨before, c, after, split, ?_⟩
  rw [strict _ c impassable]
  rfl

theorem ends_of_set {level : Nat} (parsed : Arguments.parse args = .ok a)
    (request : a.request = .check commit) (place : a.location ≠ .withoutText)
    (texts : none ∉ a.patterns)
    (set : LogLevel.choose a.logLevel around.environment = .ok level) :
    let r := run around args
    ((∃ e, r.outcome = .error e) ↔ r.Met around.git .escaped) ∧
    ((∃ text, r.outcome = .ok (.failed text)) ↔ r.Met around.git .failed) ∧
    ((r.outcome = .ok .allowed ∨ ∃ reason, r.outcome = .ok (.denied reason)) ↔
      ¬ r.Met around.git .escaped ∧ ¬ r.Met around.git .failed) := by
  intro r
  obtain ⟨k, concludes, heard⟩ :
      ∃ k, Check.Concludes k r.outcome ∧ Heard around.git [] k r.calls.reverse :=
    run_concludes parsed request place texts set
  rw [Report.met_iff heard (by decide), Report.met_iff heard (by decide)]
  generalize r.outcome = outcome at concludes ⊢
  cases concludes with
  | allowed => simp [Ending.allowed, Ending.failed]
  | denied reason => simp [Ending.denied, Ending.failed]
  | failed text => simp [Ending.allowed, Ending.denied, Ending.failed]
  | escaped e => simp

/-- A check ends with a verdict if its log is set up and git answers each query. It reports a
failure if one reply tells a failure, and it ends in an error that is not reported if its log is not
set up or one reply is of neither kind. As the system refuses a call with the character zero in it,
such a call ends the check in an error. -/
theorem check_ends (parsed : Arguments.parse args = .ok a) (request : a.request = .check commit)
    (place : a.location ≠ .withoutText) (texts : none ∉ a.patterns) :
    let r := run around args
    let level := LogLevel.choose a.logLevel around.environment
    ((∃ e, r.outcome = .error e) ↔ (∃ e, level = .error e) ∨ r.Met around.git .escaped) ∧
    ((∃ text, r.outcome = .ok (.failed text)) ↔ r.Met around.git .failed) ∧
    ((r.outcome = .ok .allowed ∨ ∃ reason, r.outcome = .ok (.denied reason)) ↔
      (∃ n, level = .ok n) ∧ ¬ r.Met around.git .escaped ∧ ¬ r.Met around.git .failed) ∧
    (around.git.Strict → ∀ c ∈ r.calls, c.passable = false → ∃ e, r.outcome = .error e) := by
  intro r level
  cases set : level with
  | error e =>
    have stopped : r = { outcome := .error e } := run_of_unset parsed place set
    have outcome : r.outcome = .error e := by rw [stopped]
    have uncalled : r.calls = [] := by
      rw [stopped]
      rfl
    have unmet (k : Reception) : ¬ r.Met around.git k := by
      rintro ⟨before, c, after, split, -⟩
      simp [uncalled] at split
    simp [outcome, uncalled, unmet]
  | ok n =>
    obtain ⟨escapes, fails, concludes⟩ := ends_of_set parsed request place texts set
    refine ⟨by simpa using escapes, fails, by simpa using concludes, ?_⟩
    exact fun strict c called impassable =>
      escapes.mpr (Report.met_of_impassable strict called impassable)

end Check

/-- Git that answers like `unpushedGit`, but gives this reply to the commands with the word. -/
def unpushedBut (word : String) (reply : Reply) : Git := fun past call =>
  if word ∈ call.args then reply else unpushedGit past call

/-- Git behind the system. -/
def guarded (git : Git) : Git := fun past call =>
  if call.passable then git past call else .refused

theorem strict_guarded (git : Git) : (guarded git).Strict := by
  intro past c impassable
  rw [guarded, if_neg (by simp [impassable])]

/-- A failure of the last query is reported, and a top directory with the character zero in it ends
the check in an error. -/
theorem check_ends_unlisted :
    let failing := unpushedBut "for-each-ref" (.ended 128 "".toByteArray "fatal\n".toByteArray)
    let zero := guarded (unpushedBut "rev-parse" (.ended 0 "/a\x00\n".toByteArray "".toByteArray))
    (∃ text, (run { workDir := "/work", git := failing } ["check", "c"]).outcome =
      .ok (.failed text)) ∧
    ∃ e, (run { workDir := "/work", git := zero } ["check", "c"]).outcome = .error e := by
  intro failing zero
  have parsed : Arguments.parse ["check", "c"] = .ok { request := .check "c" } := rfl
  have ends (git : Git) :=
    @check_ends { workDir := "/work", git } _ _ _ parsed rfl (by decide) (by decide)
  constructor
  · refine (ends failing).2.1.mpr ?_
    let listing : Call :=
      ⟨["for-each-ref", "--format=%(refname) %(symref)", "refs/remotes"], "/work", none⟩
    have last : (run { workDir := "/work", git := failing } ["check", "c"]).calls.getLast? =
        some listing := by
      decide +kernel
    exact ⟨_, listing, [], (List.dropLast_append_getLast? listing last).symm, rfl⟩
  · refine (ends zero).2.2.2 (strict_guarded _) (Git.parentsCall "/a\x00" "c") ?_ (by decide)
    decide

def lostGit : Git := unpushedBut "symbolic-ref" (.notStarted ⟨.notFound, "git"⟩)

/-- The error is not reported if git cannot be started for the branch of the head. -/
theorem lost_check_escapes :
    (run { workDir := "/work", git := lostGit } ["check", "c"]).outcome =
      .error (.notStarted ⟨.notFound, "git"⟩) := by
  rfl

end CommandLine

end HistoryGuard
