import HistoryGuard.Proofs.Shell

/-! # Rebases that go wrong

A rebase that ends with a bad status is aborted right away and in the same directory, and the
failure that comes of it is the one of the rebase. This holds as long as the output of the rebase
can be read: if it is no text, the rebase is left as it is, whatever its status.
-/

namespace HistoryGuard.Git

open Run Shell

section RunPlan

variable {c : Call} {s : Shell} {status : Int} {out err : ByteArray} {text warnings : String}

/-- The failure of a rebase that ended with a bad status, by the reply to its abort. What the
abort prints, and how it ends, is of no account. -/
def rebaseFailure (c : Call) (warnings : String) (status : Int) : Reply → Failure
  | .refused => .refused
  | .notStarted cause => .notStarted cause
  | .ended .. => .ofCommand c.words warnings (some status)

theorem finished_of_read (readOut : decode out = some text) (readErr : decode err = some warnings) :
    finished (.ended status out err) = .ok ⟨status, text, warnings⟩ := by
  rw [finished, readOut, readErr]

theorem finished_of_unread (unread : decode out = none ∨ decode err = none) :
    finished (.ended status out err) = .error .undecodable := by
  rw [finished]
  rcases unread with h | h
  · rw [h]
  · rw [h]
    cases decode out <;> rfl

theorem runPlan_of_zero (h : complete c s = (.ok ⟨0, text, warnings⟩, after c s)) :
    runPlan c s = (.ok (), after c s) := by
  rw [runPlan, bind_of_ok h]
  rfl

theorem runPlan_of_bad (h : complete c s = (.ok ⟨status, text, warnings⟩, after c s))
    (bad : status ≠ 0) :
    runPlan c s = (.error (rebaseFailure c warnings status (s.git (c :: s.past) (abortCall c.dir))),
      after (abortCall c.dir) (after c s)) := by
  rw [runPlan, bind_of_ok h]
  dsimp only
  rw [if_neg bad, bind_of_ok (call_apply _ _)]
  have reply : (after c s).git (after c s).past = s.git (c :: s.past) := rfl
  rw [reply]
  cases s.git (c :: s.past) (abortCall c.dir) <;> rfl

end RunPlan

theorem started_of_outputOf {words : List String} {reply : Reply} {text : String}
    (h : outputOf words reply = .ok text) : reply.started = true := by
  cases reply with
  | refused => cases h
  | notStarted cause => cases h
  | ended => rfl

theorem parents_eq_ok {dir sha : String} {s t : Shell} {answer : String × List String}
    (h : parents dir sha s = (.ok answer, t)) :
    t = after (parentsCall dir sha) s ∧ (s.git s.past (parentsCall dir sha)).started = true := by
  obtain ⟨listing, u, ho, h⟩ := bind_eq_ok.mp h
  obtain ⟨told, rfl⟩ := Prod.mk.inj ((output_apply ..).symm.trans ho)
  refine ⟨?_, started_of_outputOf told⟩
  cases hf : Text.fields listing with
  | nil => simp [hf, fail] at h
  | cons full rest =>
    simp only [hf, pure_eq_ok] at h
    exact h.2.symm

/-- A rebase that ends with a bad status is aborted exactly once, right after it and in the same
directory, and fails with its own error output and status. One that ends with status zero is not
aborted and does not fail. A rebase whose output is no text fails without an abort. -/
theorem bad_rebase_aborted {dir sha full : String} {parents : List String} {plan : Plan}
    {s t : Shell} {status : Int} {out err : ByteArray}
    (named : Git.parents dir sha s = (.ok (full, parents), t))
    (ended : t.git t.past (rebaseCall dir parents plan) = .ended status out err) :
    let c := rebaseCall dir parents plan
    let before := .called c true :: .called (parentsCall dir sha) true :: s.journal
    let aborted := t.git (c :: t.past) (abortCall dir)
    let r := rebase dir sha plan s
    (∀ text warnings, decode out = some text → decode err = some warnings →
      (status ≠ 0 →
        r.2.journal = .called (abortCall dir) aborted.started :: before ∧
        (aborted.started = true →
          r.1 = .error (.commandFailed c.words (Text.strip warnings) (some status))) ∧
        ∀ cause, aborted = .notStarted cause → r.1 = .error (.notStarted cause)) ∧
      (status = 0 → r.1 = .ok () ∧ r.2.journal = before)) ∧
    (decode out = none ∨ decode err = none →
      r.1 = .error .undecodable ∧ r.2.journal = before) := by
  intro c before aborted r
  obtain ⟨after_parents, started⟩ := parents_eq_ok named
  have journal : (after c t).journal = before := by
    rw [after, ended, after_parents, after, started]
    rfl
  have run : r = runPlan c t := bind_of_ok named
  have finish (f : Except Failure Finished) (h : finished (.ended status out err) = f) :
      complete c t = (f, after c t) := by
    rw [complete_apply, ended, h]
  rw [run]
  refine ⟨fun text warnings readOut readErr => ⟨fun bad => ?_, fun zero => ?_⟩, fun unread => ?_⟩
  · rw [runPlan_of_bad (finish _ (finished_of_read readOut readErr)) bad]
    refine ⟨?_, fun abortable => ?_, fun cause unable => ?_⟩
    · rw [← journal]
      rfl
    · show Except.error (rebaseFailure c warnings status aborted) = _
      cases ha : aborted with
      | refused => simp [ha, Reply.started] at abortable
      | notStarted cause => simp [ha, Reply.started] at abortable
      | ended => rfl
    · show Except.error (rebaseFailure c warnings status aborted) = _
      rw [unable]
      rfl
  · subst zero
    rw [runPlan_of_zero (finish _ (finished_of_read readOut readErr))]
    exact ⟨rfl, journal⟩
  · rw [runPlan, bind_of_error (finish _ (finished_of_unread unread))]
    exact ⟨rfl, journal⟩

/-- Git in which the commit `c` has the parent `p`, and a rebase ends with this status and output
and an error message. -/
def stuckGit (status : Int) (out : ByteArray) : Git := fun _ call =>
  match call.args with
  | "rev-list" :: _ => .ended 0 "c p\n".toByteArray "".toByteArray
  | "rebase" :: "-i" :: _ => .ended status out "CONFLICT\n".toByteArray
  | _ => .ended 0 "".toByteArray "".toByteArray

theorem bad_rebase_aborted_killed :
    let r := rebase "/work" "c" [.text "pick c"] { git := stuckGit (-9) "".toByteArray }
    r.1 = .error (.commandFailed ["git", "rebase", "-i", "p"] "CONFLICT" (some (-9))) ∧
      r.2.journal.head? = some (.called (abortCall "/work") true) := by
  intro r
  let git := stuckGit (-9) "".toByteArray
  let s : Shell := { git }
  have named : parents "/work" "c" s = (.ok ("c", ["p"]), after (parentsCall "/work" "c") s) := rfl
  have killed : git [parentsCall "/work" "c"] (rebaseCall "/work" ["p"] [.text "pick c"]) =
      .ended (-9) "".toByteArray "CONFLICT\n".toByteArray := rfl
  obtain ⟨journal, failed, -⟩ :=
    ((bad_rebase_aborted named killed).1 "" "CONFLICT\n" rfl rfl).1 (by decide)
  refine ⟨failed rfl, ?_⟩
  rw [journal]
  rfl

/-- A rebase that ends with status 1 is left unaborted if its output is no text. -/
theorem unread_rebase_unaborted :
    let git := stuckGit 1 ⟨#[0xff]⟩
    let r := rebase "/work" "c" [.text "pick c"] { git }
    (∀ past plan, git past (rebaseCall "/work" ["p"] plan) =
      .ended 1 ⟨#[0xff]⟩ "CONFLICT\n".toByteArray) ∧
    r.1 = .error .undecodable ∧
    ∀ started, .called (abortCall "/work") started ∉ r.2.journal := by
  intro git r
  have journal : r.2.journal = [.called (rebaseCall "/work" ["p"] [.text "pick c"]) true,
      .called (parentsCall "/work" "c") true] := rfl
  refine ⟨fun _ _ => rfl, rfl, fun started => ?_⟩
  simp [journal, rebaseCall, parentsCall, abortCall]

end HistoryGuard.Git
