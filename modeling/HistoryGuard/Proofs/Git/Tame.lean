import HistoryGuard.Proofs.Git.Abort
import HistoryGuard.Proofs.Git.Reception
import HistoryGuard.Proofs.Workspace

/-! # Git that starts and prints text

Where every process of git starts and prints text, whatever its status, a question to git fails
only as a git command does. An edit fails as one, or because of the history that it would replay.
-/

namespace HistoryGuard

open Run Shell

theorem Failure.isTold_of_isCommand {e : Failure} (h : e.isCommand = true) : e.isTold = true := by
  simp [isTold, h]

namespace Git

/-- Every process starts and prints text. -/
def Tame (git : Git) : Prop :=
  ∀ past c, ∃ status out err text warnings, git past c = .ended status out err ∧
    decode out = some text ∧ decode err = some warnings

theorem Tame.not_escaped {git : Git} (tame : git.Tame) (past : List Call) (c : Call) :
    (git past c).reception c ≠ .escaped := by
  obtain ⟨status, out, err, text, warnings, ended, read, readErr⟩ := tame past c
  rw [ended, Reply.reception, read, readErr]
  dsimp only
  split
  · split <;> decide
  · split <;> decide

end Git

theorem Run.raises_of_shows {σ α : Type} {R : Reception → σ → σ → Prop} {G : σ → Prop}
    {x : Run σ α} (caught : ∀ k s t, R k s t → G s → G t ∧ k ≠ .escaped)
    (h : ∀ s, Shows R x s) : Raises G (·.isCommand = true) x := by
  intro s hs
  obtain ⟨k, tells, related⟩ := h s
  obtain ⟨stays, inside⟩ := caught k s _ related hs
  refine ⟨stays, fun e he => ?_⟩
  rw [he] at tells
  cases tells with
  | command h => exact h
  | other h => exact absurd rfl inside

theorem Shell.Course.tame {k : Reception} {s t : Shell} (h : Course k s t) (tame : s.git.Tame) :
    t.git.Tame ∧ k ≠ .escaped := by
  obtain ⟨same, cs, -, -, heard⟩ := h
  refine ⟨same ▸ tame, fun escaped => ?_⟩
  obtain ⟨later, c, earlier, -, taken⟩ := (heard.met_iff (by decide)).mpr escaped
  exact tame.not_escaped _ c taken

namespace Git

variable {α : Type} {P : Failure → Prop}

theorem raises_of_shows {x : Run Shell α} (h : ∀ s, Shows Course x s) :
    Raises (·.git.Tame) (·.isCommand = true) x :=
  Run.raises_of_shows (fun _ _ _ course => course.tame) h

theorem raises_told_of_shows {x : Run Shell α} (h : ∀ s, Shows Course x s) :
    Raises (·.git.Tame) (·.isTold = true) x :=
  (raises_of_shows h).mono fun _ => Failure.isTold_of_isCommand

theorem raises_note (e : Event) : Raises (·.git.Tame) P (note e) := raises_modify fun _ tame => tame

theorem raises_commitsFrom (dir sha : String) :
    Raises (·.git.Tame) (·.isTold = true) (commitsFrom dir sha) := by
  apply (raises_told_of_shows (shows_parents dir sha)).bind
  rintro ⟨-, parents⟩
  apply (raises_told_of_shows fun s => shows_output rfl rfl s).bind
  intro merges
  split
  · exact (raises_told_of_shows fun s => shows_output rfl rfl s).bind fun _ => raises_pure _
  · exact raises_fail rfl

/-- A rebase that goes wrong fails as a git command, as its abort starts. -/
theorem raises_runPlan (c : Call) : Raises (·.git.Tame) (·.isCommand = true) (runPlan c) := by
  intro s tame
  obtain ⟨status, out, err, text, warnings, ended, read, readErr⟩ := tame s.past c
  have came : complete c s = (.ok ⟨status, text, warnings⟩, after c s) := by
    rw [complete_apply, ended, finished_of_read read readErr]
  by_cases zero : status = 0
  · subst zero
    rw [runPlan_of_zero came]
    exact ⟨tame, by simp⟩
  · obtain ⟨_, _, _, _, _, aborted, -, -⟩ := tame (c :: s.past) (abortCall c.dir)
    rw [runPlan_of_bad came zero, aborted]
    refine ⟨tame, ?_⟩
    rintro _ ⟨⟩
    rfl

theorem raises_rebase (dir sha : String) (plan : Plan) :
    Raises (·.git.Tame) (·.isTold = true) (rebase dir sha plan) :=
  (raises_told_of_shows (shows_parents dir sha)).bind fun _ =>
    (raises_runPlan _).mono fun _ => Failure.isTold_of_isCommand

end Git

namespace Edit

/-- Whenever the user is asked, the answer comes. -/
def Answered : Edit → Prop
  | reword answer => ∀ current e, answer current ≠ .error e
  | rebase answer => ∀ lines e, answer lines ≠ .error e

/-- Where git is tame and the user answers, all that can keep an edit from being carried out is told
to the user. -/
theorem raises_carryOut {edit : Edit} (answered : edit.Answered) (commit : Commit) :
    Raises (·.git.Tame) (·.isTold = true) (edit.carryOut commit) := by
  have list := Git.raises_commitsFrom commit.root commit.sha
  cases edit with
  | reword answer =>
    apply (Git.raises_told_of_shows (Git.shows_message commit.root commit.sha)).bind
    intro current
    apply (Git.raises_note _).bind
    intro _
    refine (raises_ofExcept fun e he => absurd he (answered current e)).bind fun message => ?_
    cases message with
    | none => exact raises_pure _
    | some message =>
      dsimp only
      split
      · exact raises_pure _
      · exact list.bind fun _ => (Git.raises_rebase _ _ _).bind fun _ => raises_pure _
  | rebase answer =>
    apply list.bind
    intro shas
    apply (Git.raises_note _).bind
    intro _
    refine (raises_ofExcept fun e he => absurd he (answered _ e)).bind fun edited => ?_
    cases edited with
    | none => exact raises_pure _
    | some edited =>
      dsimp only
      split
      · exact raises_pure _
      · exact (Git.raises_rebase _ _ _).bind fun _ => raises_pure _

end Edit

end HistoryGuard
