import Mathlib.Data.List.TakeWhile
import HistoryGuard.Proofs.Edit.Plan

/-! # Replaying an edited plan

An interactive rebase lets the user edit a plan that picks every commit that git has listed, and
carries out what is left of the edited lines without blank ones and comments.
-/

namespace HistoryGuard

open Run Shell

namespace Text

/-- The first character of the text that is no blank is a number sign. -/
def Comment (s : List Char) : Prop := ∃ blanks rest, s = blanks ++ '#' :: rest ∧ Blank blanks

variable {s : List Char}

theorem head?_trimStart_eq_iff : (trimStart s).head? = some '#' ↔ Comment s := by
  constructor
  · intro h
    obtain ⟨rest, hr⟩ := List.head?_eq_some_iff.mp h
    refine ⟨s.takeWhile isBlank, rest, ?_, fun c hc => List.mem_takeWhile_imp hc⟩
    rw [← hr, trimStart, List.takeWhile_append_dropWhile]
  · rintro ⟨blanks, rest, rfl, blank⟩
    rw [trimStart, List.dropWhile_append_of_pos blank]
    rfl

end Text

namespace Edit

def Tells (line : String) : Prop := ¬ Text.Blank line.toList ∧ ¬ Text.Comment line.toList

theorem isEffective_iff {line : String} : isEffective line = true ↔ Tells line := by
  rw [isEffective, Tells, ← Text.trimStart_eq_nil_iff, ← Text.head?_trimStart_eq_iff]
  cases Text.trimStart line.toList with
  | nil => simp
  | cons c rest => simp

instance (line : String) : Decidable (Tells line) := decidable_of_iff _ isEffective_iff

theorem filter_isEffective (edited : List String) :
    edited.filter isEffective = edited.filter (Tells ·) := by
  apply List.filter_congr
  intro line _
  rw [Bool.eq_iff_iff, decide_eq_true_iff]
  exact isEffective_iff

def offered (listing : String) : List String := (Git.readShas listing).map pickLine

/-- What becomes of the edited lines: no plan without any line that tells something. -/
def planned : Option (List String) → Option Plan
  | none => none
  | some edited =>
    if edited.filter (Tells ·) = [] then none else some ((edited.filter (Tells ·)).map .text)

variable {answer : List String → Except Failure (Option (List String))} {commit : Commit}
  {s u : Shell} {listing : String}

theorem draft_of_lists (lists : Git.Lists commit.root commit.sha listing s u) :
    draft (.rebase answer) commit s =
      ((answer (offered listing)).map planned,
        u.log (.asked commit (.plan (offered listing)))) := by
  have listed : Git.commitsFrom commit.root commit.sha s = (.ok (Git.readShas listing), u) :=
    Git.commitsFrom_eq_ok.mpr ⟨listing, lists, rfl⟩
  have noted : note (.asked commit (.plan (offered listing))) u =
      (.ok (), u.log (.asked commit (.plan (offered listing)))) := rfl
  rw [draft, bind_of_ok listed, ← offered, bind_of_ok noted]
  rcases answered : answer (offered listing) with e | edited?
  · rfl
  rw [bind_of_ok (ofExcept_eq_ok.mpr ⟨rfl, rfl⟩)]
  cases edited? with
  | none => rfl
  | some edited =>
    dsimp only [Except.map, planned]
    rw [filter_isEffective]
    split <;> rfl

theorem carryOut_of_lists (answer : List String → Except Failure (Option (List String)))
    (lists : Git.Lists commit.root commit.sha listing s u) :
    Grows (fun e => e.isAsking = false) (u.log (.asked commit (.plan (offered listing))))
      ((rebase answer).carryOut commit s).2 := by
  rw [carryOut_eq, bind_apply, draft_of_lists lists]
  rcases answer (offered listing) with e | edited?
  · exact refl_of _ _
  dsimp only [Except.map]
  cases planned edited? with
  | none => exact refl_of _ _
  | some plan =>
    have quiet : Keeps (Grows fun e => e.isAsking = false)
        (Git.rebase commit.root commit.sha plan) := grows_rebase (fun _ _ => rfl) _ _ _
    exact (quiet.bind fun _ => keeps_pure true) _

theorem planned_of_silent {edited? : Option (List String)}
    (silent : ∀ edited, edited? = some edited → ∀ line ∈ edited, ¬ Tells line) :
    planned edited? = none := by
  cases edited? with
  | none => rfl
  | some edited =>
    have empty : edited.filter (Tells ·) = [] := by
      rw [List.filter_eq_nil_iff]
      exact fun line hl => by simpa using silent edited rfl line hl
    exact if_pos empty

theorem carryOut_of_silent {edited? : Option (List String)}
    (lists : Git.Lists commit.root commit.sha listing s u)
    (answered : answer (offered listing) = .ok edited?)
    (silent : ∀ edited, edited? = some edited → ∀ line ∈ edited, ¬ Tells line) :
    (rebase answer).carryOut commit s =
      (.ok false, u.log (.asked commit (.plan (offered listing)))) := by
  have drafted : draft (rebase answer) commit s =
      (.ok none, u.log (.asked commit (.plan (offered listing)))) := by
    rw [draft_of_lists lists, answered, Except.map, planned_of_silent silent]
  rw [carryOut_eq, bind_of_ok drafted]
  rfl

/-- The user is asked about the picks of the commits that git has listed. -/
theorem asked_of_carryOut {c : Commit} {prompt : Prompt} {earlier : List Event}
    (noted : .asked c prompt :: earlier <:+ ((rebase answer).carryOut commit s).2.journal)
    (since : s.journal <:+ earlier) :
    ∃ listing u, Git.Lists commit.root commit.sha listing s u ∧ c = commit ∧
      prompt = .plan (offered listing) ∧ earlier = u.journal := by
  have listing := Git.asks_commitsFrom commit.root commit.sha s
  rcases hl : Git.commitsFrom commit.root commit.sha s with ⟨e | shas, u⟩
  all_goals
    rw [hl] at listing
    have above : ¬ .asked c prompt :: earlier <:+ u.journal := fun h => by
      simpa [Event.isQuery] using listing.of_suffix h since
  · have failed : (rebase answer).carryOut commit s = (.error e, u) := bind_of_error hl
    rw [failed] at noted
    exact absurd noted above
  · obtain ⟨listing, lists, -⟩ := Git.commitsFrom_eq_ok.mp hl
    have grows := carryOut_of_lists answer lists
    rcases suffix_of_cons_suffix noted grows.suffix with inside | after
    · rcases List.suffix_cons_iff.mp inside with same | below
      · obtain ⟨asked, rfl⟩ := List.cons.inj same
        obtain ⟨rfl, rfl⟩ := Event.asked.inj asked
        exact ⟨listing, u, lists, rfl, rfl, rfl⟩
      · exact absurd below above
    · simpa [Event.isAsking] using grows.of_suffix noted after

/-- The course of an interactive rebase from `s` up to its call: git lists the commits, the user
edits the picks and leaves a line that tells something, and git names the parents of the selected
commit. -/
structure Replay (answer : List String → Except Failure (Option (List String)))
    (commit : Commit) (s : Shell) where
  listing : String
  edited : List String
  full : String
  parents : List String
  /-- The states after the commits have been listed and after the parents have been named. -/
  listed : Shell
  ready : Shell
  lists : Git.Lists commit.root commit.sha listing s listed
  answered : answer (offered listing) = .ok (some edited)
  tells : edited.filter (Tells ·) ≠ []
  named : Git.parents commit.root commit.sha
    (listed.log (.asked commit (.plan (offered listing)))) = (.ok (full, parents), ready)

namespace Replay

variable (a : Replay answer commit s)

def plan : Plan := (a.edited.filter (Tells ·)).map .text

def call : Call := Git.rebaseCall commit.root a.parents a.plan

theorem render_plan :
    a.plan.render = String.join ((a.edited.filter (Tells ·)).map (· ++ "\n")) := by
  rw [Plan.render, plan, List.map_map]
  rfl

theorem isReady : Ready (.rebase answer) commit s a.plan a.parents a.ready := by
  refine ⟨?_, a.named⟩
  rw [draft_of_lists a.lists, a.answered]
  simp only [Except.map, planned, if_neg a.tells]
  rfl

end Replay

theorem replay_of_ready {plan : Plan} {parents : List String}
    (h : Ready (.rebase answer) commit s plan parents u) :
    ∃ a : Replay answer commit s, a.plan = plan ∧ a.parents = parents ∧ a.ready = u := by
  obtain ⟨drafted, named⟩ := h
  obtain ⟨shas, v, hl, -⟩ := bind_eq_ok.mp drafted
  obtain ⟨listing, lists, -⟩ := Git.commitsFrom_eq_ok.mp hl
  rw [draft_of_lists lists] at drafted
  obtain ⟨came, rfl⟩ := Prod.mk.inj drafted
  rcases answered : answer (offered listing) with e | _ | edited
  · rw [answered] at came
    cases came
  · rw [answered] at came
    cases came
  · simp only [answered, Except.map, planned] at came
    split at came
    · cases came
    · next tells =>
      obtain rfl := Option.some.inj (Except.ok.inj came)
      exact ⟨⟨listing, edited, _, _, _, _, lists, answered, tells, named⟩, rfl, rfl, rfl⟩

section Perform

variable {ι : Type} {compute : Compute ι} {w t : Workspace ι}

/-- An interactive rebase that the gate has allowed offers the picks of the commits as git has
listed them. The text of the plan that git gets is what the user has made of them, line by line,
without blank lines and comments. If no line is left, git gets no plan and the answer is no. If
the rebase ends well, the answer is yes. -/
theorem replays_as_edited (answer : List String → Except Failure (Option (List String)))
    (allowed : Gate.attemptEdit compute [commit] Action.rebase.failureTitle w = (.ok true, t)) :
    let r := (rebase answer).perform compute [commit] w
    let picks listing := (Git.readShas listing).map ("pick " ++ ·)
    (∀ c prompt earlier, .asked c prompt :: earlier <:+ r.2.shell.journal →
      t.shell.journal <:+ earlier →
      ∃ listing u, Git.Lists commit.root commit.sha listing t.shell u ∧ c = commit ∧
        prompt = .plan (picks listing) ∧ earlier = u.journal) ∧
    (∀ c started earlier, .called c started :: earlier <:+ r.2.shell.journal →
      t.shell.journal <:+ earlier → c.rewrites = true →
      ∃ a : Replay answer commit t.shell, earlier = a.ready.journal ∧
        c.args = ["rebase", "-i", a.parents.head?.getD "--root"] ∧ c.dir = commit.root ∧
        c.plan.map Plan.render =
          some (String.join ((a.edited.filter (Tells ·)).map (· ++ "\n")))) ∧
    (∀ listing u edited?, Git.Lists commit.root commit.sha listing t.shell u →
      answer (picks listing) = .ok edited? →
      .asked commit (.plan (picks listing)) :: u.journal <:+ r.2.shell.journal ∧
        ((∀ edited, edited? = some edited → ∀ line ∈ edited, ¬ Tells line) →
          r.1 = .ok false ∧ r.2.shell.journal =
            .invalidated (some commit.root) :: .asked commit (.plan (picks listing)) ::
              u.journal)) ∧
    ∀ a : Replay answer commit t.shell,
      .called a.call (a.ready.git a.ready.past a.call).started :: a.ready.journal <:+
        r.2.shell.journal ∧
      ∀ out err, a.ready.git a.ready.past a.call = .ended 0 out err →
        (decode out).isSome = true → (decode err).isSome = true → r.1 = .ok true := by
  intro r picks
  have allowed : Gate.attemptEdit compute [commit] (rebase answer).action.failureTitle w =
      (.ok true, t) := allowed
  have done : r = (Edit.answer ((rebase answer).carryOut commit t.shell).1, _) :=
    perform_of_allowed allowed
  have journal : r.2.shell.journal = _ := perform_journal allowed
  have carried : ((rebase answer).carryOut commit t.shell).2.journal <:+ r.2.shell.journal := by
    rw [journal, ← List.cons_append]
    exact List.suffix_append _ _
  refine ⟨?asked, ?called, ?ended, ?rebased⟩
  case asked =>
    intro c prompt earlier noted since
    exact asked_of_carryOut (suffix_carryOut allowed noted rfl rfl) since
  case called =>
    intro c started earlier noted since rewrites
    obtain ⟨plan, parents, u, ready, rfl, rfl⟩ :=
      rewrite_of_allowed allowed noted since rewrites
    obtain ⟨a, rfl, rfl, rfl⟩ := replay_of_ready ready
    exact ⟨a, rfl, rfl, rfl, congrArg some a.render_plan⟩
  case ended =>
    intro listing u edited? lists answered
    refine ⟨(carryOut_of_lists answer lists).suffix.trans carried, fun silent => ?_⟩
    have stopped : (rebase answer).carryOut commit t.shell =
        (.ok false, u.log (.asked commit (.plan (picks listing)))) :=
      carryOut_of_silent lists answered silent
    rw [stopped] at done journal
    exact ⟨congrArg Prod.fst done, journal⟩
  case rebased =>
    intro a
    have run := a.isReady.carryOut
    rw [bind_pure_apply] at run
    rw [run] at carried done
    refine ⟨(Git.grows_runPlan a.call a.ready).suffix.trans carried, ?_⟩
    intro out err reply readOut readErr
    obtain ⟨text, readOut⟩ := Option.isSome_iff_exists.mp readOut
    obtain ⟨warnings, readErr⟩ := Option.isSome_iff_exists.mp readErr
    have ran : Git.runPlan a.call a.ready = (.ok (), after a.call a.ready) :=
      Git.runPlan_eq_ok.mpr ⟨out, err, text, warnings, reply, readOut, readErr, rfl⟩
    rw [Replay.call] at ran
    rw [done, ran]
    rfl

end Perform

/-- A user who turns the picks around and writes a comment and a blank line above them. -/
def turnAround (picks : List String) : Except Failure (Option (List String)) :=
  .ok (some ("  # oldest last" :: "\t" :: picks.reverse))

theorem replays_as_edited_turned :
    let attempt := Gate.attemptEdit Workspace.compute [Session.topCommit]
      Action.rebase.failureTitle (listingWorkspace "c\nd\n")
    let r := (rebase turnAround).perform Workspace.compute [Session.topCommit]
      (listingWorkspace "c\nd\n")
    r.1 = .ok true ∧ ∃ a : Replay turnAround Session.topCommit attempt.2.shell,
      r.2.shell.journal.drop 2 = a.ready.journal ∧
      String.join ((a.edited.filter (Tells ·)).map (· ++ "\n")) = "pick d\npick c\n" := by
  intro attempt r
  have allowed : attempt = (.ok true, attempt.2) := rfl
  have noted : .called (Git.rebaseCall "/work" ["p"] [.text "pick d", .text "pick c"]) true ::
      r.2.shell.journal.drop 2 <:+ r.2.shell.journal := ⟨[.invalidated (some "/work")], rfl⟩
  have since : attempt.2.shell.journal <:+ r.2.shell.journal.drop 2 := List.nil_suffix
  obtain ⟨a, earlier, -, -, text⟩ :=
    (replays_as_edited turnAround allowed).2.1 _ _ _ noted since rfl
  exact ⟨rfl, a, earlier, (Option.some.inj text).symm.trans rfl⟩

end Edit

end HistoryGuard
