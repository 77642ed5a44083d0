import HistoryGuard.Proofs.Edit.Reword
import HistoryGuard.Proofs.Edit.Replay
import HistoryGuard.Window.Dialog

/-! # Accepting a dialog unchanged

A user who accepts a dialog as it is hands over what the dialog holds. A message is then the old
one, and a plan picks the commits as git has listed them.
-/

namespace HistoryGuard

open Run Shell

namespace Git

theorem tight_of_mem_readShas {out sha : String} (h : sha ∈ readShas out) : Text.Tight sha := by
  obtain ⟨listed, ne⟩ := List.mem_filter.mp h
  obtain ⟨line, -, rfl⟩ := List.mem_map.mp listed
  exact ⟨by simpa using ne, Text.strip_strip line, unbroken_of_mem_readShas h⟩

end Git

namespace Dialog.Response

/-- The user accepts what the dialog holds. -/
def unchanged : Response := {}

theorem message_unchanged (printed : String) :
    unchanged.message (Text.strip printed) = some (Text.strip printed) :=
  congrArg some (Text.strip_strip printed)

theorem plan_unchanged {lines : List String} (h : ∀ l ∈ lines, Text.Tight l) :
    unchanged.plan lines = some lines := by
  have held : unchanged.edited (.plan lines) = some (Text.strip ("\n".intercalate lines)) := rfl
  rw [plan, held, Text.strip_intercalate h, Option.map_some, Text.lines_intercalate h]

end Dialog.Response

namespace Edit

open Dialog.Response

theorem toList_pickLine (sha : String) :
    (pickLine sha).toList = "pick".toList ++ [' '] ++ sha.toList := by
  rw [pickLine, String.toList_append]
  rfl

theorem tight_pickLine {sha : String} (h : Text.Tight sha) : Text.Tight (pickLine sha) := by
  have text := toList_pickLine sha
  refine ⟨?_, ?_, ?_⟩
  · rw [← String.toList_inj.ne, text]
    simp
  · rw [Text.strip, text, Text.trim_append_append _ (by decide) h.trim_eq (by decide) h.toList_ne,
      ← text, String.ofList_toList]
  · rw [text]
    exact Text.Unbroken.append (by decide) h.unbroken

theorem tells_pickLine (sha : String) : Tells (pickLine sha) := by
  rw [← isEffective_iff, isEffective, toList_pickLine]
  rfl

theorem tight_of_mem_offered {listing line : String} (h : line ∈ offered listing) :
    Text.Tight line := by
  obtain ⟨sha, listed, rfl⟩ := List.mem_map.mp h
  exact tight_pickLine (Git.tight_of_mem_readShas listed)

variable {commit : Commit} {s u : Shell} {shas parents : List String} {plan : Plan}

theorem planned_pickLines (shas : List String) :
    planned (some (shas.map pickLine)) = if shas = [] then none else some (shas.map pick) := by
  have kept : (shas.map pickLine).filter (Tells ·) = shas.map pickLine := by
    rw [List.filter_eq_self]
    intro line hl
    obtain ⟨sha, -, rfl⟩ := List.mem_map.mp hl
    exact decide_eq_true (tells_pickLine sha)
  rw [planned, kept]
  cases shas with
  | nil => rfl
  | cons sha shas => simp [pick]

theorem draft_rebase_unchanged
    (listed : Git.commitsFrom commit.root commit.sha s = (.ok shas, u)) :
    draft (unchanged.edit .rebase) commit s =
      (.ok (if shas = [] then none else some (shas.map pick)),
        u.log (.asked commit (.plan (shas.map pickLine)))) := by
  obtain ⟨listing, lists, rfl⟩ := Git.commitsFrom_eq_ok.mp listed
  have accepted : unchanged.plan (offered listing) = some (offered listing) :=
    plan_unchanged fun _ => tight_of_mem_offered
  have drafted : draft (unchanged.edit .rebase) commit s = _ := draft_of_lists lists
  rw [accepted, Except.map, offered, planned_pickLines] at drafted
  exact drafted

theorem lines_render_picks (listed : Git.commitsFrom commit.root commit.sha s = (.ok shas, u)) :
    Text.lines (Plan.render (shas.map pick)) = shas.map pickLine := by
  obtain ⟨listing, -, rfl⟩ := Git.commitsFrom_eq_ok.mp listed
  have rendered : ((Git.readShas listing).map pick).map PlanLine.render = offered listing :=
    List.map_map
  rw [lines_render, rendered, offered]
  intro line hl
  exact (tight_of_mem_offered (rendered ▸ List.mem_map_of_mem hl)).unbroken

/-- Without a new message there is no plan that rewords. -/
theorem not_ready_reword_unchanged : ¬ Ready (unchanged.edit .reword) commit s plan parents u := by
  intro ready
  obtain ⟨a, -⟩ := rewording_of_ready ready
  have answered : unchanged.message (Text.strip a.printed) = some a.message :=
    Except.ok.inj a.answered
  rw [message_unchanged] at answered
  exact a.changed (Option.some.inj answered).symm

/-- The course of an interactive rebase without a change: git lists some commits, and names the
parents of the selected one after the user has been asked about them. -/
structure Unedited (commit : Commit) (s : Shell) (shas parents : List String) (u : Shell) :
    Prop where
  ne : shas ≠ []
  course : ∃ listed full, Git.commitsFrom commit.root commit.sha s = (.ok shas, listed) ∧
    Git.parents commit.root commit.sha (listed.log (.asked commit (.plan (shas.map pickLine)))) =
      (.ok (full, parents), u)

theorem ready_rebase_unchanged_iff :
    Ready (unchanged.edit .rebase) commit s plan parents u ↔
      ∃ shas, plan = shas.map pick ∧ Unedited commit s shas parents u := by
  constructor
  · rintro ⟨drafted, named⟩
    obtain ⟨shas, listed, hl, -⟩ := bind_eq_ok.mp drafted
    rw [draft_rebase_unchanged hl] at drafted
    obtain ⟨came, rfl⟩ := Prod.mk.inj drafted
    split at came
    · cases came
    · next ne =>
      obtain rfl := Option.some.inj (Except.ok.inj came)
      exact ⟨shas, rfl, ne, listed, _, hl, named⟩
  · rintro ⟨shas, rfl, ne, listed, full, hl, named⟩
    refine ⟨?_, named⟩
    rw [draft_rebase_unchanged hl, if_neg ne]

section Perform

variable {ι : Type}

/-- A dialog that is accepted as it is hands over what it was given: a message without blank ends
as it is, and the picks of the listed commits line by line. A rewording then answers no and does
not rewrite history. An interactive rebase picks the commits as git has listed them, and rewrites
nothing if git has listed none. -/
theorem unchanged_faithful (compute : Compute ι) (commit : Commit) (w : Workspace ι) :
    (∀ printed, unchanged.message (Text.strip printed) = some (Text.strip printed)) ∧
    (∀ listing, unchanged.plan ((Git.readShas listing).map ("pick " ++ ·)) =
      some ((Git.readShas listing).map ("pick " ++ ·))) ∧
    (let gate := Gate.attemptEdit compute [commit] Action.reword.failureTitle w
     let r := (unchanged.edit .reword).perform compute [commit] w
     r.1 ≠ .ok true ∧
      (∀ c started earlier, .called c started :: earlier <:+ r.2.shell.journal →
        gate.2.shell.journal <:+ earlier → c.rewrites = false) ∧
      ∀ printed told, gate.1 = .ok true →
        output commit.root ["log", "-1", "--format=%B", commit.sha] gate.2.shell =
          (.ok printed, told) →
        r.1 = .ok false ∧
          r.2.shell.journal = .invalidated (some commit.root) ::
            .asked commit (.message (Text.strip printed)) :: told.journal) ∧
    let gate := Gate.attemptEdit compute [commit] Action.rebase.failureTitle w
    let r := (unchanged.edit .rebase).perform compute [commit] w
    (∀ c started earlier, .called c started :: earlier <:+ r.2.shell.journal →
      gate.2.shell.journal <:+ earlier → c.rewrites = true →
      gate.1 = .ok true ∧ ∃ shas parents u, Unedited commit gate.2.shell shas parents u ∧
        c = Git.rebaseCall commit.root parents (shas.map pick) ∧ earlier = u.journal) ∧
    (∀ shas parents u, gate.1 = .ok true → Unedited commit gate.2.shell shas parents u →
      let call := Git.rebaseCall commit.root parents (shas.map pick)
      .called call (u.git u.past call).started :: u.journal <:+ r.2.shell.journal ∧
        call.plan.map (Text.lines ·.render) = some (shas.map ("pick " ++ ·))) ∧
    ∀ listed, gate.1 = .ok true →
      Git.commitsFrom commit.root commit.sha gate.2.shell = (.ok [], listed) →
      r.1 = .ok false ∧ r.2.shell.journal = .invalidated (some commit.root) ::
        .asked commit (.plan []) :: listed.journal := by
  refine ⟨message_unchanged, fun listing => plan_unchanged fun _ => tight_of_mem_offered, ?reword,
    ?rebase⟩
  case reword =>
    intro gate r
    refine ⟨fun done => ?_, fun c started earlier noted since => ?_, ?_⟩
    · obtain ⟨_, _, -, -, _, _, _, ready, -⟩ := perform_eq_true (eq_of_fst done)
      exact not_ready_reword_unchanged ready
    · rw [← Bool.not_eq_true]
      intro rewrites
      obtain ⟨_, _, -, -, _, _, _, ready, -⟩ := rewrite_of_perform noted since rewrites
      exact not_ready_reword_unchanged ready
    · intro printed told allowed read
      have kept := message_unchanged printed
      exact perform_of_no_plan (eq_of_fst allowed)
        (draft_of_unchanged read (.inr (by rw [kept])))
  case rebase =>
    intro gate r
    refine ⟨?_, ?_, ?_⟩
    · intro c started earlier noted since rewrites
      obtain ⟨_, t, single, allowed, plan, parents, u, ready, rfl, rfl⟩ :=
        rewrite_of_perform noted since rewrites
      obtain rfl := List.singleton_inj.mp single
      obtain rfl : gate.2 = t := congrArg Prod.snd allowed
      obtain ⟨shas, rfl, unedited⟩ := ready_rebase_unchanged_iff.mp ready
      exact ⟨congrArg Prod.fst allowed, shas, parents, u, unedited, rfl, rfl⟩
    · intro shas parents u allowed unedited call
      have ready := ready_rebase_unchanged_iff.mpr ⟨shas, rfl, unedited⟩
      obtain ⟨-, listed, full, hl, -⟩ := unedited
      exact ⟨called_of_ready (eq_of_fst allowed) ready, congrArg some (lines_render_picks hl)⟩
    · intro listed allowed none
      exact perform_of_no_plan (eq_of_fst allowed) (draft_rebase_unchanged none)

end Perform

theorem unchanged_faithful_listed :
    let accept action listing := (unchanged.edit action).perform Workspace.compute
      [Session.topCommit] (listingWorkspace listing)
    (accept .reword "c\nd\n").1 = .ok false ∧
    (∃ earlier, .called (Git.rebaseCall "/work" ["p"] [pick "c", pick "d"]) true :: earlier <:+
      (accept .rebase "c\nd\n").2.shell.journal) ∧
    (accept .rebase "").1 = .ok false := by
  intro accept
  obtain ⟨-, -, ⟨-, -, kept⟩, -, picked, -⟩ :=
    unchanged_faithful Workspace.compute Session.topCommit (listingWorkspace "c\nd\n")
  obtain ⟨-, -, -, -, -, nothing⟩ :=
    unchanged_faithful Workspace.compute Session.topCommit (listingWorkspace "")
  have called := picked ["c", "d"] ["p"] _ rfl ⟨by decide, _, _, rfl, rfl⟩
  exact ⟨(kept "m\n" _ rfl rfl).1, ⟨_, called.1⟩, (nothing _ rfl rfl).1⟩

end Edit

end HistoryGuard
