import Mathlib.Data.List.Count
import Mathlib.Data.List.Duplicate
import Mathlib.Data.List.NodupEquivFin
import HistoryGuard.Proofs.Edit.Plan
import HistoryGuard.Proofs.Git.Reception
import HistoryGuard.Proofs.Text.Listing

/-! # Rewording

A rewording picks every commit that git has listed and amends the selected one as soon as it is
picked.
-/

namespace HistoryGuard

open Run Shell

namespace Git

theorem unbroken_of_mem_readShas {out sha : String} (h : sha ∈ readShas out) :
    Text.Unbroken sha.toList := by
  obtain ⟨line, hl, rfl⟩ := List.mem_map.mp (List.mem_filter.mp h).1
  intro c hc
  rw [Text.toList_strip] at hc
  exact Text.unbroken_of_mem_lines hl c (Text.trim_subset _ hc)

end Git

theorem PlanLine.message?_eq_some {line : PlanLine} {m : String} :
    line.message? = some m ↔ line = .amend m := by
  cases line <;> simp [message?]

theorem existsUnique_getElem?_iff {α : Type} [DecidableEq α] {l : List α} {a : α} :
    (∃! i : Nat, l[i]? = some a) ↔ l.count a = 1 := by
  have once : l.count a = 1 ↔ a ∈ l ∧ ¬ l.Duplicate a := by
    rw [List.duplicate_iff_two_le_count, ← List.count_pos_iff]
    omega
  rw [once, List.duplicate_iff_exists_distinct_get, List.mem_iff_getElem?]
  constructor
  · rintro ⟨i, hi, only⟩
    refine ⟨⟨i, hi⟩, ?_⟩
    rintro ⟨n, m, lt, hn, hm⟩
    have := only n (by simp [hn])
    have := only m (by simp [hm])
    omega
  · rintro ⟨⟨i, hi⟩, distinct⟩
    refine ⟨i, hi, fun j hj => ?_⟩
    obtain ⟨li, hi⟩ := List.getElem?_eq_some_iff.mp hi
    obtain ⟨lj, hj⟩ := List.getElem?_eq_some_iff.mp hj
    rcases Nat.lt_trichotomy j i with lt | rfl | lt
    · exact absurd ⟨⟨j, lj⟩, ⟨i, li⟩, lt, hj.symm, hi.symm⟩ distinct
    · rfl
    · exact absurd ⟨⟨i, li⟩, ⟨j, lj⟩, lt, hi.symm, hj.symm⟩ distinct

namespace Edit

def pick (sha : String) : PlanLine := .text (pickLine sha)

theorem pick_injective : Function.Injective pick := by
  intro sha sha' h
  exact (String.append_right_inj "pick ").mp (PlanLine.text.inj h)

@[simp] theorem pick_ne_amend (sha m : String) : pick sha ≠ .amend m := PlanLine.noConfusion

@[simp] theorem amend_ne_pick (m sha : String) : .amend m ≠ pick sha := PlanLine.noConfusion

theorem rewordPlan_cons (target message sha : String) (shas : List String) :
    rewordPlan target message (sha :: shas) =
      (if sha = target then [pick sha, .amend message] else [pick sha]) ++
        rewordPlan target message shas :=
  List.flatMap_cons

/-- The plan picks these commits in order, and gives the target the message as soon as it has
been picked, each time and nowhere else. -/
structure Amends (target message : String) (shas : List String) (plan : Plan) : Prop where
  picks : plan.filter (·.message?.isNone) = shas.map pick
  first : ∀ m, plan[0]? ≠ some (.amend m)
  after : ∀ i m, plan[i + 1]? = some (.amend m) ↔ m = message ∧ plan[i]? = some (pick target)

section Plans

variable {target message : String} {shas : List String} {plan : Plan}

theorem amends_rewordPlan (target message : String) (shas : List String) :
    Amends target message shas (rewordPlan target message shas) := by
  induction shas with
  | nil => exact ⟨rfl, by simp [rewordPlan], by simp [rewordPlan]⟩
  | cons sha shas ih =>
    obtain ⟨picks, first, after⟩ := ih
    rw [rewordPlan_cons]
    by_cases h : sha = target
    · subst h
      rw [if_pos rfl]
      constructor
      · rw [List.filter_append, picks]
        rfl
      · simp
      · rintro (_ | _ | i) m
        · simp [eq_comm]
        · simp [first]
        · simpa using after i m
    · rw [if_neg h]
      constructor
      · rw [List.filter_append, picks]
        rfl
      · simp
      · rintro (_ | i) m
        · simp [first, pick_injective.ne h]
        · simpa using after i m

namespace Amends

variable (h : Amends target message shas plan)
include h

theorem message_eq {m : String} (hm : .amend m ∈ plan) : m = message := by
  obtain ⟨i, hi⟩ := List.mem_iff_getElem?.mp hm
  cases i with
  | zero => exact absurd hi (h.first m)
  | succ i => exact ((h.after i m).mp hi).1

theorem count_pick (sha : String) : plan.count (pick sha) = shas.count sha := by
  rw [← List.count_map_of_injective shas pick pick_injective, ← h.picks, List.count_filter rfl]

theorem amend_mem_iff : .amend message ∈ plan ↔ target ∈ shas := by
  rw [← List.count_pos_iff (l := shas), ← h.count_pick, List.count_pos_iff, List.mem_iff_getElem?,
    List.mem_iff_getElem?]
  constructor
  · rintro ⟨_ | i, hi⟩
    · exact absurd hi (h.first message)
    · exact ⟨i, ((h.after i message).mp hi).2⟩
  · rintro ⟨i, hi⟩
    exact ⟨i + 1, (h.after i message).mpr ⟨rfl, hi⟩⟩

theorem message?_eq : plan.message? = if target ∈ shas then some message else none := by
  cases hm : plan.message? with
  | none =>
    rw [Plan.message?, List.findSome?_eq_none_iff] at hm
    rw [if_neg]
    intro listed
    exact absurd (hm _ (h.amend_mem_iff.mpr listed)) (by simp [PlanLine.message?])
  | some m =>
    obtain ⟨line, hl, named⟩ := List.exists_of_findSome?_eq_some hm
    obtain rfl := PlanLine.message?_eq_some.mp named
    obtain rfl := h.message_eq hl
    rw [if_pos (h.amend_mem_iff.mp hl)]

/-- The pick of the target and the amend after it stand in the plan exactly once if the target is
listed exactly once. -/
theorem existsUnique_iff :
    (∃! i, plan[i]? = some (pick target) ∧ plan[i + 1]? = some (.amend message)) ↔
      shas.count target = 1 := by
  rw [← h.count_pick, ← existsUnique_getElem?_iff]
  simp [h.after]

end Amends

theorem unbroken_amend (m : String) : Text.Unbroken (PlanLine.amend m).render.toList := by
  have text : (PlanLine.amend m).render =
      "exec git commit --amend --allow-empty -F \"" ++ PlanLine.messageFile ++ "\"" := rfl
  have begins : Text.Unbroken "exec git commit --amend --allow-empty -F \"".toList := by decide
  have named : Text.Unbroken PlanLine.messageFile.toList := by decide
  rw [text, String.toList_append, String.toList_append]
  exact Text.Unbroken.append (Text.Unbroken.append begins named) (by decide)

theorem unbroken_render (amends : Amends target message shas plan)
    (h : ∀ sha ∈ shas, Text.Unbroken sha.toList) :
    ∀ line ∈ plan, Text.Unbroken line.render.toList := by
  intro line hl
  cases line with
  | amend m => exact unbroken_amend m
  | text l =>
    have picked : .text l ∈ shas.map pick := by
      rw [← amends.picks]
      exact List.mem_filter.mpr ⟨hl, rfl⟩
    obtain ⟨sha, hs, same⟩ := List.mem_map.mp picked
    obtain rfl := PlanLine.text.inj same
    show Text.Unbroken ("pick " ++ sha).toList
    rw [String.toList_append]
    exact Text.Unbroken.append (by decide) (h sha hs)

theorem lines_render (h : ∀ line ∈ plan, Text.Unbroken line.render.toList) :
    Text.lines plan.render = plan.map PlanLine.render := by
  have same : plan.render = String.join ((plan.map PlanLine.render).map (· ++ "\n")) := by
    rw [Plan.render, List.map_map]
    rfl
  rw [same, Text.lines_join]
  intro l hl
  obtain ⟨line, hm, rfl⟩ := List.mem_map.mp hl
  exact h line hm

end Plans

/-- The course of a rewording from `s` up to the call of the rebase: git prints the message, the
user gives another one for it, git lists the commits to be replayed, and git names the parents of
the selected one. -/
structure Rewording (answer : String → Except Failure (Option String)) (commit : Commit)
    (s : Shell) where
  printed : String
  message : String
  listing : String
  full : String
  parents : List String
  /-- The states after the message has been printed, after the commits have been listed, and after
  the parents have been named. -/
  told : Shell
  listed : Shell
  ready : Shell
  read : output commit.root ["log", "-1", "--format=%B", commit.sha] s = (.ok printed, told)
  answered : answer (Text.strip printed) = .ok (some message)
  changed : message ≠ Text.strip printed
  lists : Git.Lists commit.root commit.sha listing
    (told.log (.asked commit (.message (Text.strip printed)))) listed
  named : Git.parents commit.root commit.sha listed = (.ok (full, parents), ready)

variable {answer : String → Except Failure (Option String)} {commit : Commit} {s u : Shell}

def Rewording.shas (a : Rewording answer commit s) : List String := Git.readShas a.listing

theorem rewording_of_ready {plan : Plan} {parents : List String}
    (h : Ready (.reword answer) commit s plan parents u) :
    ∃ a : Rewording answer commit s, a.ready = u ∧ a.parents = parents ∧
      Amends commit.sha a.message a.shas plan := by
  obtain ⟨drafted, named⟩ := h
  obtain ⟨current, s₁, hm, drafted⟩ := bind_eq_ok.mp drafted
  obtain ⟨printed, told, read, hm⟩ := bind_eq_ok.mp hm
  obtain ⟨rfl, rfl⟩ := pure_eq_ok.mp hm
  obtain ⟨_, s₂, noted, drafted⟩ := bind_eq_ok.mp drafted
  obtain ⟨message?, s₃, ha, drafted⟩ := bind_eq_ok.mp drafted
  obtain ⟨answered, rfl⟩ := ofExcept_eq_ok.mp ha
  obtain ⟨-, rfl⟩ := Prod.mk.inj noted
  cases message? with
  | none => simp [pure_eq_ok] at drafted
  | some message =>
    dsimp only at drafted
    split at drafted
    · simp [pure_eq_ok] at drafted
    · next changed =>
      obtain ⟨shas, listed, hl, drafted⟩ := bind_eq_ok.mp drafted
      obtain ⟨planned, rfl⟩ := pure_eq_ok.mp drafted
      obtain ⟨listing, lists, rfl⟩ := Git.commitsFrom_eq_ok.mp hl
      obtain rfl := Option.some.inj planned
      exact ⟨⟨printed, message, listing, _, _, _, _, _, read, answered, changed, lists, named⟩,
        rfl, rfl, amends_rewordPlan ..⟩

theorem draft_of_unchanged {printed : String} {told : Shell}
    (read : output commit.root ["log", "-1", "--format=%B", commit.sha] s = (.ok printed, told))
    (unchanged : answer (Text.strip printed) = .ok none ∨
      answer (Text.strip printed) = .ok (some (Text.strip printed))) :
    draft (.reword answer) commit s =
      (.ok none, told.log (.asked commit (.message (Text.strip printed)))) := by
  have current : Git.message commit.root commit.sha s = (.ok (Text.strip printed), told) := by
    rw [Git.message, bind_of_ok read]
    rfl
  have noted : note (.asked commit (.message (Text.strip printed))) told =
      (.ok (), told.log (.asked commit (.message (Text.strip printed)))) := rfl
  rw [draft, bind_of_ok current, bind_of_ok noted]
  rcases unchanged with none | same
  · rw [none]
    rfl
  · rw [bind_of_ok (ofExcept_eq_ok.mpr ⟨same, rfl⟩)]
    dsimp only
    rw [if_pos rfl]
    rfl

section Perform

variable {ι : Type} {compute : Compute ι}

/-- A rewording that answers yes has run one rebase since the gate allowed it. The plan rewords the
selected commit exactly once if git has listed the commit exactly once, and otherwise does not. -/
theorem reworded_once_iff {answer : String → Except Failure (Option String)}
    {selection : Selection} {w v : Workspace ι}
    (done : (reword answer).perform compute selection w = (.ok true, v)) :
    ∃ commit t, selection = [commit] ∧
      Gate.attemptEdit compute selection Action.reword.failureTitle w = (.ok true, t) ∧
      ∃ (a : Rewording answer commit t.shell) (plan : Plan),
        v.shell.journal = .invalidated (some commit.root) ::
          .called (Git.rebaseCall commit.root a.parents plan) true :: a.ready.journal ∧
        Amends commit.sha a.message a.shas plan ∧
        ((∃! i, plan[i]? = some (pick commit.sha) ∧ plan[i + 1]? = some (.amend a.message)) ↔
          a.shas.count commit.sha = 1) := by
  obtain ⟨commit, t, rfl, allowed, plan, parents, u, ready, journal⟩ := perform_eq_true done
  obtain ⟨a, rfl, rfl, amends⟩ := rewording_of_ready ready
  exact ⟨commit, t, rfl, allowed, a, plan, journal, amends, amends.existsUnique_iff⟩

end Perform

/-- A user who gives the message `n`, whatever the message was. -/
def newMessage : Edit := .reword fun _ => .ok (some "n")

theorem reworded_once_iff_listed :
    let r := newMessage.perform Workspace.compute [Session.topCommit] (listingWorkspace "c\nd\n")
    r.1 = .ok true ∧ ∃ plan,
      r.2.shell.journal[1]? = some (.called (Git.rebaseCall "/work" ["p"] plan) true) ∧
      ∃! i, plan[i]? = some (pick "c") ∧ plan[i + 1]? = some (.amend "n") := by
  intro r
  have done : r = (.ok true, r.2) := rfl
  obtain ⟨commit, t, single, -, a, plan, journal, amends, once⟩ := reworded_once_iff done
  obtain rfl := List.singleton_inj.mp single
  have second : r.2.shell.journal[1]? = some (.called (Git.rebaseCall "/work" ["p"]
      [pick "c", .amend "n", pick "d"]) true) := rfl
  have message : "n" = a.message := Option.some.inj (Except.ok.inj a.answered)
  have noted : r.2.shell.journal[1]? =
      some (.called (Git.rebaseCall Session.topCommit.root a.parents plan) true) := by
    rw [journal]
    rfl
  obtain ⟨call, -⟩ := Event.called.inj (Option.some.inj (noted.symm.trans second))
  obtain rfl := Option.some.inj (congrArg Call.plan call)
  refine ⟨rfl, _, second, ?_⟩
  rw [← message] at once
  apply once.mpr
  rw [← amends.count_pick]
  rfl

/-- Where the head has moved since the containing branches were remembered, a rewording answers
yes although its plan does not reword the commit. -/
theorem reworded_unlisted :
    let r := newMessage.perform Workspace.compute [Session.topCommit] (listingWorkspace "d\n")
    r.1 = .ok true ∧
      r.2.shell.journal[1]? =
        some (.called (Git.rebaseCall "/work" ["p"] [.text "pick d"]) true) ∧
      ∀ c started plan, .called c started ∈ r.2.shell.journal → c.plan = some plan →
        ¬ ∃ i, plan[i]? = some (pick "c") ∧ plan[i + 1]? = some (.amend "n") := by
  intro r
  have journal : r.2.shell.journal.filterMap (·.call?.bind (·.plan)) = [[pick "d"]] := rfl
  refine ⟨rfl, rfl, ?_⟩
  rintro c started plan called planned ⟨i, picked, -⟩
  have member : plan ∈ [[pick "d"]] := by
    rw [← journal]
    exact List.mem_filterMap.mpr ⟨_, called, planned⟩
  obtain rfl := List.mem_singleton.mp member
  have := List.mem_of_getElem? picked
  simp [pick_injective.eq_iff] at this

end Edit

end HistoryGuard
