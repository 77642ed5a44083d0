import HistoryGuard.Git.Refs
import HistoryGuard.Proofs.Git.Snapshot
import HistoryGuard.Proofs.Shell

/-! # Git answers by a snapshot

If git prints what a snapshot says, then the questions to git are answered as the snapshot says.
-/

namespace HistoryGuard

open Run Shell Text

/-- Git always ends this call with this status and prints this text. -/
def Prints (git : Git) (c : Call) (status : Int) (text : String) : Prop :=
  ∀ past, ∃ out err warnings, git past c = .ended status out err ∧
    decode out = some text ∧ decode err = some warnings

abbrev Shell.Has (git : Git) (s : Shell) : Prop := s.git = git

variable {git : Git} {c : Call} {status : Int} {text : String}

theorem Prints.finished (h : Prints git c status text) (past : List Call) :
    ∃ warnings, Shell.finished (git past c) = .ok ⟨status, text, warnings⟩ := by
  obtain ⟨out, err, warnings, hr, ho, he⟩ := h past
  exact ⟨warnings, by rw [hr, Shell.finished, ho, he]⟩

theorem Prints.complete (h : Prints git c status text) :
    Meets (Has git) (complete c) fun f s => (f.status = status ∧ f.out = text) ∧ Has git s := by
  rintro s rfl
  obtain ⟨warnings, hf⟩ := h.finished s.past
  refine ⟨⟨status, text, warnings⟩, (call c s).2, ?_, ⟨rfl, rfl⟩, rfl⟩
  show (Shell.finished (s.git s.past c), (call c s).2) = _
  rw [hf]

theorem Prints.output {dir : String} {args : List String}
    (h : Prints git { args, dir } 0 text) : Gives (Has git) (output dir args) text (Has git) := by
  rintro s rfl
  obtain ⟨out, err, warnings, hr, ho, he⟩ := h s.past
  exact ⟨text, _, output_of_printed hr ho he, rfl, rfl⟩

namespace Snapshot

/-- Git answers the questions of a check in the directory `dir` for the commit called `arg`. -/
structure Answered (s : Snapshot) (git : Git) (dir arg : String) : Prop where
  around : Prints git { args := ["rev-parse", "--show-toplevel"], dir } 0 (s.root ++ "\n")
  top : Prints git { args := ["rev-parse", "--show-toplevel"], dir := s.root } 0 (s.root ++ "\n")
  parents : Prints git
    { args := ["rev-list", "--parents", "-n", "1", arg, "--"], dir := s.root } 0
    (" ".intercalate ((s.sha :: s.parents).map (·.text)) ++ "\n")
  branches : Prints git
    { args := ["branch", "-a", "--format=%(refname) %(symref)", "--contains=" ++ s.sha.text]
      dir := s.root } 0 s.branchListing
  onBranch : ∀ branch, s.head = .on branch →
    Prints git { args := ["symbolic-ref", "--short", "-q", "HEAD"], dir := s.root } 0
      (branch.text ++ "\n")
  detached : ∀ reaches label, s.head = .detached reaches label →
    ∃ text, Prints git { args := ["symbolic-ref", "--short", "-q", "HEAD"], dir := s.root } 1 text
  ancestor : ∀ reaches label, s.head = .detached reaches label →
    ∃ text, Prints git
      { args := ["merge-base", "--is-ancestor", s.sha.text, "HEAD"], dir := s.root }
      (if reaches then 0 else 1) text
  remotes : Prints git { args := ["remote"], dir := s.root } 0
    (String.join ((s.remotes.map (·.text)).map (· ++ "\n")))
  refs : Prints git
    { args := ["for-each-ref", "--format=%(refname) %(symref)", "refs/remotes"], dir := s.root } 0
    s.trackingListing

variable {s : Snapshot} {dir arg : String}

theorem gives_topLevel_of {dir : String} (h : Prints git
    { args := ["rev-parse", "--show-toplevel"], dir } 0 (s.root ++ "\n")) :
    Gives (Has git) (Git.topLevel dir) s.root (Has git) := by
  have read : Path.normalise (strip (s.root ++ "\n")) = s.root := by
    rw [strip_append_newline, s.bare, s.normal]
  apply h.output.bind
  show Meets _ (pure (Path.normalise (strip (s.root ++ "\n")))) _
  rw [read]
  exact gives_pure _

variable (h : s.Answered git dir arg)

include h

theorem Answered.gives_parents :
    Gives (Has git) (Git.parents s.root arg) (s.sha.text, s.parents.map (·.text)) (Has git) := by
  apply h.parents.output.bind
  rw [fields_intercalate]
  exact gives_pure _

theorem Answered.gives_commit :
    Gives (Has git) (Git.commit dir arg) ⟨s.sha.text, s.root, s.parents.map (·.text)⟩ (Has git) :=
  (gives_topLevel_of h.around).bind (h.gives_parents.bind (gives_pure _))

theorem Answered.gives_currentBranch :
    Gives (Has git) (Git.currentBranch s.root) s.current (Has git) := by
  unfold current
  cases hh : s.head with
  | on branch =>
    apply (h.onBranch branch hh).complete.bind
    rintro f t ⟨⟨zero, out⟩, has⟩
    refine gives_ofExcept ?_ t has
    rw [Git.readCurrentBranch, if_pos zero, out, strip_append_newline, strip_of_solid branch.solid]
  | detached reaches label =>
    obtain ⟨text, printed⟩ := h.detached reaches label hh
    apply printed.complete.bind
    rintro f t ⟨⟨one, -⟩, has⟩
    refine gives_ofExcept ?_ t has
    rw [Git.readCurrentBranch, if_neg (by rw [one]; decide), if_pos one]

theorem Answered.gives_isAncestor {reaches : Bool} {label : Option Label}
    (hh : s.head = .detached reaches label) :
    Gives (Has git) (Git.isAncestor s.root s.sha.text Git.head) reaches (Has git) := by
  obtain ⟨text, printed⟩ := h.ancestor reaches label hh
  apply printed.complete.bind
  rintro f t ⟨⟨status, -⟩, has⟩
  refine gives_ofExcept ?_ t has
  cases reaches with
  | true =>
    have zero : f.status = 0 := status
    rw [Git.readIsAncestor, if_pos zero]
  | false =>
    have one : f.status = 1 := status
    rw [Git.readIsAncestor, if_neg (by rw [one]; decide), if_pos one]

theorem Answered.gives_containing :
    Gives (Has git) (Git.containing s.root s.sha.text) (.ofList s.containing) (Has git) := by
  apply h.branches.output.bind
  rw [Git.listedBranches_listing]
  apply h.gives_currentBranch.bind
  unfold current containing
  cases hh : s.head with
  | on branch =>
    -- no local branch is called like a detached head
    have name : branch.text ≠ Git.head := by
      obtain ⟨m, hm, hr⟩ := s.onListed branch hh
      exact s.noHead m hm branch hr
    dsimp only
    rw [if_neg name]
    exact (gives_pure false).bind (gives_pure _)
  | detached reaches label =>
    dsimp only
    rw [if_pos rfl]
    apply (h.gives_isAncestor hh).bind
    cases reaches with
    | true => exact gives_pure _
    | false => exact gives_pure _

theorem Answered.gives_remoteBranches :
    Gives (Has git) (Git.remoteBranches s.root) s.remoteBranches (Has git) := by
  apply h.remotes.output.bind
  apply h.refs.output.bind
  rw [fields_join, Git.listedRemoteBranches_listing]
  exact gives_pure _

end Snapshot

end HistoryGuard
