import HistoryGuard.Gate
import HistoryGuard.Proofs.Containment.Lookup
import HistoryGuard.Proofs.Run

/-! # Approvals

An approval records what the gate has seen when it lets an edit go ahead: the only commit of the
selection, its repository, the branches that contain it, and what was read for the verdict. The
gate allows an edit exactly if there is an approval.
-/

namespace HistoryGuard.Gate

open Run Workspace Containment

variable {ι : Type}

theorem firstProtected_eq_none_iff {policy : Policy} {b : Branches} {remotes : List RemoteBranch} :
    firstProtected policy b remotes = .ok none ↔
      ∀ r ∈ remotes, ∃ covered, policy.covers r.localName = .ok covered ∧
        (covered = true → r.qualifiedName ∉ b) := by
  induction remotes with
  | nil => simp [firstProtected]
  | cons r rest ih =>
    rw [List.forall_mem_cons, ← ih, firstProtected]
    cases policy.covers r.localName with
    | error e => simp [bind, Except.bind]
    | ok covered =>
      cases covered <;> by_cases h : r.qualifiedName ∈ b <;>
        simp [bind, Except.bind, pure, Except.pure, h]

theorem findProtected_eq_none_iff {r : Repository} {b : Branches} {w v : Workspace ι} :
    findProtected r b w = (.ok none, v) ↔
      ∃ remotes, onShell r.remoteBranches w = (.ok remotes, v) ∧
        firstProtected v.policy b remotes = .ok none := by
  simp only [findProtected, bind_eq_ok, read_eq_ok, ofExcept_eq_ok]
  constructor
  · rintro ⟨remotes, u, h, policy, u', ⟨rfl, rfl⟩, hf, rfl⟩
    exact ⟨remotes, h, hf⟩
  · rintro ⟨remotes, h, hf⟩
    exact ⟨remotes, v, h, v.policy, v, ⟨rfl, rfl⟩, hf, rfl⟩

theorem verdict_eq_allowed_iff {r : Repository} {b : Branches} {w v : Workspace ι} :
    verdict r b w = (.ok .allowed, v) ↔
      ∃ current u, onShell r.currentBranch w = (.ok current, u) ∧ current ∈ b ∧
        findProtected r b u = (.ok none, v) := by
  rw [verdict, bind_eq_ok]
  apply exists_congr
  intro current
  apply exists_congr
  intro u
  apply and_congr_right
  intro _
  split
  · next hc =>
    rw [bind_eq_ok]
    constructor
    · rintro ⟨found, t, hf, hv⟩
      cases found with
      | some _ => simp [pure_eq_ok] at hv
      | none =>
        obtain ⟨-, rfl⟩ := pure_eq_ok.mp hv
        exact ⟨hc, hf⟩
    · rintro ⟨-, hf⟩
      exact ⟨none, v, hf, rfl⟩
  · next hc => simp [pure_eq_ok, hc]

inductive Source (compute : Compute ι) (key : Key) (b : Branches) :
    Workspace ι → Workspace ι → Prop
  | cached {w : Workspace ι} (hit : w.cache.get? key = some b) : Source compute key b w w
  | computed {w v : Workspace ι} (miss : w.cache.get? key = none)
      (result : (compute key (begun key w)).1 = .ok b)
      (after : v = (getNow compute key w).2) : Source compute key b w v

theorem containing_eq_ok_iff {compute : Compute ι} {commit : Commit} {b : Branches}
    {w v : Workspace ι} :
    containing compute commit w = (.ok b, v) ↔ Source compute commit.key b w v := by
  rw [containing, bind_eq_ok]
  cases hc : w.cache.get? commit.key with
  | some b' =>
    constructor
    · rintro ⟨cached, u, hr, h⟩
      obtain ⟨rfl, rfl⟩ := read_eq_ok.mp hr
      rw [hc] at h
      obtain ⟨rfl, rfl⟩ := pure_eq_ok.mp h
      exact .cached hc
    · rintro (hit | ⟨miss⟩)
      · exact ⟨some b, w, read_eq_ok.mpr ⟨hit, rfl⟩, rfl⟩
      · simp [hc] at miss
  | none =>
    have hg : (getNow compute commit.key w).1 = (compute commit.key (begun commit.key w)).1 := by
      rw [getNow_of_miss compute hc]
      split <;> simp_all
    constructor
    · rintro ⟨cached, u, hr, h⟩
      obtain ⟨rfl, rfl⟩ := read_eq_ok.mp hr
      rw [hc] at h
      dsimp only at h
      exact .computed hc (by rw [← hg, h]) (by rw [h])
    · rintro (hit | ⟨-, result, rfl⟩)
      · simp [hc] at hit
      · exact ⟨none, w, read_eq_ok.mpr ⟨hc, rfl⟩, Prod.ext (hg.trans result) rfl⟩

/-- What the gate has seen between `w` and `v` when it allows an edit of the selection. -/
structure Approval (compute : Compute ι) (selection : Selection) (w v : Workspace ι) where
  commit : Commit
  repository : Repository
  branches : Branches
  current : String
  remotes : List RemoteBranch
  /-- The states after the repository has been looked up, after the branches are known, and
  after the current branch has been read. -/
  found : Workspace ι
  known : Workspace ι
  read : Workspace ι
  single : selection = [commit]
  oneParent : commit.parentCount = 1
  lookup : repository? commit.root w = (.ok (some repository), found)
  source : Source compute commit.key branches found known
  head : onShell repository.currentBranch known = (.ok current, read)
  inCurrent : current ∈ branches
  listed : onShell repository.remoteBranches read = (.ok remotes, v)
  unprotected : ∀ r ∈ remotes, ∃ covered, v.policy.covers r.localName = .ok covered ∧
    (covered = true → r.qualifiedName ∉ branches)

theorem judge_eq_allowed_iff {compute : Compute ι} {s : Selection} {w v : Workspace ι} :
    judge compute s w = (.ok .allowed, v) ↔ Nonempty (Approval compute s w v) := by
  simp only [judge, bind_eq_ok, ofExcept_eq_ok, Selection.single_eq_ok_iff]
  constructor
  · rintro ⟨commit, _, ⟨hs, rfl⟩, found, u, hr, h⟩
    cases found with
    | none => simp [fail] at h
    | some repository =>
      dsimp only at h
      split at h
      · next hp =>
        obtain ⟨b, t, hb, hv⟩ := bind_eq_ok.mp h
        obtain ⟨current, t', hh, hc, hf⟩ := verdict_eq_allowed_iff.mp hv
        obtain ⟨remotes, hl, hn⟩ := findProtected_eq_none_iff.mp hf
        exact ⟨⟨commit, repository, b, current, remotes, u, t, t', hs, hp, hr,
          containing_eq_ok_iff.mp hb, hh, hc, hl, firstProtected_eq_none_iff.mp hn⟩⟩
      · simp [pure_eq_ok] at h
  · rintro ⟨a⟩
    refine ⟨a.commit, w, ⟨a.single, rfl⟩, some a.repository, a.found, a.lookup, ?_⟩
    dsimp only
    split
    · refine bind_eq_ok.mpr ⟨_, _, containing_eq_ok_iff.mpr a.source, ?_⟩
      refine verdict_eq_allowed_iff.mpr ⟨_, _, a.head, a.inCurrent, ?_⟩
      exact findProtected_eq_none_iff.mpr
        ⟨_, a.listed, firstProtected_eq_none_iff.mpr a.unprotected⟩
    · next hp => exact absurd a.oneParent hp

theorem attemptEdit_eq_true_iff {compute : Compute ι} {s : Selection} {title : String}
    {w v : Workspace ι} :
    attemptEdit compute s title w = (.ok true, v) ↔ Nonempty (Approval compute s w v) := by
  rw [← judge_eq_allowed_iff, attemptEdit, bind_eq_ok]
  constructor
  · rintro ⟨verdict, u, hj, h⟩
    cases verdict with
    | allowed =>
      obtain ⟨-, rfl⟩ := pure_eq_ok.mp h
      exact hj
    | denied reason =>
      obtain ⟨_, _, -, h⟩ := bind_eq_ok.mp h
      simp [pure_eq_ok] at h
  · exact fun h => ⟨.allowed, v, h, rfl⟩

end HistoryGuard.Gate
