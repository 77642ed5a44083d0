import HistoryGuard.Gate
import HistoryGuard.Proofs.Git.Snapshot

/-! # The policy on refs

Which commits may be edited, said of the full refs of a snapshot, and how that shows in the set of
short names that the gate works with.
-/

namespace HistoryGuard

open Text

namespace Protection

def Protects (p : Protection) (name : String) : Prop :=
  p.enabled = true ∧ ∃ pattern ∈ p.patterns, Glob.matchName pattern name = true

/-- The branch of the remote is protected, and the set has it under its full name. -/
def Bars (p : Protection) (b : Branches) (r : RemoteBranch) : Prop :=
  p.Protects r.localName ∧ r.qualifiedName ∈ b

variable {p : Protection}

theorem covers_iff {name : String} : p.covers name = true ↔ p.Protects name := by
  simp [covers, Protects]

theorem bars_iff {b : Branches} {r : RemoteBranch} :
    (p.covers r.localName && decide (r.qualifiedName ∈ b)) = true ↔ p.Bars b r := by
  rw [Bool.and_eq_true, covers_iff, decide_eq_true_iff, Bars]

instance {b : Branches} {r : RemoteBranch} : Decidable (p.Bars b r) := decidable_of_iff _ bars_iff

end Protection

/-- The ref tracks this protected branch of a remote, and it contains the commit. -/
def Marked.Blocks (m : Marked) (p : Protection) (branch : String) : Prop :=
  m.contains = true ∧ p.Protects branch ∧
    ∃ remote name, m.ref = .tracking remote name ∧ name.text = branch

namespace Snapshot

variable (s : Snapshot)

def Reaches : Prop :=
  match s.head with
  | .on branch => ⟨.branch branch, true⟩ ∈ s.refs
  | .detached reaches _ => reaches = true

/-- The commit has one parent, the head reaches it, and no protected branch of a remote contains
it. -/
structure Editable (p : Protection) : Prop where
  oneParent : s.parents.length = 1
  reaches : s.Reaches
  unblocked : ∀ m ∈ s.refs, ∀ branch, ¬ m.Blocks p branch

/-- The reason for which an edit is denied holds of the snapshot, and no reason that is looked
for before it does. The branch to which the commit is pushed is the first that git lists. -/
def Justifies (p : Protection) : Denial → Prop
  | .parentCount n => n = s.parents.length ∧ n ≠ 1
  | .notInCurrentBranch => s.parents.length = 1 ∧ ¬ s.Reaches
  | .pushedTo branch => s.parents.length = 1 ∧ s.Reaches ∧
    ∃ earlier m later, s.refs = earlier ++ m :: later ∧ m.Blocks p branch ∧
      ∀ n ∈ earlier, ∀ other, ¬ n.Blocks p other

variable {s}

theorem Justifies.not_editable {p : Protection} {reason : Denial} (h : s.Justifies p reason) :
    ¬ s.Editable p := by
  rintro ⟨one, reaches, unblocked⟩
  cases reason with
  | parentCount n =>
    obtain ⟨rfl, many⟩ := h
    exact many one
  | notInCurrentBranch => exact h.2 reaches
  | pushedTo branch =>
    obtain ⟨-, -, earlier, m, later, hrefs, blocks, -⟩ := h
    have listed : m ∈ s.refs := by simp [hrefs]
    exact unblocked m listed branch blocks

theorem mem_names {name : String} :
    name ∈ s.names ↔ ∃ m ∈ s.refs, m.contains = true ∧ m.ref.branchName? = some name := by
  simp [names, and_assoc]

/-- A local branch is never called like a branch of a remote. -/
theorem full_eq_of_branchName? {m n : Marked} (hm : m ∈ s.refs) (hn : n ∈ s.refs) {name : String}
    (h : m.ref.branchName? = some name) (h' : n.ref.branchName? = some name) :
    m.ref.full = n.ref.full := by
  have apart {m n : Marked} (hm : m ∈ s.refs) (hn : n ∈ s.refs) {branch remote tracked : Name}
      (hr : m.ref = .branch branch) (hr' : n.ref = .tracking remote tracked)
      (h : m.ref.branchName? = some name) (h' : n.ref.branchName? = some name) : False := by
    apply s.apart m hm n hn branch remote tracked hr hr'
    rw [hr] at h
    rw [hr'] at h' ⊢
    exact Option.some.inj (h.trans h'.symm)
  cases hr : m.ref with
  | symbolic space name target => simp [hr, Ref.branchName?] at h
  | branch branch =>
    cases hr' : n.ref with
    | symbolic space name target => simp [hr', Ref.branchName?] at h'
    | branch branch' =>
      rw [hr] at h
      rw [hr'] at h'
      have short : (Ref.branch branch).short = (Ref.branch branch').short :=
        Option.some.inj (h.trans h'.symm)
      rw [Ref.full, Ref.full, short]
      rfl
    | tracking remote tracked => exact (apart hm hn hr hr' h h').elim
  | tracking remote tracked =>
    cases hr' : n.ref with
    | symbolic space name target => simp [hr', Ref.branchName?] at h'
    | branch branch' => exact (apart hn hm hr' hr h' h).elim
    | tracking remote' tracked' =>
      rw [hr] at h
      rw [hr'] at h'
      have short : (Ref.tracking remote tracked).short = (Ref.tracking remote' tracked').short :=
        Option.some.inj (h.trans h'.symm)
      rw [Ref.full, Ref.full, short]
      rfl

/-- Only a ref itself adds its short name to the set. -/
theorem short_mem_names {m : Marked} (hm : m ∈ s.refs) (named : m.ref.branchName? ≠ none) :
    m.ref.short ∈ s.names ↔ m.contains = true := by
  have own : m.ref.branchName? = some m.ref.short := by
    cases hr : m.ref with
    | symbolic space name target => simp [hr, Ref.branchName?] at named
    | _ => rfl
  rw [mem_names]
  constructor
  · rintro ⟨n, hn, contains, same⟩
    rw [s.distinct m hm n hn (full_eq_of_branchName? hm hn own same)]
    exact contains
  · exact fun contains => ⟨m, hm, contains, own⟩

theorem head_not_mem_names : Git.head ∉ s.names := by
  rw [mem_names]
  rintro ⟨m, hm, -, same⟩
  cases hr : m.ref with
  | symbolic space name target => simp [hr, Ref.branchName?] at same
  | branch name =>
    rw [hr] at same
    exact s.noHead m hm name hr (Option.some.inj same)
  | tracking remote name =>
    rw [hr] at same
    have slash : '/' ∈ Git.head.toList := by
      rw [← Option.some.inj same]
      simp [Ref.short]
    simp [Git.head] at slash

theorem current_mem_containing : s.current ∈ s.containing ↔ s.Reaches := by
  unfold current containing Reaches
  cases hh : s.head with
  | on branch =>
    obtain ⟨m, hm, hr⟩ := s.onListed branch hh
    have short := short_mem_names hm (by simp [hr, Ref.branchName?])
    rw [hr] at short
    apply short.trans
    show m.contains = true ↔ (⟨.branch branch, true⟩ : Marked) ∈ s.refs
    constructor
    · intro contains
      have self : m = ⟨.branch branch, true⟩ := by rw [← hr, ← contains]
      rw [← self]
      exact hm
    · intro listed
      have same := s.distinct m hm _ listed (by rw [hr])
      rw [same]
  | detached reaches label =>
    cases reaches with
    | true => simp
    | false => simpa using head_not_mem_names

theorem short_mem_containing {m : Marked} (hm : m ∈ s.refs) {remote name : Name}
    (hr : m.ref = .tracking remote name) : m.ref.short ∈ s.containing ↔ m.contains = true := by
  rw [← short_mem_names hm (by simp [hr, Ref.branchName?])]
  have noHead : m.ref.short ≠ Git.head := by
    intro same
    have slash : '/' ∈ Git.head.toList := by
      rw [← same, hr]
      simp [Ref.short]
    simp [Git.head] at slash
  unfold containing
  split
  · simp [noHead]
  · rfl

end Snapshot

end HistoryGuard
