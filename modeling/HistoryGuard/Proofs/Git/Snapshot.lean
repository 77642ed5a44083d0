import Mathlib.Data.List.Basic
import HistoryGuard.Proofs.Git.LongestRemote
import HistoryGuard.Proofs.Text.Listing

/-! # Repositories on paper

A snapshot describes what a check is about: the commit, the head and the refs, each with a mark
whether it contains the commit. What git prints of a snapshot is read back without a loss.
-/

namespace HistoryGuard

open Text

inductive Space
  | heads
  | remotes
  deriving DecidableEq

def Space.text : Space → String
  | heads => "refs/heads/"
  | remotes => "refs/remotes/"

inductive Ref
  | branch (name : Name)
  | tracking (remote name : Name)
  /-- Stands for another ref, as the head of a remote does. -/
  | symbolic (space : Space) (name target : Name)
  deriving DecidableEq

namespace Ref

def space : Ref → Space
  | branch _ => .heads
  | tracking _ _ => .remotes
  | symbolic space _ _ => space

def short : Ref → String
  | branch name => name.text
  | tracking remote name => remote.text ++ "/" ++ name.text
  | symbolic _ name _ => name.text

def full (r : Ref) : String := r.space.text ++ r.short

def target : Ref → String
  | symbolic _ _ target => target.text
  | _ => ""

/-- How git lists the ref. -/
def line (r : Ref) : String := r.full ++ " " ++ r.target

/-- The name that the ref adds to a set of branches. -/
def branchName? : Ref → Option String
  | symbolic _ _ _ => none
  | r => some r.short

def remoteBranch? : Ref → Option RemoteBranch
  | tracking remote name => some ⟨remote.text, name.text⟩
  | _ => none

theorem solid_short (r : Ref) : Solid r.short.toList := by
  cases r with
  | branch name => exact name.solid
  | tracking remote name =>
    have slash : Solid "/".toList := by decide
    simp only [short, String.toList_append]
    exact (remote.solid.append slash).append name.solid
  | symbolic _ name _ => exact name.solid

theorem short_ne (r : Ref) : r.short.toList ≠ [] := by
  cases r with
  | branch name => exact name.toList_ne
  | tracking remote name => simp [short]
  | symbolic _ name _ => exact name.toList_ne

theorem solid_full (r : Ref) : Solid r.full.toList := by
  have space : Solid r.space.text.toList := by cases r.space <;> decide
  rw [full, String.toList_append]
  exact space.append r.solid_short

theorem full_ne (r : Ref) : r.full.toList ≠ [] := by
  rw [full, String.toList_append]
  intro h
  exact r.short_ne (List.append_eq_nil_iff.mp h).2

theorem solid_target (r : Ref) : Solid r.target.toList := by
  cases r with
  | symbolic _ _ target => exact target.solid
  | _ =>
    intro c hc
    simp [target] at hc

theorem unbroken_line (r : Ref) : Unbroken r.line.toList := by
  have gap : Unbroken " ".toList := by decide
  rw [line, String.toList_append, String.toList_append]
  exact (r.solid_full.unbroken.append gap).append r.solid_target.unbroken

end Ref

namespace Git

theorem readRefLine_line (r : Ref) :
    readRefLine r.line = ⟨r.full.toList, r.target.toList⟩ := by
  have apart : r.line.toList = r.full.toList ++ ' ' :: r.target.toList := by
    simp [Ref.line]
  rw [readRefLine, apart]
  by_cases plain : r.target.toList = []
  · -- the space at the end goes, and so there is none left
    rw [plain, trim_append_blank isBlank_space, trim_of_solid r.solid_full,
      cutAtSpace_of_solid r.solid_full]
  · have ends : trim (r.full.toList ++ ' ' :: r.target.toList) =
        r.full.toList ++ ' ' :: r.target.toList := by
      rw [trim, trimStart_append r.solid_full r.full_ne, ← List.singleton_append,
        ← List.append_assoc, trimEnd_append r.solid_target plain]
    rw [ends, cutAtSpace_append r.solid_full]

theorem after?_append (lead s : List Char) : after? lead (lead ++ s) = some s := by
  have leads : lead.isPrefixOf (lead ++ s) = true :=
    List.isPrefixOf_iff_prefix.mpr (List.prefix_append lead s)
  rw [after?, if_pos leads, List.drop_left]

theorem shortName_remote (path : List Char) : shortName (remoteSpace ++ path) = some path := by
  have other : localSpace.isPrefixOf (remoteSpace ++ path) = false := rfl
  rw [shortName, after?_append, after?, other]
  rfl

theorem shortName_full (r : Ref) : shortName r.full.toList = some r.short.toList := by
  rw [Ref.full, String.toList_append]
  cases r.space with
  | heads =>
    have space : Space.heads.text.toList = localSpace := rfl
    rw [space, shortName, after?_append]
    rfl
  | remotes => exact shortName_remote r.short.toList

theorem branch?_line (r : Ref) : (readRefLine r.line).branch? = r.branchName? := by
  rw [readRefLine_line, RefLine.branch?, shortName_full]
  cases r with
  | symbolic space name target => simp [Ref.target, Ref.branchName?, target.ne]
  | branch name =>
    obtain ⟨c, cs, h⟩ := List.exists_cons_of_ne_nil (Ref.branch name).short_ne
    simp only [Ref.target, String.toList_empty, if_pos, h, Ref.branchName?]
    rw [← h, String.ofList_toList]
  | tracking remote name =>
    obtain ⟨c, cs, h⟩ := List.exists_cons_of_ne_nil (Ref.tracking remote name).short_ne
    simp only [Ref.target, String.toList_empty, if_pos, h, Ref.branchName?]
    rw [← h, String.ofList_toList]

theorem remoteBranch?_line {remotes : List String} {r : Ref} (space : r.space = .remotes)
    (longest : ∀ remote name, r = .tracking remote name →
      IsLongest remotes remote.text r.short.toList) :
    (readRefLine r.line).remoteBranch? remotes = r.remoteBranch? := by
  rw [readRefLine_line, RefLine.remoteBranch?]
  cases r with
  | branch name => cases space
  | symbolic space name target => simp [Ref.target, Ref.remoteBranch?, target.ne]
  | tracking remote name =>
    have path : (Ref.tracking remote name).full.toList.drop remoteSpace.length =
        (Ref.tracking remote name).short.toList := by
      rw [Ref.full, String.toList_append]
      exact List.drop_left
    have rest : (Ref.tracking remote name).short.toList.drop (remote.text.length + 1) =
        name.text.toList := by
      have apart : (Ref.tracking remote name).short.toList =
          (remote.text.toList ++ ['/']) ++ name.text.toList := by simp [Ref.short]
      rw [apart]
      exact List.drop_left' (by simp [String.length_toList])
    have full := (Ref.tracking remote name).full_ne
    simp only [Ref.target, String.toList_empty, decide_true, Bool.true_and, bne_iff_ne, ne_eq,
      full, not_false_eq_true, if_pos, path,
      longestRemote_eq_some_iff.mpr (longest remote name rfl), Option.map_some, rest,
      String.ofList_toList, Ref.remoteBranch?]

end Git

/-- The text in brackets by which git lists a detached head. -/
structure Label where
  inner : String
  unbroken : Unbroken inner.toList

def Label.line (l : Label) : String := "(" ++ l.inner ++ ") "

inductive HeadState
  | on (branch : Name)
  /-- The flag tells whether the head reaches the commit. -/
  | detached (reaches : Bool) (label : Option Label)

def HeadState.lines : HeadState → List String
  | detached _ (some label) => [label.line]
  | _ => []

/-- A ref, and whether it contains the commit. -/
structure Marked where
  ref : Ref
  contains : Bool
  deriving DecidableEq

structure Snapshot where
  root : String
  sha : Name
  parents : List Name
  head : HeadState
  refs : List Marked
  remotes : List Name
  rooted : root.toList.head? = some '/'
  normal : Path.normalise root = root
  bare : strip root = root
  distinct : ∀ m ∈ refs, ∀ n ∈ refs, m.ref.full = n.ref.full → m = n
  onListed : ∀ b, head = .on b → ∃ m ∈ refs, m.ref = .branch b
  longest : ∀ m ∈ refs, ∀ remote name, m.ref = .tracking remote name →
    Git.IsLongest (remotes.map (·.text)) remote.text m.ref.short.toList
  apart : ∀ m ∈ refs, ∀ n ∈ refs, ∀ branch remote name, m.ref = .branch branch →
    n.ref = .tracking remote name → branch.text ≠ n.ref.short
  noHead : ∀ m ∈ refs, ∀ branch, m.ref = .branch branch → branch.text ≠ Git.head

namespace Snapshot

variable (s : Snapshot)

/-- What git prints for the branches that contain the commit. -/
def branchListing : String :=
  String.join ((s.head.lines ++ (s.refs.filter (·.contains)).map (·.ref.line)).map (· ++ "\n"))

/-- What git prints for the refs of the remotes. -/
def trackingListing : String :=
  String.join (((s.refs.filter (·.ref.space = .remotes)).map (·.ref.line)).map (· ++ "\n"))

def names : List String := (s.refs.filter (·.contains)).filterMap (·.ref.branchName?)

def remoteBranches : List RemoteBranch := s.refs.filterMap (·.ref.remoteBranch?)

def current : String :=
  match s.head with
  | .on branch => branch.text
  | .detached _ _ => Git.head

def containing : List String :=
  match s.head with
  | .detached true _ => Git.head :: s.names
  | _ => s.names

end Snapshot

namespace Git

theorem branch?_bracket (ref target : List Char) : RefLine.branch? ⟨'(' :: ref, target⟩ = none := by
  have nameless : shortName ('(' :: ref) = none := rfl
  rw [RefLine.branch?, nameless]
  split <;> rfl

theorem branch?_label (l : Label) : (readRefLine l.line).branch? = none := by
  have opening : Solid "(".toList := by decide
  have closing : Solid ")".toList := by decide
  have trimmed : trim l.line.toList = "(".toList ++ (l.inner.toList ++ ")".toList) := by
    have ends : l.line.toList = "(".toList ++ (l.inner.toList ++ ")".toList) ++ [' '] := by
      simp [Label.line]
    rw [ends, trim_append_blank isBlank_space, trim, trimStart_append opening (by decide),
      ← List.append_assoc, trimEnd_append closing (by decide)]
  rw [readRefLine, trimmed]
  exact branch?_bracket _ _

theorem unbroken_lines (h : HeadState) : ∀ l ∈ h.lines, Unbroken l.toList := by
  have opening : Unbroken "(".toList := by decide
  have closing : Unbroken ") ".toList := by decide
  intro l hl
  rcases h with b | ⟨reaches, _ | label⟩
  · cases hl
  · cases hl
  · obtain rfl := List.mem_singleton.mp hl
    rw [Label.line, String.toList_append, String.toList_append]
    exact (opening.append label.unbroken).append closing

theorem branch?_lines (h : HeadState) :
    (h.lines.map readRefLine).filterMap RefLine.branch? = [] := by
  rcases h with b | ⟨reaches, _ | label⟩
  · rfl
  · rfl
  · simp [HeadState.lines, branch?_label]

theorem listedBranches_listing (s : Snapshot) : listedBranches s.branchListing = s.names := by
  have unbroken : ∀ l ∈ s.head.lines ++ (s.refs.filter (·.contains)).map (·.ref.line),
      Unbroken l.toList := by
    intro l hl
    rcases List.mem_append.mp hl with hl | hl
    · exact unbroken_lines s.head l hl
    · obtain ⟨m, -, rfl⟩ := List.mem_map.mp hl
      exact m.ref.unbroken_line
  rw [listedBranches, readRefs, Snapshot.branchListing, lines_join unbroken, List.map_append,
    List.filterMap_append, branch?_lines, List.nil_append, List.map_map, List.filterMap_map,
    Snapshot.names]
  apply List.filterMap_congr
  intro m hm
  simp only [Function.comp_apply]
  rw [branch?_line]

theorem listedRemoteBranches_listing (s : Snapshot) :
    listedRemoteBranches (s.remotes.map (·.text)) s.trackingListing = s.remoteBranches := by
  have unbroken : ∀ l ∈ (s.refs.filter (·.ref.space = .remotes)).map (·.ref.line),
      Unbroken l.toList := by
    intro l hl
    obtain ⟨m, -, rfl⟩ := List.mem_map.mp hl
    exact m.ref.unbroken_line
  rw [listedRemoteBranches, readRefs, Snapshot.trackingListing, lines_join unbroken, List.map_map,
    List.filterMap_map, List.filterMap_filter, Snapshot.remoteBranches]
  apply List.filterMap_congr
  intro m hm
  by_cases space : m.ref.space = .remotes
  · have read := remoteBranch?_line space fun remote name hr => s.longest m hm remote name hr
    simp only [space, decide_true, if_pos, Function.comp_apply]
    rw [read]
  · simp only [space, decide_false, Bool.false_eq_true, if_false]
    cases hr : m.ref with
    | branch name => rfl
    | tracking remote name => exact absurd (by rw [hr]; rfl) space
    | symbolic _ name target => rfl

end Git

end HistoryGuard
