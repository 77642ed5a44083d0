import HistoryGuard.CommandLine.Program
import HistoryGuard.Proofs.Containment.Lookup
import HistoryGuard.Proofs.Gate.Editable
import HistoryGuard.Proofs.Git.Answers

/-! # The check decides the policy

Where git answers as a snapshot says, the check of the command line ends as the policy on the refs
of the snapshot says.
-/

namespace HistoryGuard

open Run Text Workspace

variable {ι : Type}

structure Ready (git : Git) (policy : Policy) (lookup : Lookup) (cached : Cache → Prop)
    (w : Workspace ι) : Prop where
  git : w.shell.git = git
  policy : w.policy = policy
  lookup : w.lookup = lookup
  cache : cached w.cache

/-- Repositories are looked up in this registry, and no branches are remembered. -/
abbrev Clean (git : Git) (p : Protection) (r : Registry) (w : Workspace ι) : Prop :=
  Ready git (.protection p) (.registry r) (· = {}) w

variable {git : Git} {policy : Policy} {lookup : Lookup} {cached : Cache → Prop}

theorem gives_onShell {α : Type} {x : Run Shell α} {a : α}
    (h : Gives (Shell.Has git) x a (Shell.Has git)) :
    Gives (Ready (ι := ι) git policy lookup cached) (onShell x) a
      (Ready git policy lookup cached) := by
  rintro w ⟨hg, hp, hl, hc⟩
  obtain ⟨b, shell, hx, rfl, has⟩ := h w.shell hg
  refine ⟨b, { w with shell }, ?_, rfl, has, hp, hl, hc⟩
  rw [onShell, focus, hx]

section Registry

variable {r r' : Registry} {root : String} {tree : Worktree}

theorem gives_find_known (same : r.keyOf root = root) (known : r.known root = some tree) :
    Gives (Shell.Has git) (r.find root) (some tree, r) (Shell.Has git) := by
  unfold Registry.find
  simp only [same, known]
  exact gives_pure _

theorem gives_find_new (same : r.keyOf root = root) (new : r.known root = none)
    (top : Gives (Shell.Has git) (Git.topLevel root) root (Shell.Has git)) :
    Gives (Shell.Has git) (r.find root)
      (some (r.record root root).1, (r.record root root).2) (Shell.Has git) := by
  unfold Registry.find
  simp only [same, new]
  exact top.attempt.bind (gives_pure _)

theorem gives_repository?
    (h : Gives (Shell.Has git) (r.find root) (some tree, r') (Shell.Has git)) :
    Gives (Ready (ι := ι) git policy (.registry r) cached) (repository? root)
      (some (.worktree tree)) (Ready git policy (.registry r') cached) := by
  unfold repository?
  apply (gives_read (a := .registry r) fun w hw => hw.lookup).bind
  apply (gives_onShell h).bind
  rintro w ⟨hg, hp, -, hc⟩
  exact ⟨_, { w with lookup := .registry r' }, rfl, rfl, hg, hp, rfl, hc⟩

end Registry

theorem gives_getCached {key : Key} (miss : ∀ c, cached c → c.get? key = none) :
    Gives (Ready (ι := ι) git policy lookup cached) (Containment.getCached key) none
      (Ready git policy lookup cached) :=
  gives_read fun _ hw => miss _ hw.cache

theorem gives_getNow {key : Key} {b : Branches}
    (h : Gives (Ready (ι := ι) git policy lookup cached) (compute key) b
      (Ready git policy lookup cached))
    (miss : ∀ c, cached c → c.get? key = none) :
    Gives (Ready (ι := ι) git policy lookup cached) (Containment.getNow compute key) b
      (Ready git policy lookup fun _ => True) := by
  rintro w ⟨hg, hp, hl, hc⟩
  obtain ⟨b', v, hv, rfl, ready⟩ := h (Containment.begun key w) ⟨hg, hp, hl, hc⟩
  rw [Containment.getNow_of_miss compute (miss _ hc), hv]
  exact ⟨b', _, rfl, rfl, ready.git, ready.policy, ready.lookup, trivial⟩

namespace Snapshot

variable {s : Snapshot} {p : Protection} {dir arg : String}

theorem remoteBranch?_eq_some {r : Ref} {b : RemoteBranch} : r.remoteBranch? = some b ↔
    ∃ remote name, r = .tracking remote name ∧ b = ⟨remote.text, name.text⟩ := by
  cases r with
  | branch name => simp [Ref.remoteBranch?]
  | symbolic space name target => simp [Ref.remoteBranch?]
  | tracking remote name =>
    simp only [Ref.remoteBranch?, Option.some.injEq, Ref.tracking.injEq]
    constructor
    · rintro rfl
      exact ⟨remote, name, ⟨rfl, rfl⟩, rfl⟩
    · rintro ⟨_, _, ⟨rfl, rfl⟩, rfl⟩
      rfl

def commit (s : Snapshot) : Commit := ⟨s.sha.text, s.root, s.parents.map (·.text)⟩

/-- The verdict agrees with the policy on refs. -/
def Decides (s : Snapshot) (p : Protection) : Verdict → Prop
  | .allowed => s.Editable p
  | .denied reason => s.Justifies p reason

def Bars (s : Snapshot) (p : Protection) (b : RemoteBranch) : Bool :=
  p.covers b.localName && decide (b.qualifiedName ∈ Branches.ofList s.containing)

theorem bars_iff {m : Marked} (hm : m ∈ s.refs) {remote name : Name}
    (hr : m.ref = .tracking remote name) :
    s.Bars p ⟨remote.text, name.text⟩ = true ↔ m.Blocks p name.text := by
  have qualified : RemoteBranch.qualifiedName ⟨remote.text, name.text⟩ = m.ref.short := by
    rw [hr]
    rfl
  rw [Bars, Protection.bars_iff, Protection.Bars, Branches.mem_ofList, qualified,
    short_mem_containing hm hr]
  constructor
  · rintro ⟨protects, contains⟩
    exact ⟨contains, protects, remote, name, hr, rfl⟩
  · rintro ⟨contains, protects, -⟩
    exact ⟨protects, contains⟩

theorem bars_of_blocks {m : Marked} (hm : m ∈ s.refs) {branch : String} (h : m.Blocks p branch) :
    ∃ b, m.ref.remoteBranch? = some b ∧ s.Bars p b = true := by
  obtain ⟨-, -, remote, name, hr, rfl⟩ := id h
  exact ⟨⟨remote.text, name.text⟩, by rw [hr]; rfl, (bars_iff hm hr).mpr h⟩

theorem editable_of_find?_none (one : s.parents.length = 1) (reaches : s.Reaches)
    (h : s.remoteBranches.find? (s.Bars p) = none) : s.Editable p := by
  refine ⟨one, reaches, ?_⟩
  intro m hm branch blocks
  obtain ⟨b, hb, bars⟩ := bars_of_blocks hm blocks
  rw [List.find?_eq_none] at h
  exact h b (List.mem_filterMap.mpr ⟨m, hm, hb⟩) bars

theorem justifies_of_find?_some (one : s.parents.length = 1) (reaches : s.Reaches)
    {b : RemoteBranch} (h : s.remoteBranches.find? (s.Bars p) = some b) :
    s.Justifies p (.pushedTo b.localName) := by
  obtain ⟨bars, before, after, split, free⟩ := List.find?_eq_some_iff_append.mp h
  obtain ⟨refs₁, refs₂, hrefs, rfl, rest⟩ := List.filterMap_eq_append_iff.mp split
  obtain ⟨refs₃, m, later, rfl, plain, hb, -⟩ := List.filterMap_eq_cons_iff.mp rest
  have hm : m ∈ s.refs := by simp [hrefs]
  obtain ⟨remote, name, hr, rfl⟩ := remoteBranch?_eq_some.mp hb
  refine ⟨one, reaches, refs₁ ++ refs₃, m, later, by simp [hrefs], (bars_iff hm hr).mp bars, ?_⟩
  intro n hn other blocks
  have listed : n ∈ s.refs := by
    rw [hrefs]
    rcases List.mem_append.mp hn with hn | hn <;> simp [hn]
  obtain ⟨b', hb', bars'⟩ := bars_of_blocks listed blocks
  rcases List.mem_append.mp hn with hn | hn
  · have earlier := free b' (List.mem_filterMap.mpr ⟨n, hn, hb'⟩)
    simp [bars'] at earlier
  · rw [plain n hn] at hb'
    cases hb'

variable (h : s.Answered git dir arg)

include h

theorem Answered.meets_verdict (one : s.parents.length = 1) (n : Nat) :
    Meets (Ready (ι := ι) git (.protection p) lookup cached)
      (Gate.verdict (.worktree ⟨n, s.root⟩) (.ofList s.containing)) fun v _ => s.Decides p v := by
  apply (gives_onShell h.gives_currentBranch).bind
  by_cases reaches : s.Reaches
  · rw [if_pos (Branches.mem_ofList.mpr (current_mem_containing.mpr reaches))]
    have found : Gives (Ready (ι := ι) git (.protection p) lookup cached)
        (Gate.findProtected (.worktree ⟨n, s.root⟩) (.ofList s.containing))
        (s.remoteBranches.find? (s.Bars p)) (Ready git (.protection p) lookup cached) := by
      apply (gives_onShell h.gives_remoteBranches).bind
      apply (gives_read fun w hw => hw.policy).bind
      exact gives_ofExcept (Gate.firstProtected_protection p _ _)
    apply found.bind
    cases hf : s.remoteBranches.find? (s.Bars p) with
    | some b =>
      intro w _
      exact ⟨_, w, rfl, justifies_of_find?_some one reaches hf⟩
    | none =>
      intro w _
      exact ⟨_, w, rfl, editable_of_find?_none one reaches hf⟩
  · rw [if_neg fun hc => reaches (current_mem_containing.mp (Branches.mem_ofList.mp hc))]
    intro w _
    exact ⟨_, w, rfl, one, reaches⟩

theorem Answered.meets_judge {r : Registry} {n : Nat} (same : r.keyOf s.root = s.root)
    (known : r.known s.root = some ⟨n, s.root⟩) (one : s.parents.length = 1) :
    Meets (Clean (ι := ι) git p r)
      (Gate.judge compute [s.commit]) fun v _ => s.Decides p v := by
  apply (gives_ofExcept (a := s.commit) rfl).bind
  apply (gives_repository? (gives_find_known same known)).bind
  have count : s.commit.parentCount = 1 := by
    simp [commit, Commit.parentCount, one]
  dsimp only
  rw [if_pos count]
  have computed : Gives (Clean (ι := ι) git p r) (Containment.getNow compute s.commit.key)
      (.ofList s.containing) (Ready git (.protection p) (.registry r) fun _ => True) := by
    have answer : Gives (Clean (ι := ι) git p r) (compute s.commit.key) (.ofList s.containing)
        (Clean git p r) :=
      gives_onShell (x := Git.containing s.root s.sha.text) h.gives_containing
    exact gives_getNow answer fun c empty => by rw [empty]; rfl
  have contained : Gives (Clean (ι := ι) git p r) (Gate.containing compute s.commit)
      (.ofList s.containing) (Ready git (.protection p) (.registry r) fun _ => True) :=
    (gives_getCached fun c empty => by rw [empty]; rfl).bind computed
  exact contained.bind (h.meets_verdict one n)

/-- An ending of a check agrees with the policy on refs. -/
def Ends (s : Snapshot) (p : Protection) (e : Ending) : Prop :=
  (e = .allowed ∧ s.Editable p) ∨ ∃ reason, e = .denied reason ∧ s.Justifies p reason

theorem Answered.meets_endingFor {workDir : String} :
    Meets (Clean (ι := ι) git p { workDir }) (Check.endingFor s.commit) fun e _ => s.Ends p e := by
  have same (r : Registry) : r.keyOf s.root = s.root := by
    rw [Registry.keyOf, Path.absolute, Path.under, if_pos s.rooted, s.normal]
  let r : Registry := (({ workDir } : Registry).record s.root s.root).2
  have known : r.known s.root = some ⟨0, s.root⟩ := Table.put_same ..
  have first : Gives (Clean (ι := ι) git p { workDir }) (repository? s.root)
      (some (.worktree ⟨0, s.root⟩)) (Clean git p r) :=
    gives_repository? (gives_find_new (same _) rfl (gives_topLevel_of h.top))
  have count : s.commit.parentCount = s.parents.length := by
    simp [commit, Commit.parentCount]
  by_cases one : s.parents.length = 1
  · have available : Gives (Clean (ι := ι) git p { workDir }) (Gate.enablement [s.commit])
        .available (Clean git p r) := by
      apply first.bind
      dsimp only
      rw [if_pos (count.trans one)]
      apply (gives_getCached fun c empty => by rw [empty]; rfl).bind
      exact gives_pure _
    apply available.bind
    apply (h.meets_judge (same _) known one).bind
    rintro v w hv
    cases v with
    | allowed => exact ⟨_, w, rfl, .inl ⟨rfl, hv⟩⟩
    | denied reason => exact ⟨_, w, rfl, .inr ⟨reason, rfl, hv⟩⟩
  · have disabled : Gives (Clean (ι := ι) git p { workDir }) (Gate.enablement [s.commit])
        (.disabled (.parentCount s.parents.length)) (Clean git p r) := by
      apply first.bind
      dsimp only
      rw [if_neg (by rw [count]; exact one), count]
      exact gives_pure _
    apply disabled.bind
    intro w _
    exact ⟨_, w, rfl, .inr ⟨_, rfl, rfl, one⟩⟩

theorem Answered.meets_check {workDir : String} :
    Meets (Clean (ι := ι) git p { workDir }) (Check.run dir arg) fun e _ => s.Ends p e := by
  intro w hw
  have ended : Meets (Clean (ι := ι) git p { workDir })
      (onShell (Git.commit dir arg) >>= Check.endingFor) fun e _ => s.Ends p e :=
    (gives_onShell h.gives_commit).bind h.meets_endingFor
  obtain ⟨e, v, he, ends⟩ := ended w hw
  refine ⟨e, v, ?_, ends⟩
  -- the failures that the program reports itself do not come up
  rw [Check.run, Check.reportOwn, bind_apply]
  simp only [Run.attempt]
  rw [he]
  rfl

end Snapshot

namespace CommandLine

/-- Where git answers as a snapshot says, a check prints `allowed` and ends with status 0 exactly
if the commit may be edited by the policy on refs. Otherwise it prints a reason that holds, and
ends with status 1. -/
theorem check_decides {around : Surroundings} {args : List String} {a : Arguments}
    {dir arg : String} {level : Nat} {p : Protection} (s : Snapshot)
    (parsed : Arguments.parse args = .ok a) (request : a.request = .check arg)
    (place : a.directory around = .ok dir)
    (set : LogLevel.choose a.logLevel around.environment = .ok level)
    (policy : a.policy none around.environment = .ok (.protection p))
    (answered : s.Answered around.git dir arg) :
    ((run around args).outcome = .ok .allowed ↔ s.Editable p) ∧
    (¬ s.Editable p → ∃ reason,
      (run around args).outcome = .ok (.denied reason) ∧ s.Justifies p reason) := by
  have outcome : (run around args).outcome =
      (Check.run dir arg (workspace around { git := around.git } (.protection p))).1 := by
    rw [run, parsed]
    dsimp only
    rw [place]
    dsimp only
    rw [set]
    dsimp only
    rw [runRequest, request]
    dsimp only
    rw [runCheck, policy]
  obtain ⟨e, v, he, ends⟩ := answered.meets_check (p := p)
    (workspace around { git := around.git } (.protection p)) ⟨rfl, rfl, rfl, rfl⟩
  rw [outcome, he]
  rcases ends with ⟨rfl, editable⟩ | ⟨reason, rfl, justifies⟩
  · exact ⟨⟨fun _ => editable, fun _ => rfl⟩, fun h => absurd editable h⟩
  · have other : Ending.denied reason ≠ .allowed := by simp [Ending.allowed, Ending.denied]
    constructor
    · constructor
      · intro h
        exact absurd (Except.ok.inj h) other
      · intro h
        exact absurd h justifies.not_editable
    · intro _
      exact ⟨reason, rfl, justifies⟩

/-- The branch of the head contains the commit, and the branch that was pushed does not. -/
def unpushed : Snapshot where
  root := "/work"
  sha := ⟨"c", by decide, by decide⟩
  parents := [⟨"p", by decide, by decide⟩]
  head := .on ⟨"topic", by decide, by decide⟩
  refs := [⟨.branch ⟨"topic", by decide, by decide⟩, true⟩,
    ⟨.symbolic .remotes ⟨"origin/HEAD", by decide, by decide⟩
      ⟨"refs/remotes/origin/main", by decide, by decide⟩, false⟩,
    ⟨.tracking ⟨"origin", by decide, by decide⟩ ⟨"main", by decide, by decide⟩, false⟩]
  remotes := [⟨"origin", by decide, by decide⟩]
  rooted := by decide
  normal := by decide
  bare := by decide
  distinct := by decide
  onListed := by
    rintro _ ⟨⟩
    exact ⟨_, List.mem_cons_self, rfl⟩
  longest := by
    simp only [List.forall_mem_cons]
    refine ⟨by simp, by simp, ?_, by simp⟩
    rintro _ _ ⟨⟩
    exact ⟨by decide, by decide, by decide⟩
  apart := by
    simp
    decide
  noHead := by
    simp
    decide

def unpushedGit : Git := fun _ call =>
  let out := match call.args with
    | "rev-parse" :: _ => "/work\n"
    | "rev-list" :: _ => "c p\n"
    | "branch" :: _ => "refs/heads/topic \n"
    | "symbolic-ref" :: _ => "topic\n"
    | "remote" :: _ => "origin\n"
    | "for-each-ref" :: _ =>
      "refs/remotes/origin/HEAD refs/remotes/origin/main\nrefs/remotes/origin/main \n"
    | _ => ""
  .ended 0 out.toByteArray "".toByteArray

theorem answered_unpushed : unpushed.Answered unpushedGit "/work" "c" where
  around _ := ⟨_, _, _, rfl, rfl, rfl⟩
  top _ := ⟨_, _, _, rfl, rfl, rfl⟩
  parents _ := ⟨_, _, _, rfl, rfl, rfl⟩
  branches _ := ⟨_, _, _, rfl, rfl, rfl⟩
  onBranch := by
    rintro _ ⟨⟩ _
    exact ⟨_, _, _, rfl, rfl, rfl⟩
  detached := by
    rintro _ _ ⟨⟩
  ancestor := by
    rintro _ _ ⟨⟩
  remotes _ := ⟨_, _, _, rfl, rfl, rfl⟩
  refs _ := ⟨_, _, _, rfl, rfl, rfl⟩

theorem check_decides_unpushed :
    (run { workDir := "/work", git := unpushedGit } ["check", "c"]).outcome = .ok .allowed := by
  apply (check_decides unpushed rfl rfl rfl rfl rfl answered_unpushed).1.mpr
  constructor
  · rfl
  · exact List.mem_cons_self
  · intro m hm branch blocks
    have free : ∀ m ∈ unpushed.refs, m.contains = true → m.ref.remoteBranch? = none := by decide
    obtain ⟨contains, -, remote, name, hr, -⟩ := blocks
    have none := free m hm contains
    rw [hr] at none
    cases none

end CommandLine

end HistoryGuard
