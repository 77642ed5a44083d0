import HistoryGuard.Proofs.Edit.Forgetting
import HistoryGuard.Proofs.Gate.Agreement
import HistoryGuard.Proofs.Gate.Reception
import HistoryGuard.Proofs.Git.Containing

/-! # Local branches and protected ones

An edit is denied for a protected branch of a remote if the short name of that branch is among the
branches that contain the commit. Git has then listed a ref of this short name. It lies under
`refs/remotes/`, or it is a local branch that is called like the remote branch with its remote.
-/

namespace HistoryGuard

open Run Shell

namespace Shell

/-- The second shell comes after the first: it has the same git and has forgotten no call. -/
structure Onward (s t : Shell) : Prop where
  git : t.git = s.git
  past : s.past <:+ t.past

theorem Onward.refl (s : Shell) : Onward s s := ⟨rfl, List.suffix_refl _⟩

theorem Onward.trans {s t u : Shell} (h : Onward s t) (h' : Onward t u) : Onward s u :=
  ⟨h'.git.trans h.git, h.past.trans h'.past⟩

theorem Course.onward {k : Reception} {s t : Shell} (h : Course k s t) : Onward s t := by
  obtain ⟨git, cs, past, -⟩ := h
  exact ⟨git, cs, past.symm⟩

theorem onward_of_shows {α : Type} {x : Run Shell α} {s t : Shell} {outcome : Except Failure α}
    (h : Shows Course x s) (came : x s = (outcome, t)) : Onward s t := by
  obtain ⟨k, -, course⟩ := h
  rw [came] at course
  exact course.onward

/-- Between the two shells git was called like this and succeeded with this output. -/
def Printed (s t : Shell) (dir : String) (args : List String) (out : String) : Prop :=
  ∃ past, s.past <:+ past ∧ { args, dir } :: past <:+ t.past ∧
    outputOf ("git" :: args) (s.git past { args, dir }) = .ok out

variable {s t u : Shell} {dir : String} {args : List String} {out : String}

theorem Printed.before (h : Onward s t) (printed : Printed t u dir args out) :
    Printed s u dir args out := by
  obtain ⟨past, since, called, read⟩ := printed
  exact ⟨past, h.past.trans since, called, h.git ▸ read⟩

theorem Printed.after (printed : Printed s t dir args out) (h : Onward t u) :
    Printed s u dir args out := by
  obtain ⟨past, since, called, read⟩ := printed
  exact ⟨past, since, called.trans h.past, read⟩

theorem printed_of_output (h : output dir args s = (.ok out, t)) :
    Printed s t dir args out ∧ Onward s t := by
  rw [output_apply] at h
  obtain ⟨read, rfl⟩ := Prod.mk.inj h
  exact ⟨⟨s.past, List.suffix_refl _, List.suffix_refl _, read⟩, rfl, List.suffix_cons _ _⟩

end Shell

namespace Git

variable {s t u : Shell} {dir sha : String}

/-- Between the two shells git has listed the ref among those that contain the commit, not as a
symbolic one. -/
def Contains (dir sha : String) (s t : Shell) (line : RefLine) : Prop :=
  ∃ out, Printed s t dir (containingArgs sha) out ∧ line ∈ readRefs out ∧ line.target = []

def Tracks (s t : Shell) (b : RemoteBranch) : Prop :=
  ∃ dir remotes refs, Printed s t dir ["remote"] remotes ∧
    Printed s t dir ["for-each-ref", "--format=%(refname) %(symref)", "refs/remotes"] refs ∧
    b ∈ listedRemoteBranches (Text.fields remotes) refs

theorem Contains.widen {line : RefLine} (h : Contains dir sha t u line) {s v : Shell}
    (before : Onward s t) (after : Onward u v) : Contains dir sha s v line := by
  obtain ⟨out, printed, listed⟩ := h
  exact ⟨out, (printed.before before).after after, listed⟩

theorem Tracks.before {b : RemoteBranch} (before : Onward s t) (h : Tracks t u b) :
    Tracks s u b := by
  obtain ⟨dir, remotes, refs, printed, printed', listed⟩ := h
  exact ⟨dir, remotes, refs, printed.before before, printed'.before before, listed⟩

theorem eq_append_of_after? {lead s rest : List Char} (h : after? lead s = some rest) :
    s = lead ++ rest := by
  unfold after? at h
  split at h
  case isFalse => cases h
  next leads =>
    obtain rfl := Option.some.inj h
    obtain ⟨rest, rfl⟩ := List.isPrefixOf_iff_prefix.mp leads
    rw [List.drop_left]

theorem Tracks.after {b : RemoteBranch} (h : Tracks s t b) (after : Onward t u) :
    Tracks s u b := by
  obtain ⟨dir, remotes, refs, printed, printed', listed⟩ := h
  exact ⟨dir, remotes, refs, printed.after after, printed'.after after, listed⟩

theorem ref_of_mem_listedBranches {out name : String} (h : name ∈ listedBranches out) :
    ∃ line ∈ readRefs out, line.target = [] ∧
      (line.ref = localSpace ++ name.toList ∨ line.ref = remoteSpace ++ name.toList) := by
  obtain ⟨line, listed, named⟩ := List.mem_filterMap.mp h
  unfold RefLine.branch? at named
  split at named
  case isFalse => cases named
  next plain =>
    split at named
    case h_2 => cases named
    next c cs short =>
      obtain rfl := Option.some.inj named
      rw [String.toList_ofList]
      refine ⟨line, listed, plain, ?_⟩
      rcases Option.or_eq_some_iff.mp short with near | ⟨-, far⟩
      · exact .inl (eq_append_of_after? near)
      · exact .inr (eq_append_of_after? far)

theorem shows_headReaches (dir sha : String) (s : Shell) :
    Shows Course (headReaches dir sha) s := by
  refine (shows_currentBranch dir s).bind sequential_course fun branch u _ => ?_
  split
  · exact shows_isAncestor dir sha u head
  · exact sequential_course.pure false

/-- Whatever is found to contain the commit is the head or has been listed. -/
theorem contains_of_containing {b : Branches} (h : containing dir sha s = (.ok b, t))
    {name : String} (member : name ∈ b) :
    name = head ∨ ∃ line, Contains dir sha s t line ∧
      (line.ref = localSpace ++ name.toList ∨ line.ref = remoteSpace ++ name.toList) := by
  rw [containing_eq] at h
  obtain ⟨out, s₁, asked, h⟩ := bind_eq_ok.mp h
  obtain ⟨detached, s₂, reached, h⟩ := bind_eq_ok.mp h
  obtain ⟨rfl, rfl⟩ := pure_eq_ok.mp h
  rw [Branches.mem_ofList] at member
  have known : name = head ∨ name ∈ listedBranches out := by
    cases detached with
    | true => exact List.mem_cons.mp member
    | false => exact .inr member
  refine known.imp_right fun listed => ?_
  obtain ⟨line, read, plain, ref⟩ := ref_of_mem_listedBranches listed
  have printed := (printed_of_output asked).1.after (onward_of_shows (shows_headReaches ..) reached)
  exact ⟨line, ⟨out, printed, read, plain⟩, ref⟩

theorem tracks_of_remoteBranches {remotes : List RemoteBranch}
    (h : remoteBranches dir s = (.ok remotes, t)) {b : RemoteBranch} (member : b ∈ remotes) :
    Tracks s t b := by
  obtain ⟨names, s₁, asked, h⟩ := bind_eq_ok.mp h
  obtain ⟨refs, s₂, asked', h⟩ := bind_eq_ok.mp h
  obtain ⟨rfl, rfl⟩ := pure_eq_ok.mp h
  obtain ⟨printed, -⟩ := printed_of_output asked
  obtain ⟨printed', onward⟩ := printed_of_output asked'
  exact ⟨dir, names, refs, printed.after onward,
    printed'.before (printed_of_output asked).2, member⟩

end Git

namespace Gate

open Workspace Containment

variable {ι : Type} {w v : Workspace ι}

theorem mem_of_firstProtected {policy : Policy} {b : Branches} {remotes : List RemoteBranch}
    {found : RemoteBranch} (h : firstProtected policy b remotes = .ok (some found)) :
    found ∈ remotes ∧ policy.covers found.localName = .ok true ∧ found.qualifiedName ∈ b := by
  induction remotes with
  | nil => cases h
  | cons r rest ih =>
    rw [firstProtected] at h
    cases covers : policy.covers r.localName with
    | error e => simp [covers, bind, Except.bind] at h
    | ok covered =>
      have later (h : firstProtected policy b rest = .ok (some found)) :
          found ∈ r :: rest ∧ policy.covers found.localName = .ok true ∧
            found.qualifiedName ∈ b := by
        obtain ⟨listed, protects⟩ := ih h
        exact ⟨List.mem_cons_of_mem _ listed, protects⟩
      by_cases hit : (covered && decide (r.qualifiedName ∈ b)) = true
      · have first : (.ok (some r) : Except Failure _) = .ok (some found) := by
          simpa [covers, bind, Except.bind, pure, Except.pure, hit] using h
        obtain rfl : r = found := by simpa using first
        obtain ⟨rfl, member⟩ : covered = true ∧ r.qualifiedName ∈ b := by simpa using hit
        exact ⟨List.mem_cons_self, covers, member⟩
      · apply later
        simpa [covers, bind, Except.bind, hit] using h

/-- A verdict that the commit has been pushed comes from a branch that the repository lists among
those of its remotes. -/
theorem pushed_of_verdict {r : Repository} {b : Branches} {branch : String}
    (h : verdict r b w = (.ok (.denied (.pushedTo branch)), v)) :
    ∃ current u found remotes, onShell r.currentBranch w = (.ok current, u) ∧
      onShell r.remoteBranches u = (.ok remotes, v) ∧ found ∈ remotes ∧
      v.policy.covers found.localName = .ok true ∧ found.qualifiedName ∈ b := by
  obtain ⟨current, u, head, h⟩ := bind_eq_ok.mp h
  split at h
  case isFalse => simp [pure_eq_ok] at h
  obtain ⟨found?, v', searched, h⟩ := bind_eq_ok.mp h
  cases found? with
  | none => simp [pure_eq_ok] at h
  | some found =>
    obtain ⟨-, rfl⟩ := pure_eq_ok.mp h
    obtain ⟨remotes, u', listed, rest⟩ := bind_eq_ok.mp searched
    obtain ⟨policy, u'', read, first⟩ := bind_eq_ok.mp rest
    obtain ⟨rfl, rfl⟩ := read_eq_ok.mp read
    obtain ⟨protects, rfl⟩ := ofExcept_eq_ok.mp first
    obtain ⟨member, covers, contains⟩ := mem_of_firstProtected protects
    exact ⟨current, u, found, remotes, head, listed, member, covers, contains⟩

theorem worktree_of_registry {r : Registry} {root : String} {repository : Repository}
    (registry : w.lookup = .registry r) (h : repository? root w = (.ok (some repository), v)) :
    ∃ tree, repository = .worktree tree := by
  have read : Run.read (·.lookup) w = (.ok (.registry r), w) := read_eq_ok.mpr ⟨registry, rfl⟩
  rw [repository?, bind_of_ok read] at h
  obtain ⟨⟨tree?, r'⟩, u, -, h⟩ := bind_eq_ok.mp h
  obtain ⟨-, u', -, h⟩ := bind_eq_ok.mp h
  obtain ⟨found, -⟩ := pure_eq_ok.mp h
  obtain ⟨tree, -, rfl⟩ := Option.map_eq_some_iff.mp found
  exact ⟨tree, rfl⟩

theorem course_of_shows {α : Type} {x : Run (Workspace ι) α} {a : α}
    (h : Shows Workspace.Course x w) (came : x w = (.ok a, v)) :
    Workspace.Course .answered w v := by
  obtain ⟨k, tells, course⟩ := h
  rw [came] at tells course
  cases tells
  exact course

theorem shell_of_onShell {α : Type} {x : Run Shell α} {a : α}
    (h : onShell x w = (.ok a, v)) : x w.shell = (.ok a, v.shell) := by
  obtain ⟨outcome, rfl⟩ := Prod.mk.inj h
  exact Prod.ext outcome rfl

theorem contains_of_getNow {key : Key} {b : Branches} (miss : w.cache.get? key = none)
    (h : getNow compute key w = (.ok b, v)) {name : String} (member : name ∈ b) :
    name = Git.head ∨ ∃ line, Git.Contains key.root key.sha w.shell v.shell line ∧
      (line.ref = Git.localSpace ++ name.toList ∨ line.ref = Git.remoteSpace ++ name.toList) := by
  rw [getNow_of_miss compute miss] at h
  rcases came : compute key (begun key w) with ⟨e | b', u⟩
  · simp [came] at h
  · rw [came] at h
    obtain ⟨ok, rfl⟩ := Prod.mk.inj h
    obtain rfl : b' = b := by simpa using ok
    refine (Git.contains_of_containing (shell_of_onShell came) member).imp_right ?_
    rintro ⟨line, contains, ref⟩
    exact ⟨line, contains.widen ⟨rfl, List.suffix_refl _⟩ ⟨rfl, List.suffix_refl _⟩, ref⟩

theorem course_of_found {r : Registry} {root : String} {repository : Repository} {u : Workspace ι}
    (registry : w.lookup = .registry r)
    (looked : repository? root w = (.ok (some repository), u)) :
    Workspace.Course .answered w u := by
  rcases repository?_cases root registry with ⟨e, u', came, -⟩ | ⟨u', came, -⟩ |
    ⟨found, u', came, -, course⟩
  · simp [came] at looked
  · simp [came] at looked
  · obtain ⟨-, rfl⟩ : found = repository ∧ u' = u := by simpa [came] using looked
    exact course

/-- Where nothing is remembered and git is asked, an edit is denied for a protected branch of a
remote only if git has listed the branch, and a ref of its short name as containing the commit. -/
theorem cause_of_pushed {r : Registry} {commit : Commit} {branch : String}
    (registry : w.lookup = .registry r) (miss : w.cache.get? commit.key = none)
    (h : judge compute [commit] w = (.ok (.denied (.pushedTo branch)), v)) :
    ∃ found line, Git.Tracks w.shell v.shell found ∧ w.policy.covers found.localName = .ok true ∧
      Git.Contains commit.root commit.sha w.shell v.shell line ∧
      (line.ref = Git.localSpace ++ found.qualifiedName.toList ∨
        line.ref = Git.remoteSpace ++ found.qualifiedName.toList) := by
  rw [judge_single] at h
  obtain ⟨found?, u, looked, h⟩ := bind_eq_ok.mp h
  cases found? with
  | none => cases h
  | some repository =>
    have before : Workspace.Course .answered w u := course_of_found registry looked
    obtain ⟨tree, rfl⟩ := worktree_of_registry registry looked
    have same : u.cache = w.cache := ((asks_repository? commit.root).of_eq looked).cache
    dsimp only at h
    split at h
    case isFalse => simp [pure_eq_ok] at h
    obtain ⟨b, known, contained, ruled⟩ := bind_eq_ok.mp h
    obtain ⟨current, u', found, remotes, head, listed, member, covers, contains⟩ :=
      pushed_of_verdict ruled
    have onHead : Workspace.Course .answered known u' :=
      course_of_shows (shows_onShell (Git.shows_currentBranch tree.root _)) head
    have onRefs : Workspace.Course .answered u' v :=
      course_of_shows (shows_onShell (Git.shows_remoteBranches tree.root _)) listed
    have onKnown : Workspace.Course .answered u known :=
      course_of_shows (shows_containing commit u) contained
    rw [containing_of_miss (same ▸ miss)] at contained
    have start : Onward w.shell known.shell := (before.shell.trans onKnown.shell).onward
    have rest : Onward known.shell v.shell := (onHead.shell.trans onRefs.shell).onward
    have tracks : Git.Tracks u'.shell v.shell found :=
      Git.tracks_of_remoteBranches (shell_of_onShell listed) member
    have policy : v.policy = w.policy := by
      rw [onRefs.policy, onHead.policy, onKnown.policy, before.policy]
    rcases contains_of_getNow (same ▸ miss) contained contains with isHead | ⟨line, refs, ref⟩
    · have slash : '/' ∈ Git.head.toList := by
        rw [← isHead]
        simp [RemoteBranch.qualifiedName]
      simp [Git.head] at slash
    · exact ⟨found, line, tracks.before (start.trans onHead.shell.onward), policy ▸ covers,
        refs.widen before.shell.onward rest, ref⟩

end Gate

theorem Denial.pushed_of_message {reason : Denial} {branch : String}
    (h : reason.message = (pushedTo branch).message) : ∃ b, reason = .pushedTo b := by
  let lead := "The commit is already pushed to protected branch "
  have letter (i : Nat) (short : i < lead.toList.length) :
      reason.message.toList[i]? = lead.toList[i]? := by
    have whole : (pushedTo branch).message = lead ++ branch := rfl
    rw [h, whole, String.toList_append, List.getElem?_append_left short]
  cases reason with
  | pushedTo b => exact ⟨b, rfl⟩
  | parentCount n =>
    have first := letter 0 (by decide)
    have count : (parentCount n).message = "Selected commit has " ++ (toString n ++ " parents") :=
      String.append_assoc ..
    rw [count, String.toList_append, List.getElem?_append_left (by decide)] at first
    exact absurd first (by decide)
  | notInCurrentBranch => exact absurd (letter 14 (by decide)) (by decide)

namespace Session

open Workspace Containment

variable {w v : Session} {n : Nat} {s : Selection}

def SameOwn (w v : Session) : Prop := v.own = w.own

instance : Std.Refl SameOwn := ⟨fun _ => rfl⟩

instance : IsTrans Session SameOwn := ⟨fun _ _ _ h h' => Eq.trans h' h⟩

theorem judge_of_git (real : w.own.prepared = none) (f : Step → Run Session Answer) :
    Gate.judge (compute f) s w = Gate.judge Workspace.compute s w := by
  refine Gate.judge_congr fun k v begins => compute_of_git f ?_
  have same : SameOwn w v :=
    Step.rel_of_computation? (R := SameOwn) (s := .attemptEdit s "")
      (fun _ _ beside => beside.own) (fun _ _ => rfl) (fun _ _ _ _ => rfl) begins
  rw [show v.own = w.own from same, real]

theorem own_of_judge (s : Selection) (w : Session) :
    (Gate.judge Workspace.compute s w).2.own = w.own := by
  have maintains : Maintains SameOwn Workspace.compute :=
    maintains_of_loose (fun _ _ h => h.own) fun key w => (asks_compute key w).own
  exact maintains.upholds.judge maintains.getNow s w

/-- An edit is not denied for a protected branch of a remote because of local branches, unless a
local branch is called like a protected branch of a remote with its remote. -/
theorem local_branches_harmless {r : Registry} {commit : Commit} (registry : w.lookup = .registry r)
    (real : w.own.prepared = none) (miss : w.cache.get? commit.key = none) (n : Nat)
    (title : String) :
    let p := report n (.attemptEdit [commit] title) w
    let contains := Git.Contains commit.root commit.sha w.shell p.2.shell
    (∀ line, contains line → ¬ Git.remoteSpace <+: line.ref) →
    (∀ line found, contains line → Git.Tracks w.shell p.2.shell found →
      w.policy.covers found.localName = .ok true →
      line.ref ≠ Git.localSpace ++ found.qualifiedName.toList) →
    ∀ notice branch, .noticed notice ∈ p.1.events →
      notice.text ≠ (Denial.pushedTo branch).message := by
  intro p contains locals unlike notice branch told same
  have judged := judge_of_git (s := [commit]) real (nestedStep n)
  have nested : (Gate.judge (compute (nestedStep n)) [commit] w).2.own.nested = w.own.nested := by
    rw [judged, own_of_judge]
  obtain ⟨es, journal, untold⟩ := (adds_of_judge (Nat.le_of_eq (congrArg _ nested))).untold
  have silent (e : Event) (member : e ∈ es.reverse) : e.isNotice = false :=
    untold e (List.mem_reverse.mp member)
  rw [← List.reverse_reverse es] at journal
  rcases came : Gate.judge (compute (nestedStep n)) [commit] w with ⟨e | verdict, v⟩
  · rw [came] at journal nested
    have events : p.1.events = es.reverse :=
      congrArg (·.1.events) (report_attempt_of_error came journal nested)
    rw [events] at told
    exact absurd (silent _ told) (by simp [Event.isNotice])
  · rw [came] at journal nested judged
    have events : p.1.events = es.reverse ++ verdict.notices title :=
      congrArg StepReport.events (report_attempt_of_verdict came journal nested)
    rw [events, List.mem_append] at told
    rcases told with before | told
    · exact absurd (silent _ before) (by simp [Event.isNotice])
    cases verdict with
    | allowed => cases told
    | denied reason =>
      obtain rfl : notice = _ := by simpa [Verdict.notices] using told
      obtain ⟨b, rfl⟩ := Denial.pushed_of_message same
      have onward : Onward v.shell p.2.shell := by
        have last : p.2 = (Gate.attemptEdit (compute (nestedStep n)) [commit] title w).2 :=
          congrArg Prod.snd (step_attemptEdit n [commit] title w)
        rw [last, Gate.attemptEdit_of_verdict title came]
        exact ⟨rfl, List.suffix_refl _⟩
      obtain ⟨found, line, tracks, covers, listed, near | far⟩ :=
        Gate.cause_of_pushed registry miss judged.symm
      · exact unlike line found (listed.widen (.refl _) onward) (tracks.after onward) covers near
      · refine locals line (listed.widen (.refl _) onward) ?_
        rw [far]
        exact List.prefix_append ..

/-- Git on the branch `topic`, which has fetched the branch `main` of the remote `origin`, and
lists these refs as containing a commit. -/
def fetchedGit (listing : String) : Git := fun _ call =>
  let out := match call.args with
    | "rev-parse" :: _ => "/work\n"
    | "branch" :: _ => listing
    | "symbolic-ref" :: _ => "topic\n"
    | "remote" :: _ => "origin\n"
    | "for-each-ref" :: _ => "refs/remotes/origin/main \n"
    | _ => ""
  .ended 0 out.toByteArray "".toByteArray

def fetchedSession (listing : String) : Session where
  shell := { git := fetchedGit listing }
  policy := .protection {}
  lookup := .registry { workDir := "/work" }
  own := {}

theorem eq_of_printed {s t : Shell} {dir out : String} {args : List String}
    (printed : Printed s t dir args out) (text : String)
    (plain : decode text.toByteArray = some text)
    (replies : ∀ past, s.git past { args, dir } = .ended 0 text.toByteArray "".toByteArray) :
    out = text := by
  obtain ⟨past, -, -, read⟩ := printed
  have finished : finished (.ended 0 text.toByteArray "".toByteArray) = .ok ⟨0, text, ""⟩ := by
    rw [Shell.finished, plain]
    rfl
  have told : outputOf ("git" :: args) (s.git past { args, dir }) = .ok text := by
    rw [replies]
    show (Shell.finished _ >>= _) = _
    rw [finished]
    rfl
  exact Except.ok.inj (read.symm.trans told)

theorem listed_of_fetched {listing dir sha : String} {t : Shell} {line : Git.RefLine}
    (plain : decode listing.toByteArray = some listing)
    (h : Git.Contains dir sha (fetchedSession listing).shell t line) :
    line ∈ Git.readRefs listing := by
  obtain ⟨out, printed, listed, -⟩ := h
  rwa [eq_of_printed printed listing plain fun _ => rfl] at listed

theorem tracked_of_fetched {listing : String} {t : Shell} {found : RemoteBranch}
    (h : Git.Tracks (fetchedSession listing).shell t found) : found = ⟨"origin", "main"⟩ := by
  obtain ⟨dir, remotes, refs, printed, printed', listed⟩ := h
  rw [eq_of_printed printed "origin\n" rfl fun _ => rfl,
    eq_of_printed printed' "refs/remotes/origin/main \n" rfl fun _ => rfl] at listed
  exact List.mem_singleton.mp listed

theorem local_branches_harmless_main :
    let title := Action.reword.failureTitle
    let p := report 0 (.attemptEdit [pushedCommit] title)
      (fetchedSession "refs/heads/topic \nrefs/heads/main \n")
    p.1.outcome = .ok (.flag true) ∧ ∀ notice branch, .noticed notice ∈ p.1.events →
      notice.text ≠ (Denial.pushedTo branch).message := by
  intro title p
  have outcome : p.1.outcome = .ok (.flag true) := rfl
  refine ⟨outcome, ?_⟩
  apply local_branches_harmless (r := { workDir := "/work" }) rfl rfl rfl 0 title
  · intro line contains
    have near : ∀ line ∈ Git.readRefs "refs/heads/topic \nrefs/heads/main \n",
      ¬ Git.remoteSpace <+: line.ref := by decide +kernel
    exact near line (listed_of_fetched rfl contains)
  · intro line found contains tracks _
    rw [tracked_of_fetched tracks]
    have unlike : ∀ line ∈ Git.readRefs "refs/heads/topic \nrefs/heads/main \n",
      line.ref ≠ Git.localSpace ++ "origin/main".toList := by decide +kernel
    exact unlike line (listed_of_fetched rfl contains)

/-- A local branch that is called like a branch of a remote with its remote causes a denial. -/
theorem namesake_denies :
    let title := Action.reword.failureTitle
    let w := fetchedSession "refs/heads/topic \nrefs/heads/origin/main \n"
    let p := report 0 (.attemptEdit [pushedCommit] title) w
    (∀ line, Git.Contains pushedCommit.root pushedCommit.sha w.shell p.2.shell line →
      ¬ Git.remoteSpace <+: line.ref) ∧
    p.1.outcome.toOption = some (.flag false) ∧
    p.1.events.filterMap Event.notice? =
      [⟨.critical, title, (Denial.pushedTo "main").message⟩] := by
  intro title w p
  have near : ∀ line ∈ Git.readRefs "refs/heads/topic \nrefs/heads/origin/main \n",
    ¬ Git.remoteSpace <+: line.ref := by decide +kernel
  have denied : (p.1.outcome.toOption, p.1.events.filterMap Event.notice?) =
    (some (.flag false), [⟨.critical, title, (Denial.pushedTo "main").message⟩]) := by
    decide +kernel
  obtain ⟨answer, told⟩ := Prod.mk.inj denied
  exact ⟨fun line contains => near line (listed_of_fetched rfl contains), answer, told⟩

end Session

end HistoryGuard
