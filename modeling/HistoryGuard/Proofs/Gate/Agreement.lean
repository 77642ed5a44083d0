import HistoryGuard.Proofs.Containment.Prepared
import HistoryGuard.Proofs.Gate.Cases
import HistoryGuard.Proofs.Report

/-! # The two checks agree

The enablement that is shown for a selection is what an attempt in the same state makes true: it
is hidden where the attempt is misused, disabled with the reason that the attempt tells, and
available otherwise. Where nothing is remembered the enablement knows less: then the attempt
computes once and goes by what it has computed.
-/

namespace HistoryGuard

open Run Workspace Containment

/-- The gate is asked about something that it cannot judge. -/
def Failure.isMisuse : Failure → Bool
  | notSingle _ => true
  | unknownRoot _ => true
  | _ => false

/-- The verdict of a protection on branches that are known. -/
def Protection.ruling (p : Protection) (current : String) (remotes : List RemoteBranch)
    (b : Branches) : Verdict :=
  if current ∈ b then
    match remotes.find? fun r => p.covers r.localName && decide (r.qualifiedName ∈ b) with
    | some r => .denied (.pushedTo r.localName)
    | none => .allowed
  else .denied .notInCurrentBranch

namespace Policy

def ruling (policy : Policy) (current : String) (remotes : List RemoteBranch) (b : Branches) :
    Except Failure Verdict := do
  if current ∈ b then
    match ← Gate.firstProtected policy b remotes with
    | some r => return .denied (.pushedTo r.localName)
    | none => return .allowed
  else return .denied .notInCurrentBranch

theorem ruling_protection (p : Protection) (current : String) (remotes : List RemoteBranch)
    (b : Branches) :
    (protection p).ruling current remotes b = .ok (p.ruling current remotes b) := by
  rw [ruling, Protection.ruling, Gate.firstProtected_protection]
  split
  · cases remotes.find? fun r => p.covers r.localName && decide (r.qualifiedName ∈ b) <;> rfl
  · rfl

end Policy

namespace Gate

variable {ι : Type} {p : Protection} {w v : Workspace ι}

theorem verdict_of_told {r : Repository} {current : String} {remotes : List RemoteBranch}
    {u : Workspace ι} (head : onShell r.currentBranch w = (.ok current, u))
    (listed : onShell r.remoteBranches u = (.ok remotes, v)) (b : Branches) :
    verdict r b w = (w.policy.ruling current remotes b, if current ∈ b then v else u) := by
  have policy : v.policy = w.policy := by
    obtain ⟨-, rfl⟩ := Prod.mk.inj listed
    obtain ⟨-, rfl⟩ := Prod.mk.inj head
    rfl
  have found : findProtected r b u = (firstProtected w.policy b remotes, v) := by
    rw [findProtected, bind_of_ok listed, ← policy]
    rfl
  rw [verdict, bind_of_ok head, Policy.ruling]
  split
  · rw [bind_apply, found]
    rcases firstProtected w.policy b remotes with e | _ | r <;> rfl
  · rfl

theorem verdict_of_recorded {current : String} {remotes : List RemoteBranch}
    (b : Branches) (w : Workspace ι) :
    verdict (.recorded current remotes) b w = (w.policy.ruling current remotes b, w) := by
  rw [verdict_of_told (r := .recorded current remotes) (u := w) (v := w) rfl rfl, ite_self]

theorem verdict_recorded {current : String} {remotes : List RemoteBranch} (b : Branches)
    (h : w.policy = .protection p) :
    verdict (.recorded current remotes) b w = (.ok (p.ruling current remotes b), w) := by
  rw [verdict_of_recorded, h, Policy.ruling_protection]

end Gate

namespace Session

variable {entries : List (String × Repository)} {table : Table Key (List Prepared)}
  {p : Protection} {w v : Session} {s : Selection}

theorem report_enablement {offer : Presentation} (n : Nat)
    (h : Gate.enablement s w = (.ok offer, w)) :
    report n (.checkEnablement s) w = (⟨.ok (.presentation offer), [], []⟩, w) := by
  have done : step n (.checkEnablement s) w = (.ok (.presentation offer), w) := by
    rw [step_eq, Step.run, bind_of_ok h]
    rfl
  exact report_of_step done rfl rfl

theorem report_attempt_of_error {n : Nat} {e : Failure} {title : String} {events : List Event}
    (judged : Gate.judge (compute (nestedStep n)) s w = (.error e, v))
    (journal : v.shell.journal = events.reverse ++ w.shell.journal)
    (nested : v.own.nested = w.own.nested) :
    report n (.attemptEdit s title) w = (⟨.error e, events, []⟩, v) := by
  have attempt : Gate.attemptEdit (compute (nestedStep n)) s title w = (.error e, v) :=
    bind_of_error judged
  refine report_of_step ?_ journal nested
  rw [step_attemptEdit, attempt]
  rfl

/-- The attempt goes by the verdict, and tells it if it denies. -/
theorem report_attempt_of_verdict {n : Nat} {verdict : Verdict} {title : String}
    {events : List Event} (judged : Gate.judge (compute (nestedStep n)) s w = (.ok verdict, v))
    (journal : v.shell.journal = events.reverse ++ w.shell.journal)
    (nested : v.own.nested = w.own.nested) :
    (report n (.attemptEdit s title) w).1 =
      ⟨.ok (.flag (decide (verdict = .allowed))), events ++ verdict.notices title, []⟩ := by
  have done : step n (.attemptEdit s title) w = (.ok (.flag (decide (verdict = .allowed))),
      { v with shell.journal := (verdict.notices title).reverse ++ v.shell.journal }) := by
    rw [step_attemptEdit, Gate.attemptEdit_of_verdict title judged]
    rfl
  refine congrArg Prod.fst (report_of_step done ?_ nested)
  rw [List.reverse_append, List.append_assoc, ← journal]

inductive Tally (entries : List (String × Repository)) (table : Table Key (List Prepared))
    (w : Session) (s : Selection) (title : String) : Presentation → StepReport → Prop
  | many (many : s.length ≠ 1) : Tally entries table w s title .hidden
      ⟨.error (.notSingle s.length), [], []⟩
  | unknown {commit : Commit} (single : s = [commit])
      (unknown : entries.lookup commit.root = none) : Tally entries table w s title .hidden
      ⟨.error (.unknownRoot commit.root), [], []⟩
  | denied {commit : Commit} {repository : Repository} (single : s = [commit])
      (found : entries.lookup commit.root = some repository) (reason : Denial) :
      Tally entries table w s title (.disabled reason)
      ⟨.ok (.flag false), [.noticed ⟨.critical, title, reason.message⟩], []⟩
  | allowed {commit : Commit} {repository : Repository} (single : s = [commit])
      (found : entries.lookup commit.root = some repository)
      (cached : w.cache.get? commit.key ≠ none) : Tally entries table w s title .available
      ⟨.ok (.flag true), [], []⟩
  | failed {commit : Commit} {repository : Repository} {e : Failure} (single : s = [commit])
      (found : entries.lookup commit.root = some repository)
      (miss : w.cache.get? commit.key = none) (result : nextResult table commit.key = .error e) :
      Tally entries table w s title .available
      ⟨.error e, [.computing w.serial commit.key, .computed w.serial commit.key (.error e)], []⟩
  | computed {commit : Commit} {repository : Repository} {b : Branches} {verdict : Verdict}
      (single : s = [commit]) (found : entries.lookup commit.root = some repository)
      (miss : w.cache.get? commit.key = none) (result : nextResult table commit.key = .ok b)
      (ruled : Gate.verdict repository b w = (.ok verdict, w)) :
      Tally entries table w s title .available
      ⟨.ok (.flag (decide (verdict = .allowed))),
        [.computing w.serial commit.key, .computed w.serial commit.key (.ok b)] ++
          verdict.notices title, []⟩

/-- Where nothing is remembered the attempt computes once and goes by the result. -/
theorem tally_of_miss {commit : Commit} {current : String} {remotes : List RemoteBranch} {n : Nat}
    (listed : entries.lookup commit.root = some (.recorded current remotes))
    (policy : w.policy = .protection p) (prepared : w.own.prepared = some table)
    (flat : Flat table) (miss : w.cache.get? commit.key = none)
    (judged : Gate.judge (compute (nestedStep n)) [commit] w =
      (Gate.containing (compute (nestedStep n)) commit >>=
        Gate.verdict (.recorded current remotes)) w) (title : String) :
    Tally entries table w [commit] title .available
      (report n (.attemptEdit [commit] title) w).1 := by
  obtain ⟨v, asked, computes⟩ := getNow_flat (nestedStep n) prepared flat miss
  have journal := computes.journal
  rw [← Gate.containing_of_miss miss] at asked
  cases result : nextResult table commit.key with
  | error e =>
    rw [result] at asked journal
    rw [bind_of_error asked] at judged
    rw [report_attempt_of_error judged journal computes.nested]
    exact .failed rfl listed miss result
  | ok b =>
    rw [result] at asked journal
    rw [bind_of_ok asked, Gate.verdict_recorded b (computes.policy.trans policy)] at judged
    rw [report_attempt_of_verdict judged journal computes.nested]
    exact .computed rfl listed miss result (Gate.verdict_recorded b policy)

theorem exists_tally (lookup : w.lookup = .fixed entries)
    (recorded : ∀ entry ∈ entries, ∃ current remotes, entry.2 = .recorded current remotes)
    (policy : w.policy = .protection p) (prepared : w.own.prepared = some table)
    (flat : Flat table) (n : Nat) (s : Selection) (title : String) :
    ∃ offer, report n (.checkEnablement s) w = (⟨.ok (.presentation offer), [], []⟩, w) ∧
      Tally entries table w s title offer (report n (.attemptEdit s title) w).1 := by
  have still : w.shell.journal = ([] : List Event).reverse ++ w.shell.journal := rfl
  by_cases one : s.length = 1
  case neg =>
    refine ⟨.hidden, report_enablement n (Gate.enablement_many one), ?_⟩
    rw [report_attempt_of_error (Gate.judge_many one) still rfl]
    exact .many one
  obtain ⟨commit, rfl⟩ := List.length_eq_one_iff.mp one
  have found := Gate.repository?_fixed lookup commit.root
  cases listed : entries.lookup commit.root with
  | none =>
    rw [listed] at found
    refine ⟨.hidden, report_enablement n (Gate.enablement_unknown found), ?_⟩
    rw [report_attempt_of_error (Gate.judge_unknown found) still rfl]
    exact .unknown rfl listed
  | some repository =>
    obtain ⟨before, after, rfl, -⟩ := List.lookup_eq_some_iff.mp listed
    obtain ⟨current, remotes, rfl⟩ := recorded (commit.root, repository) (by simp)
    rw [listed] at found
    have judged : Gate.judge (compute (nestedStep n)) [commit] w = _ := Gate.judge_found found
    by_cases parent : commit.parentCount = 1
    case neg =>
      rw [if_neg parent] at judged
      have offered := Gate.enablement_not_single_parent found parent
      refine ⟨_, report_enablement n offered, ?_⟩
      rw [report_attempt_of_verdict judged still rfl]
      exact .denied rfl listed _
    rw [if_pos parent] at judged
    rcases Gate.enablement_of_found found parent with ⟨miss, offered⟩ | ⟨b, hit, offered⟩
    · refine ⟨.available, report_enablement n offered, ?_⟩
      exact tally_of_miss listed policy prepared flat miss judged title
    · have ruled : Gate.verdict (.recorded current remotes) b w = _ :=
        Gate.verdict_recorded b policy
      rw [bind_of_ok (Gate.containing_of_hit hit), ruled] at judged
      rw [map_eq_pure_bind, bind_of_ok ruled] at offered
      refine ⟨_, report_enablement n offered, ?_⟩
      rw [report_attempt_of_verdict judged still rfl]
      cases p.ruling current remotes b with
      | allowed => exact .allowed rfl listed (by simp [hit])
      | denied reason => exact .denied rfl listed reason

/-- The enablement agrees with an attempt in the same state. It is hidden exactly if the attempt
is misused, it is disabled with the reason for which the attempt denies the edit, and it is
available if the attempt allows the edit or has to compute first. The enablement itself does
nothing that could be seen. -/
theorem checks_agree (lookup : w.lookup = .fixed entries)
    (recorded : ∀ entry ∈ entries, ∃ current remotes, entry.2 = .recorded current remotes)
    (policy : w.policy = .protection p) (prepared : w.own.prepared = some table)
    (flat : Flat table) (n : Nat) (s : Selection) (title : String) :
    ∃ offer, report n (.checkEnablement s) w = (⟨.ok (.presentation offer), [], []⟩, w) ∧
      let r := (report n (.attemptEdit s title) w).1
      (offer = .hidden ↔ ∃ e, e.isMisuse = true ∧ r = ⟨.error e, [], []⟩) ∧
      ((∀ key e, nextResult table key = .error e → e.isMisuse = false) →
        (offer = .hidden ↔ ∃ e, e.isMisuse = true ∧ r.outcome = .error e)) ∧
      (r = ⟨.error (.notSingle s.length), [], []⟩ ↔ s.length ≠ 1) ∧
      (∀ commit, s = [commit] →
        (r = ⟨.error (.unknownRoot commit.root), [], []⟩ ↔ entries.lookup commit.root = none)) ∧
      (∀ reason, offer = .disabled reason →
        r = ⟨.ok (.flag false), [.noticed ⟨.critical, title, reason.message⟩], []⟩) ∧
      (offer = .available → ∃ commit repository, s = [commit] ∧
        entries.lookup commit.root = some repository ∧
        (w.cache.get? commit.key ≠ none → r = ⟨.ok (.flag true), [], []⟩) ∧
        (w.cache.get? commit.key = none →
          let result := nextResult table commit.key
          let computation :=
            [.computing w.serial commit.key, .computed w.serial commit.key result]
          (∀ e, result = .error e → r = ⟨.error e, computation, []⟩) ∧
          ∀ b, result = .ok b → ∃ verdict, Gate.verdict repository b w = (.ok verdict, w) ∧
            r = ⟨.ok (.flag (decide (verdict = .allowed))),
              computation ++ verdict.notices title, []⟩)) := by
  obtain ⟨offer, offered, tally⟩ :=
    exists_tally lookup recorded policy prepared flat n s title
  refine ⟨offer, offered, ?_⟩
  generalize (report n (.attemptEdit s title) w).1 = r at tally ⊢
  cases tally with
  | many many =>
    have other (commit : Commit) : s ≠ [commit] := by
      rintro rfl
      exact many rfl
    simp [Failure.isMisuse, many, other]
  | @unknown commit single unknown =>
    subst single
    simp [Failure.isMisuse, unknown, -List.lookup_eq_none_iff]
  | @denied commit repository single found reason =>
    subst single
    simp [found, -List.lookup_eq_none_iff]
  | @allowed commit repository single found cached =>
    subst single
    simp [found, cached, -List.lookup_eq_none_iff]
  | @failed commit repository e single found miss result =>
    subst single
    have plain (clean : ∀ key e, nextResult table key = .error e → e.isMisuse = false) :
        e.isMisuse = false := clean _ e result
    simpa [found, miss, result, -List.lookup_eq_none_iff] using plain
  | @computed commit repository b verdict single found miss result ruled =>
    subst single
    simp [found, miss, result, ruled, -List.lookup_eq_none_iff]

/-- The branch of the head and a protected branch of a remote are found to contain the commit, as
soon as that is computed. -/
def pushedSession : Session where
  shell := { git := Git.ofRules [] }
  policy := .protection {}
  lookup := .fixed [("/work", .recorded "topic" [⟨"origin", "main"⟩])]
  own := { prepared := some (Table.empty.put ⟨"/work", "c"⟩
    [{ result := .ok (.ofList ["topic", "origin/main"]) }]) }

def pushedCommit : Commit := { sha := "c", root := "/work", parents := ["p"] }

theorem checks_agree_pushed :
    let title := Action.reword.failureTitle
    let branches : Branches := .ofList ["topic", "origin/main"]
    (report 0 (.checkEnablement [pushedCommit]) pushedSession).1.outcome =
      .ok (.presentation .available) ∧
    (report 0 (.attemptEdit [pushedCommit] title) pushedSession).1 =
      ⟨.ok (.flag false), [.computing 0 pushedCommit.key,
        .computed 0 pushedCommit.key (.ok branches),
        .noticed ⟨.critical, title, (Denial.pushedTo "main").message⟩], []⟩ := by
  intro title branches
  have flat : Flat (Table.empty.put ⟨"/work", "c"⟩ [{ result := .ok branches }]) := by
    intro key results held next member
    unfold Table.put at held
    split at held
    · obtain rfl := Option.some.inj held
      rw [List.mem_singleton.mp member]
    · cases held
  obtain ⟨offer, offered, -, -, -, -, -, available⟩ :=
    checks_agree (w := pushedSession) rfl (by simp) rfl rfl flat 0 [pushedCommit] title
  have shown : (report 0 (.checkEnablement [pushedCommit]) pushedSession).1.outcome =
    .ok (.presentation .available) := rfl
  refine ⟨shown, ?_⟩
  obtain rfl : offer = .available := by
    rw [offered] at shown
    simpa using shown
  obtain ⟨commit, repository, single, found, -, uncached⟩ := available rfl
  obtain rfl : pushedCommit = commit := List.singleton_inj.mp single
  obtain rfl : Repository.recorded "topic" [⟨"origin", "main"⟩] = repository :=
    Option.some.inj found
  obtain ⟨verdict, ruled, told⟩ := (uncached rfl).2 branches rfl
  have denied : Gate.verdict (.recorded "topic" [⟨"origin", "main"⟩]) branches pushedSession =
    (.ok (.denied (.pushedTo "main")), pushedSession) := rfl
  rw [denied] at ruled
  obtain rfl : Verdict.denied (.pushedTo "main") = verdict := by simpa using ruled
  exact told

end Session

end HistoryGuard
