import HistoryGuard.Proofs.Containment.Count
import HistoryGuard.Proofs.Containment.Freshness
import HistoryGuard.Proofs.Edit.Approved
import HistoryGuard.Proofs.Gate.Cases
import HistoryGuard.Proofs.Report

/-! # Edits forget

However an edit ends that the gate has allowed, what is remembered of its root is forgotten at the
end, and nothing that was asked for before is remembered later. A failure of git or of the history
is told to the user and ends there, and any other failure is handed on untold.
-/

namespace HistoryGuard

open Run Workspace Containment

namespace Edit

variable {ι : Type}

def notices (edit : Edit) : Except Failure Bool → List Event
  | .error e =>
    if e.isTold then [.noticed ⟨.critical, edit.action.failureTitle, e.message⟩] else []
  | .ok _ => []

theorem reverse_notices (edit : Edit) (outcome : Except Failure Bool) :
    (edit.notices outcome).reverse = edit.notices outcome := by
  cases outcome with
  | ok done => rfl
  | error e =>
    rw [notices]
    split <;> rfl

/-- How a perform answers where carrying out the edit came to this outcome. -/
def answer : Except Failure Bool → Except Failure Bool
  | .error e => if e.isTold then .ok false else .error e
  | .ok done => .ok done

theorem conclude_apply (edit : Edit) (commit : Commit) (outcome : Except Failure Bool)
    (w : Workspace ι) :
    edit.conclude commit outcome w = (answer outcome,
      (invalidate (some commit.root)
        { w with shell.journal := edit.notices outcome ++ w.shell.journal }).2) := by
  cases outcome with
  | ok done => rfl
  | error e =>
    rw [conclude, answer, notices, Failure.isTold]
    split <;> rfl

/-- The state of an edit before the root is forgotten. -/
def carriedOut (edit : Edit) (commit : Commit) (w : Workspace ι) : Workspace ι :=
  let (outcome, shell) := edit.carryOut commit w.shell
  { w with shell := { shell with journal := edit.notices outcome ++ shell.journal } }

theorem perform_of_allowed {compute : Compute ι} {edit : Edit} {commit : Commit}
    {w t : Workspace ι}
    (h : Gate.attemptEdit compute [commit] edit.action.failureTitle w = (.ok true, t)) :
    edit.perform compute [commit] w = (answer (edit.carryOut commit t.shell).1,
      (invalidate (some commit.root) (edit.carriedOut commit t)).2) := by
  have single : Run.ofExcept (Selection.single [commit]) t = (.ok commit, t) := rfl
  rw [perform, bind_of_ok h, if_pos rfl, bind_of_ok single, bind_apply]
  simp only [attempt]
  exact conclude_apply ..

theorem carriedOut_journal (edit : Edit) (commit : Commit) (w : Workspace ι) :
    ∃ es, (edit.carriedOut commit w).shell.journal = es ++ w.shell.journal ∧
      es.filter Event.isNotice = edit.notices (edit.carryOut commit w.shell).1 := by
  have quiet := edit.grows_carryOut (P := fun e => e.isNotice = false) (fun _ _ => rfl)
    (fun _ _ => rfl) commit w.shell
  obtain ⟨es, journal, silent⟩ := quiet.journal
  refine ⟨edit.notices (edit.carryOut commit w.shell).1 ++ es, ?_, ?_⟩
  · simp only [carriedOut, journal, List.append_assoc]
  · have others : es.filter Event.isNotice = [] := by
      rw [List.filter_eq_nil_iff]
      intro e he
      simp [silent e he]
    rw [List.filter_append, others, List.append_nil]
    cases edit.carryOut commit w.shell with
    | mk outcome shell =>
      cases outcome with
      | ok done => rfl
      | error e =>
        simp only [notices]
        split <;> rfl

end Edit

namespace Session

variable {start w v x : Session} {root : String}

/-- The events tell of a computation of the key with this result, from its beginning on. -/
def Computed (events : List Event) (key : Key) (b : Branches) : Prop :=
  ∃ n later mid earlier,
    events = later ++ .computed n key (.ok b) :: mid ++ .computing n key :: earlier

/-- A computation with this stamp was asked for before the last event of the session. -/
def Asked (start v : Session) (key : Key) (stamp : Stamp) : Prop :=
  ⟨key, stamp⟩ ∈ v.cache.outstanding ∨
    ∃ u, Reaches start u ∧ u.shell.journal <:+ v.shell.journal.tail ∧
      (stamp = u.cache.stamp key.root ∨ ⟨key, stamp⟩ ∈ u.cache.outstanding)

/-- The last event of the session forgets the root. What is remembered of the root whenever the
session has gone on has been computed since, and nothing that was asked for before is
remembered. -/
structure Forgotten (start : Session) (root : String) (v : Session) : Prop where
  last : v.shell.journal = .invalidated (some root) :: v.shell.journal.tail
  gone : ∀ key, key.root = root → v.cache.get? key = none
  renewed : ∀ x, Reaches start x → v.shell.journal <:+ x.shell.journal → ∀ key b,
    key.root = root → x.cache.get? key = some b →
    ∃ later, x.shell.journal = later ++ v.shell.journal ∧ Computed later key b
  stale : ∀ x, Reaches start x → v.shell.journal <:+ x.shell.journal → ∀ key stamp b,
    key.root = root → Asked start v key stamp →
    x.cache.store key stamp b = x.cache ∧
      (x.cache.finish ⟨key, stamp⟩ b).entries = x.cache.entries

theorem computed_of_fresh {journal earlier : List Event} {key : Key} {b : Branches}
    (fresh : Fresh journal key b) (h : .invalidated (some key.root) :: earlier <:+ journal) :
    ∃ later, journal = later ++ .invalidated (some key.root) :: earlier ∧ Computed later key b := by
  obtain ⟨n, later, mid, before, rfl, kept, -⟩ := fresh
  have begins : .computing n key :: before <:+
      later ++ .computed n key (.ok b) :: mid ++ .computing n key :: before :=
    List.suffix_append _ _
  rcases suffix_of_cons_suffix h begins with inside | ⟨since, rfl⟩
  · rcases List.suffix_cons_iff.mp inside with same | ⟨since, rfl⟩
    · simp at same
    · refine ⟨later ++ .computed n key (.ok b) :: mid ++ .computing n key :: since, by simp, ?_⟩
      exact ⟨n, later, mid, since, rfl⟩
  · -- the root would have been forgotten while it was computed
    obtain ⟨newer, split⟩ := h
    have forgotten : newer ++ .invalidated (some key.root) :: since =
        later ++ .computed n key (.ok b) :: mid := by
      apply (List.append_left_inj (.computing n key :: before)).mp
      simpa using split
    have member : .invalidated (some key.root) ∈ later ++ .computed n key (.ok b) :: mid := by
      rw [← forgotten]
      simp
    refine absurd ⟨_, rfl, .inr rfl⟩ (kept (.invalidated (some key.root)) ?_)
    simpa using member

theorem forgotten_of_invalidate {t y : Session} (initial : Initial start) (ht : Reaches start t)
    (hv : Reaches start (invalidate (some root) y).2) (cache : y.cache = t.cache)
    (journal : t.shell.journal <:+ y.shell.journal) :
    Forgotten start root (invalidate (some root) y).2 := by
  have sound {w : Session} (hw : Reaches start w) : Sound w :=
    (soundLater_of_reaches hw).sound initial.sound
  constructor
  case last => rfl
  case gone =>
    rintro key rfl
    exact Cache.get?_invalidate_of_forgets (.inr rfl)
  case renewed =>
    rintro x hx after key b rfl hk
    exact computed_of_fresh ((sound hx).fresh key b hk) after
  case stale =>
    rintro x hx after key stamp b rfl asked
    have behind : ∃ u, Reaches start u ∧ u.shell.journal <:+ y.shell.journal ∧
        stamp ≤ u.cache.stamp key.root := by
      rcases asked with task | ⟨u, hu, before, rfl | task⟩
      · rw [invalidate_eq, Cache.outstanding_invalidate, cache] at task
        exact ⟨t, ht, journal, (sound ht).timely _ task⟩
      · exact ⟨u, hu, before, Stamp.le_refl _⟩
      · exact ⟨u, hu, before, (sound hu).timely _ task⟩
    obtain ⟨u, hu, before, old⟩ := behind
    have stale := stale_of_forgotten initial hu hx (.inr rfl) before after old
    refine ⟨Cache.store_of_stale b stale, ?_⟩
    rw [Cache.finish, Cache.store_of_stale b (by exact stale)]
    rfl

/-- Between the two states the gate has told the user nothing, and has at most remembered the
branches of a selected commit. -/
structure Adds (s : Selection) (w v : Session) : Prop where
  kept : ∀ key b, w.cache.get? key = some b → v.cache.get? key = some b
  others : ∀ key, (∀ commit ∈ s, key ≠ commit.key) → v.cache.get? key = w.cache.get? key
  untold : ∃ es, v.shell.journal = es ++ w.shell.journal ∧ ∀ e ∈ es, e.isNotice = false

theorem Adds.trans {s : Selection} {w v u : Session} (h : Adds s w v) (h' : Adds s v u) :
    Adds s w u := by
  obtain ⟨es, journal, untold⟩ := h.untold
  obtain ⟨es', journal', untold'⟩ := h'.untold
  refine ⟨fun key b hk => h'.kept key b (h.kept key b hk), fun key other => ?_, es' ++ es, ?_, ?_⟩
  · rw [h'.others key other, h.others key other]
  · rw [journal', journal, List.append_assoc]
  · intro e he
    rcases List.mem_append.mp he with he | he
    · exact untold' e he
    · exact untold e he

theorem adds_of_cache {s : Selection} {w v : Session} {l : List Event}
    (cache : v.cache = w.cache) (journal : v.shell.journal = l ++ w.shell.journal)
    (untold : ∀ e ∈ l, e.isNotice = false) : Adds s w v :=
  ⟨fun _ _ hk => cache ▸ hk, fun key _ => congrArg (Cache.get? · key) cache, l, journal, untold⟩

theorem adds_of_queries {s : Selection} {w v : Session} (cache : v.cache = w.cache)
    (h : ∃ es, v.shell.journal = es ++ w.shell.journal ∧ ∀ e ∈ es, e.isQuery = true) :
    Adds s w v := by
  obtain ⟨es, journal, queries⟩ := h
  refine adds_of_cache cache journal fun e he => ?_
  have query := queries e he
  cases e with
  | called => rfl
  | _ => simp [Event.isQuery] at query

theorem adds_of_getNow {n : Nat} {commit : Commit} {w : Session}
    (miss : w.cache.get? commit.key = none)
    (h : (getNow (compute (nestedStep n)) commit.key w).2.own.nested.length ≤
      w.own.nested.length) :
    Adds [commit] w (getNow (compute (nestedStep n)) commit.key w).2 := by
  have start : Adds [commit] w (begun commit.key w) :=
    adds_of_cache (l := [_]) rfl rfl (by simp [Event.isNotice])
  have quiet := compute_quiet n commit.key (begun commit.key w)
  rw [getNow_of_miss _ miss] at h ⊢
  rcases hv : compute (nestedStep n) commit.key (begun commit.key w) with ⟨e | b, u⟩
  all_goals
    rw [hv] at h quiet
    have same : u.cache = w.cache := (quiet h).cache
    refine (start.trans (adds_of_queries same (quiet h).journal)).trans ?_
  · exact adds_of_cache (l := [_]) rfl rfl (by simp [Event.isNotice])
  · refine ⟨fun key b' hk => ?_, fun key other => ?_, [_], rfl, by simp [Event.isNotice]⟩
    · refine (Cache.get?_store).trans ((if_neg ?_).trans hk)
      rintro ⟨-, rfl⟩
      rw [same, miss] at hk
      cases hk
    · exact Cache.get?_store.trans (if_neg fun h => other commit (by simp) h.2)

/-- With no step nested in it the gate does little to the cache, however it decides. -/
theorem adds_of_judge {n : Nat} {s : Selection} {w : Session}
    (h : (Gate.judge (compute (nestedStep n)) s w).2.own.nested.length ≤ w.own.nested.length) :
    Adds s w (Gate.judge (compute (nestedStep n)) s w).2 := by
  rcases Gate.judge_course (compute (nestedStep n)) s w with
    beside | ⟨commit, found, rfl, before, miss, beside⟩
  · exact adds_of_queries beside.cache beside.journal
  · rw [beside.own, ← before.own] at h
    have looked := adds_of_getNow miss h
    exact ((adds_of_queries before.cache before.journal).trans looked).trans
      (adds_of_queries beside.cache beside.journal)

section Perform

variable {n : Nat} {edit : Edit} {commit : Commit} {t : Session}

theorem step_perform_of_allowed (allowed : Gate.attemptEdit (compute (nestedStep n)) [commit]
      edit.action.failureTitle w = (.ok true, t)) :
    step n (.perform edit [commit]) w =
      ((Edit.answer (edit.carryOut commit t.shell).1).map .flag,
        (invalidate (some commit.root) (edit.carriedOut commit t)).2) := by
  rw [step_perform, Edit.perform_of_allowed allowed]

theorem told_of_allowed (allowed : Gate.attemptEdit (compute (nestedStep n)) [commit]
      edit.action.failureTitle w = (.ok true, t)) :
    (added t.shell.journal (step n (.perform edit [commit]) w).2.shell.journal).filter
        Event.isNotice = edit.notices (edit.carryOut commit t.shell).1 ∧
      t.shell.journal <:+ (step n (.perform edit [commit]) w).2.shell.journal := by
  obtain ⟨es, journal, told⟩ := edit.carriedOut_journal commit t
  have ends : (step n (.perform edit [commit]) w).2.shell.journal =
      (.invalidated (some commit.root) :: es) ++ t.shell.journal := by
    rw [step_perform_of_allowed allowed, invalidate_eq, List.cons_append, ← journal]
    rfl
  rw [ends, added_append, List.filter_reverse, ← edit.reverse_notices, ← told]
  exact ⟨rfl, List.suffix_append ..⟩

theorem forgotten_of_allowed (initial : Initial start) (reaches : Reaches start w)
    (allowed : Gate.attemptEdit (compute (nestedStep n)) [commit]
      edit.action.failureTitle w = (.ok true, t)) :
    Forgotten start commit.root (step n (.perform edit [commit]) w).2 := by
  have attempted := reaches.step n (.attemptEdit [commit] edit.action.failureTitle)
  have performed := reaches.step n (.perform edit [commit])
  obtain ⟨es, journal, -⟩ := edit.carriedOut_journal commit t
  rw [step_attemptEdit, allowed] at attempted
  rw [step_perform_of_allowed allowed] at performed ⊢
  exact forgotten_of_invalidate initial attempted performed rfl ⟨es, journal.symm⟩

theorem adds_of_perform {s : Selection}
    (none : (report n (.perform edit s) w).1.nested = [])
    (own : (step n (.perform edit s) w).2.own = (Gate.attemptEdit (compute (nestedStep n)) s
      edit.action.failureTitle w).2.own) :
    Adds s w (Gate.judge (compute (nestedStep n)) s w).2 := by
  have le := nested_le_of_none none
  rw [own, (Gate.attemptEdit_beside ..).own] at le
  exact adds_of_judge le

theorem adds_of_allowed (allowed : Gate.attemptEdit (compute (nestedStep n)) [commit]
      edit.action.failureTitle w = (.ok true, t))
    (none : (report n (.perform edit [commit]) w).1.nested = []) : Adds [commit] w t := by
  have judged := Gate.judge_eq_allowed_iff.mpr (Gate.attemptEdit_eq_true_iff.mp allowed)
  have adds := adds_of_perform none (by rw [step_perform_of_allowed allowed, allowed]; rfl)
  rwa [judged] at adds

theorem others_of_allowed (allowed : Gate.attemptEdit (compute (nestedStep n)) [commit]
      edit.action.failureTitle w = (.ok true, t))
    (none : (report n (.perform edit [commit]) w).1.nested = []) {key : Key}
    (other : key.root ≠ commit.root) :
    (step n (.perform edit [commit]) w).2.cache.get? key = w.cache.get? key := by
  have outside : ∀ c ∈ [commit], key ≠ c.key := by
    rintro c hc rfl
    exact other (congrArg Commit.root (List.mem_singleton.mp hc))
  have after : (step n (.perform edit [commit]) w).2.cache =
      t.cache.invalidate (some commit.root) := by
    rw [step_perform_of_allowed allowed]
    rfl
  rw [after, ← (adds_of_allowed allowed none).others key outside]
  refine Cache.get?_invalidate_of_not ?_
  simpa [Cache.Forgets] using Ne.symm other

/-- The gate has told the user nothing. -/
theorem notices_of_allowed (allowed : Gate.attemptEdit (compute (nestedStep n)) [commit]
      edit.action.failureTitle w = (.ok true, t))
    (none : (report n (.perform edit [commit]) w).1.nested = []) :
    (report n (.perform edit [commit]) w).1.events.filter Event.isNotice =
      (added t.shell.journal (step n (.perform edit [commit]) w).2.shell.journal).filter
        Event.isNotice := by
  obtain ⟨es, journal, untold⟩ := (adds_of_allowed allowed none).untold
  have silent : (added w.shell.journal t.shell.journal).filter Event.isNotice = [] := by
    rw [journal, added_append, List.filter_reverse, List.reverse_eq_nil_iff,
      List.filter_eq_nil_iff]
    exact fun e he => by simp [untold e he]
  have events : (report n (.perform edit [commit]) w).1.events =
      added w.shell.journal t.shell.journal ++
        added t.shell.journal (step n (.perform edit [commit]) w).2.shell.journal :=
    added_trans ⟨es, journal.symm⟩ (told_of_allowed allowed).2
  rw [events, List.filter_append, silent, List.nil_append]

end Perform

/-- However an edit ends that the gate has allowed, its root is forgotten at the end. The user is
told of the failure if it comes from git or from the history, and of nothing else. With no step
nested in the perform the cache keeps all of other roots, and it keeps everything if the gate has
not allowed the edit. -/
theorem edits_forget (initial : Initial start) (reaches : Reaches start w) (n : Nat) (edit : Edit)
    (s : Selection) :
    let attempt := Gate.attemptEdit (compute (nestedStep n)) s edit.action.failureTitle w
    let r := (report n (.perform edit s) w).1
    let v := (report n (.perform edit s) w).2
    (∀ t, attempt = (.ok true, t) → ∃ commit, s = [commit] ∧
      Forgotten start commit.root v ∧
      (r.nested = [] → ∀ key, key.root ≠ commit.root → v.cache.get? key = w.cache.get? key) ∧
      let outcome := (edit.carryOut commit t.shell).1
      let told := (added t.shell.journal v.shell.journal).filter Event.isNotice
      (r.nested = [] → r.events.filter Event.isNotice = told) ∧
      (∀ done, outcome = .ok done → r.outcome = .ok (.flag done) ∧ told = []) ∧
      (∀ e, outcome = .error e → e.isCommand = true ∨ e.isHistory = true →
        r.outcome = .ok (.flag false) ∧
          told = [.noticed ⟨.critical, edit.action.failureTitle, e.message⟩]) ∧
      ∀ e, outcome = .error e → ¬ (e.isCommand = true ∨ e.isHistory = true) →
        r.outcome = .error e ∧ told = []) ∧
    ((∀ t, attempt ≠ (.ok true, t)) → r.nested = [] →
      ∀ key b, w.cache.get? key = some b → v.cache.get? key = some b) := by
  intro attempt r v
  constructor
  · intro t allowed
    obtain ⟨approval⟩ := Gate.attemptEdit_eq_true_iff.mp allowed
    obtain ⟨commit, rfl⟩ : ∃ commit, s = [commit] := ⟨_, approval.single⟩
    have done := step_perform_of_allowed allowed
    refine ⟨commit, rfl, forgotten_of_allowed initial reaches allowed, ?_, ?_⟩
    · exact fun none key other => others_of_allowed allowed none other
    · intro outcome told
      have answered : r.outcome = (Edit.answer outcome).map .flag := congrArg Prod.fst done
      have notices : told = edit.notices outcome := (told_of_allowed allowed).1
      refine ⟨notices_of_allowed allowed, ?_⟩
      rw [answered, notices]
      refine ⟨?_, ?_, ?_⟩
      · intro done h
        rw [h]
        exact ⟨rfl, rfl⟩
      · intro e h kind
        have isTold : e.isTold = true := by simpa [Failure.isTold] using kind
        rw [h, Edit.answer, Edit.notices, if_pos isTold, if_pos isTold]
        exact ⟨rfl, rfl⟩
      · intro e h kind
        have isTold : ¬ e.isTold = true := by simpa [Failure.isTold] using kind
        rw [h, Edit.answer, Edit.notices, if_neg isTold, if_neg isTold]
        exact ⟨rfl, rfl⟩
  · intro denied none key b hk
    obtain ⟨same, -⟩ := edit.perform_of_denied denied
    have after : (report n (.perform edit s) w).2 = attempt.2 := by
      show (step n (.perform edit s) w).2 = _
      rw [step_perform, same]
    show (report n (.perform edit s) w).2.cache.get? key = _
    rw [after, (Gate.attemptEdit_beside ..).cache]
    exact (adds_of_perform none (congrArg (·.own) after)).kept key b hk

/-- Git in a work tree in which a merge lies between the commit `c` and the head. -/
def mergedGit : Git := fun _ call =>
  let out := match call.args with
    | "rev-list" :: "--parents" :: _ => "c p\n"
    | "rev-list" :: "--min-parents=2" :: _ => "m\n"
    | _ => ""
  .ended 0 out.toByteArray "".toByteArray

def mergedSession : Session where
  shell := { git := mergedGit }
  policy := .protection {}
  lookup := .fixed [(topCommit.root, .recorded "topic" [])]
  own := { prepared := some (Table.empty.put topCommit.key
    [{ result := .ok (.ofList ["topic"]) }]) }

theorem edits_forget_merged :
    let edit : Edit := .rebase fun lines => .ok (some lines)
    let p := report 0 (.perform edit [topCommit]) mergedSession
    Forgotten mergedSession topCommit.root p.2 ∧ p.1.outcome = .ok (.flag false) ∧
      p.1.events.filter Event.isNotice =
        [.noticed ⟨.critical, edit.action.failureTitle,
          (Failure.mergesInRange ["m"]).message⟩] := by
  intro edit p
  let attempt := Gate.attemptEdit (compute (nestedStep 0)) [topCommit] edit.action.failureTitle
    mergedSession
  have allowed : attempt = (.ok true, attempt.2) := rfl
  obtain ⟨commit, single, forgotten, -, whole, -, failed, -⟩ :=
    (edits_forget ⟨rfl, rfl⟩ .refl 0 edit [topCommit]).1 attempt.2 allowed
  obtain rfl : topCommit = commit := List.singleton_inj.mp single
  have merged : (edit.carryOut topCommit attempt.2.shell).1 = .error (.mergesInRange ["m"]) := rfl
  obtain ⟨answered, told⟩ := failed _ merged (.inr rfl)
  exact ⟨forgotten, answered, (whole rfl).trans told⟩

end Session

end HistoryGuard
