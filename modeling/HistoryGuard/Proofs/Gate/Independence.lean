import Mathlib.Data.List.Forall2
import HistoryGuard.Proofs.Edit.Forgetting
import HistoryGuard.Proofs.Gate.Agreement

/-! # The past makes no difference

Where each key always comes to the same branches or to the same failure, whatever is remembered is
what would be computed. So an attempt does not depend on what has been looked up, requested and
forgotten before: it goes by the rules alone.
-/

namespace HistoryGuard

open Run Workspace Containment

/-- The verdict of the rules, where `f` tells the branches that contain a commit. -/
def Policy.assess (policy : Policy) (entries : List (String × Repository))
    (f : Key → Except Failure Branches) (s : Selection) : Except Failure Verdict := do
  let commit ← s.single
  match entries.lookup commit.root with
  | some (.recorded current remotes) =>
    if commit.parentCount = 1 then policy.ruling current remotes (← f commit.key)
    else return .denied (.parentCount commit.parentCount)
  | _ => .error (.unknownRoot commit.root)

namespace Session

/-- Every computation of a key comes to what `f` says, and no steps are nested in it. -/
structure Settles (f : Key → Except Failure Branches) (table : Table Key (List Prepared)) :
    Prop where
  flat : Flat table
  next : ∀ key, nextResult table key = f key
  later : ∀ key results, table key = some results → ∀ p ∈ results, p.result = f key

/-- Repositories are found in a fixed list, computations come to what `f` says, and so does what
is remembered. -/
structure Steady (entries : List (String × Repository)) (f : Key → Except Failure Branches)
    (w : Session) : Prop where
  lookup : w.lookup = .fixed entries
  prepared : ∃ table, w.own.prepared = some table ∧ Settles f table
  agrees : ∀ key b, w.cache.get? key = some b → f key = .ok b

variable {entries : List (String × Repository)} {f : Key → Except Failure Branches}
  {table : Table Key (List Prepared)} {w v : Session}

theorem Settles.remaining (h : Settles f table) (key : Key) : Settles f (remaining table key) := by
  constructor
  case flat => exact h.flat.remaining key
  case next =>
    intro k
    by_cases same : k = key
    · have now := h.next key
      rw [nextResult_eq] at now
      rw [same, nextResult_eq, remaining_same]
      cases held : table key with
      | none => rwa [held] at now
      | some results =>
        match results, held with
        | [], held => rwa [held] at now
        | [_], held => rwa [held] at now
        | _ :: second :: _, held => exact h.later key _ held second (by simp)
    · rw [← h.next k, nextResult_eq, nextResult_eq, remaining_other same]
  case later =>
    intro k results held p member
    obtain ⟨before, was, kept⟩ := mem_of_remaining held
    exact h.later k before was p (kept p member)

theorem Steady.of_less (h : Steady entries f w) (lookup : v.lookup = w.lookup)
    (prepared : v.own.prepared = w.own.prepared)
    (less : ∀ key b, v.cache.get? key = some b → w.cache.get? key = some b) :
    Steady entries f v :=
  ⟨lookup.trans h.lookup, prepared ▸ h.prepared, fun key b held => h.agrees key b (less key b held)⟩

theorem Steady.of_computes {key : Key} {c : Cache} (h : Steady entries f w)
    (settles : Settles f table) (computes : Computes table key c w v)
    (gained : ∀ k b, c.get? k = some b →
      w.cache.get? k = some b ∨ k = key ∧ nextResult table key = .ok b) :
    Steady entries f v := by
  refine ⟨computes.lookup.trans h.lookup,
    ⟨_, computes.prepared, settles.remaining key⟩, fun k b held => ?_⟩
  rw [computes.cache] at held
  rcases gained k b held with known | ⟨rfl, result⟩
  · exact h.agrees k b known
  · rw [← settles.next, result]

theorem gained_looked {c : Cache} {key k : Key} {outcome : Except Failure Branches} {b : Branches}
    (held : (c.looked key outcome).get? k = some b) :
    c.get? k = some b ∨ k = key ∧ outcome = .ok b := by
  cases outcome with
  | error e => exact .inl held
  | ok b' =>
    rw [Cache.looked, Cache.get?_store] at held
    split at held
    · next stored =>
      obtain rfl := Option.some.inj held
      exact .inr ⟨stored.2, rfl⟩
    · exact .inl held

theorem gained_carried {c : Cache} {task : Task} {rest : List Task} {k : Key}
    {outcome : Except Failure Branches} {b : Branches}
    (held : (c.carried task rest outcome).get? k = some b) :
    c.get? k = some b ∨ k = task.key ∧ outcome = .ok b := by
  cases outcome with
  | error e => exact .inl held
  | ok b' =>
    rw [Cache.carried, Cache.finish, Cache.get?_store] at held
    split at held
    · next stored =>
      obtain rfl := Option.some.inj held
      exact .inr ⟨stored.2, rfl⟩
    · exact .inl held

/-- A lookup comes to what `f` says, whether it hits or misses. -/
theorem getNow_steady (h : Steady entries f w) (g : Step → Run Session Answer) (key : Key) :
    ∃ (v : Session) (events : List Event), getNow (compute g) key w = (f key, v) ∧
      Steady entries f v ∧ v.policy = w.policy ∧ v.own.nested = w.own.nested ∧
      v.shell.journal = events.reverse ++ w.shell.journal ∧ ∀ e ∈ events, e.isNotice = false := by
  cases hk : w.cache.get? key with
  | some b =>
    rw [getNow_of_hit _ hk, h.agrees key b hk]
    exact ⟨w, [], rfl, h, rfl, rfl, rfl, by simp⟩
  | none =>
    obtain ⟨table, prepared, settles⟩ := h.prepared
    obtain ⟨v, came, computes⟩ := getNow_flat g prepared settles.flat hk
    refine ⟨v, _, ?_, h.of_computes settles computes fun _ _ => gained_looked, computes.policy,
      computes.nested, computes.journal, by simp [Event.isNotice]⟩
    rw [came, settles.next]

theorem runNext_steady (h : Steady entries f w) (g : Step → Run Session Answer) :
    Steady entries f (runNext (compute g) w).2 := by
  cases hq : w.cache.queue with
  | nil =>
    rw [runNext_of_idle _ hq]
    exact h
  | cons task rest =>
    obtain ⟨table, prepared, settles⟩ := h.prepared
    obtain ⟨v, came, computes⟩ := runNext_flat g prepared settles.flat hq
    rw [came]
    exact h.of_computes settles computes fun _ _ => gained_carried

def Stays (entries : List (String × Repository)) (f : Key → Except Failure Branches)
    (w v : Session) : Prop :=
  Steady entries f w → Steady entries f v

instance : Std.Refl (Stays entries f) := ⟨fun _ h => h⟩

instance : IsTrans Session (Stays entries f) := ⟨fun _ _ _ h h' steady => h' (h steady)⟩

section Stays

variable {α : Type}

theorem stays_onShell (x : Run Shell α) : Keeps (Stays entries f) (onShell x) :=
  fun _ h => h.of_less rfl rfl fun _ _ held => held

theorem stays_repository? (root : String) : Keeps (Stays entries f) (repository? root) := by
  intro w h
  rw [Gate.repository?_fixed h.lookup]
  exact h

theorem upholds_stays : Upholds (Stays entries f) :=
  ⟨fun _ => stays_onShell _, stays_repository?⟩

theorem stays_request (key : Key) : Keeps (Stays entries f) (request key) := by
  intro w h
  rw [request_snd]
  refine h.of_less rfl rfl fun k b held => ?_
  rwa [Cache.get?, Cache.entries_request] at held

theorem stays_invalidate (target : Option String) :
    Keeps (Stays entries f) (invalidate target) := by
  intro w h
  refine h.of_less rfl rfl fun k b held => ?_
  rw [invalidate_eq] at held
  by_cases forgets : Cache.Forgets target k.root
  · rw [Cache.get?_invalidate_of_forgets forgets] at held
    cases held
  · rwa [Cache.get?_invalidate_of_not forgets] at held

variable (g : Step → Run Session Answer)

theorem stays_getNow (key : Key) : Keeps (Stays entries f) (getNow (compute g) key) := by
  intro w h
  obtain ⟨v, -, came, steady, -⟩ := getNow_steady h g key
  rw [came]
  exact steady

theorem stays_runNext : Keeps (Stays entries f) (runNext (compute g)) :=
  fun _ h => runNext_steady h g

/-- Whatever is done, repositories stay in the list and what is remembered comes to what `f`
says. -/
theorem stays_step (n : Nat) (s : Step) : Keeps (Stays entries f) (step n s) := by
  rw [step_eq]
  have getNow : ∀ key, Keeps (Stays entries f) (getNow (compute (nestedStep n)) key) :=
    stays_getNow _
  have tell (title text : String) : Keeps (Stays entries f) (Gate.tell title text) :=
    stays_onShell _
  apply upholds_stays.step getNow tell stays_request (stays_runNext _)
    (fun root => stays_invalidate root)
  case shutdown => exact fun w h => h.of_less rfl rfl fun _ _ held => held
  case git => exact fun _ w h => h.of_less rfl rfl fun _ _ held => held
  case settings => exact fun _ w h => h.of_less rfl rfl fun _ _ held => held
  case perform =>
    intro edit s _ w
    exact upholds_stays.perform_at getNow tell (fun root => stays_invalidate (some root))
      fun commit v _ _ => stays_onShell (edit.carryOut commit) v

theorem stays_run (limit : Nat) (steps : List Step) (w : Session) :
    Stays entries f w (run limit steps w).2 := by
  induction steps generalizing w with
  | nil => exact refl_of _ w
  | cons s rest ih => exact trans_of _ (stays_step limit s w) (ih _)

end Stays

/-- What the report of a lookup says is what `f` says of the key. -/
def Truthful (f : Key → Except Failure Branches) : Step → StepReport → Prop
  | .getCached key, r =>
    r.outcome = .ok .nothing ∨ ∃ b, f key = .ok b ∧ r.outcome = .ok (.branches b)
  | .getNow key, r => r.outcome = (f key).map .branches
  | _, _ => True

theorem truthful_of_steady (h : Steady entries f w) (limit : Nat) (s : Step) :
    Truthful f s (report limit s w).1 := by
  cases s with
  | getCached key =>
    have read : (report limit (.getCached key) w).1.outcome =
        .ok (.ofOption .branches (w.cache.get? key)) := by
      show (step limit (.getCached key) w).1 = _
      rw [step_eq]
      rfl
    cases held : w.cache.get? key with
    | none =>
      rw [held] at read
      exact .inl read
    | some b =>
      rw [held] at read
      exact .inr ⟨b, h.agrees key b held, read⟩
  | getNow key =>
    obtain ⟨v, -, came, -⟩ := getNow_steady h (nestedStep limit) key
    show (step limit (.getNow key) w).1 = (f key).map .branches
    rw [step_eq, Step.run, bind_pure_apply, came]
  | _ => trivial

theorem truthful_run (h : Steady entries f w) (limit : Nat) (steps : List Step) :
    List.Forall₂ (Truthful f) steps (run limit steps w).1 := by
  induction steps generalizing w with
  | nil => exact .nil
  | cons s rest ih => exact .cons (truthful_of_steady h limit s) (ih (stays_step limit s w h))

theorem containing_steady (h : Steady entries f w) (g : Step → Run Session Answer)
    (commit : Commit) :
    ∃ (v : Session) (events : List Event),
      Gate.containing (compute g) commit w = (f commit.key, v) ∧ v.policy = w.policy ∧
      v.own.nested = w.own.nested ∧ v.shell.journal = events.reverse ++ w.shell.journal ∧
      ∀ e ∈ events, e.isNotice = false := by
  obtain ⟨v, events, came, -, policy, rest⟩ := getNow_steady h g commit.key
  refine ⟨v, events, ?_, policy, rest⟩
  cases hc : w.cache.get? commit.key with
  | none => rw [Gate.containing_of_miss hc, came]
  | some b =>
    rw [getNow_of_hit _ hc] at came
    rw [Gate.containing_of_hit hc, came]

def told (title : String) : Except Failure Verdict → List Event
  | .ok verdict => verdict.notices title
  | .error _ => []

/-- Nothing has been remembered yet. -/
structure Opening (entries : List (String × Repository)) (f : Key → Except Failure Branches)
    (w : Session) : Prop where
  lookup : w.lookup = .fixed entries
  prepared : ∃ table, w.own.prepared = some table ∧ Settles f table
  cache : w.cache = {}

theorem Opening.steady (h : Opening entries f w) : Steady entries f w := by
  refine ⟨h.lookup, h.prepared, fun key b held => ?_⟩
  rw [h.cache] at held
  cases held

section Recorded

variable (recorded : ∀ entry ∈ entries, ∃ current remotes, entry.2 = .recorded current remotes)
include recorded

theorem recorded_of_lookup {root : String} {r : Repository} (h : entries.lookup root = some r) :
    ∃ current remotes, r = .recorded current remotes := by
  obtain ⟨before, after, rfl, -⟩ := List.lookup_eq_some_iff.mp h
  exact recorded (root, r) (by simp)

/-- The gate comes to the verdict of the rules. -/
theorem judge_steady (h : Steady entries f w) (g : Step → Run Session Answer) (s : Selection) :
    ∃ (v : Session) (events : List Event),
      Gate.judge (compute g) s w = (w.policy.assess entries f s, v) ∧
      v.own.nested = w.own.nested ∧ v.shell.journal = events.reverse ++ w.shell.journal ∧
      ∀ e ∈ events, e.isNotice = false := by
  have still {outcome : Except Failure Verdict} (ends : Gate.judge (compute g) s w = (outcome, w))
      (same : w.policy.assess entries f s = outcome) :
      ∃ (v : Session) (events : List Event),
        Gate.judge (compute g) s w = (w.policy.assess entries f s, v) ∧
        v.own.nested = w.own.nested ∧ v.shell.journal = events.reverse ++ w.shell.journal ∧
        ∀ e ∈ events, e.isNotice = false :=
    ⟨w, [], same ▸ ends, rfl, rfl, by simp⟩
  by_cases one : s.length = 1
  case neg =>
    refine still (Gate.judge_many one) ?_
    match s, one with
    | [], _ => rfl
    | _ :: _ :: _, _ => rfl
  obtain ⟨commit, rfl⟩ := List.length_eq_one_iff.mp one
  have found := Gate.repository?_fixed h.lookup commit.root
  have rules : w.policy.assess entries f [commit] = match entries.lookup commit.root with
      | some (.recorded current remotes) =>
        if commit.parentCount = 1 then f commit.key >>= w.policy.ruling current remotes
        else .ok (.denied (.parentCount commit.parentCount))
      | _ => .error (.unknownRoot commit.root) := rfl
  cases listed : entries.lookup commit.root with
  | none =>
    rw [listed] at found rules
    exact still (Gate.judge_unknown found) rules
  | some repository =>
    obtain ⟨current, remotes, rfl⟩ := recorded_of_lookup recorded listed
    rw [listed] at found rules
    dsimp only at rules
    have judged : Gate.judge (compute g) [commit] w = _ := Gate.judge_found found
    by_cases parent : commit.parentCount = 1
    case neg =>
      rw [if_neg parent] at judged rules
      exact still judged rules
    rw [if_pos parent] at judged rules
    obtain ⟨v, events, contained, policy, nested, journal, untold⟩ :=
      containing_steady h g commit
    refine ⟨v, events, ?_, nested, journal, untold⟩
    rw [judged, rules]
    cases hf : f commit.key with
    | error e =>
      rw [hf] at contained
      exact bind_of_error contained
    | ok b =>
      rw [hf] at contained
      rw [bind_of_ok contained, Gate.verdict_of_recorded, policy]
      rfl

theorem attempt_steady (h : Steady entries f w) (n : Nat) (s : Selection) (title : String) :
    let r := (report n (.attemptEdit s title) w).1
    let ruled := w.policy.assess entries f s
    r.outcome = ruled.map (fun verdict => .flag (decide (verdict = .allowed))) ∧
      r.events.filter Event.isNotice = told title ruled := by
  obtain ⟨v, events, judged, nested, journal, untold⟩ :=
    judge_steady recorded h (nestedStep n) s
  have silent : events.filter Event.isNotice = [] := by
    rw [List.filter_eq_nil_iff]
    exact fun e he => by simp [untold e he]
  intro r ruled
  cases hr : ruled with
  | error e =>
    rw [show w.policy.assess entries f s = .error e from hr] at judged
    have ends : r = ⟨.error e, events, []⟩ :=
      congrArg Prod.fst (report_attempt_of_error judged journal nested)
    rw [ends]
    exact ⟨rfl, silent⟩
  | ok verdict =>
    rw [show w.policy.assess entries f s = .ok verdict from hr] at judged
    have ends : r = ⟨.ok (.flag (decide (verdict = .allowed))),
        events ++ verdict.notices title, []⟩ := report_attempt_of_verdict judged journal nested
    rw [ends]
    refine ⟨rfl, ?_⟩
    rw [List.filter_append, silent, List.nil_append]
    cases verdict <;> rfl

/-- An attempt does not depend on what was done before. After any two courses of steps that end
with the same policy it answers and tells the same, which is what the rules say where nothing is
remembered. All lookups on the way tell what is computed. -/
theorem attempt_independent {start start' : Session} (opening : Opening entries f start)
    (opening' : Opening entries f start') (limit limit' : Nat) (before before' : List Step)
    (same : (run limit before start).2.policy = (run limit' before' start').2.policy)
    (n n' : Nat) (s : Selection) (title : String) :
    let w := (run limit before start).2
    let r := (report n (.attemptEdit s title) w).1
    let r' := (report n' (.attemptEdit s title) (run limit' before' start').2).1
    let ruled := w.policy.assess entries f s
    (r.outcome = r'.outcome ∧
      r.events.filter Event.isNotice = r'.events.filter Event.isNotice) ∧
    (r.outcome = ruled.map (fun verdict => .flag (decide (verdict = .allowed))) ∧
      r.events.filter Event.isNotice = told title ruled) ∧
    List.Forall₂ (Truthful f) before (run limit before start).1 := by
  intro w r r' ruled
  have steady : Steady entries f w := stays_run limit before start opening.steady
  have steady' : Steady entries f (run limit' before' start').2 :=
    stays_run limit' before' start' opening'.steady
  obtain ⟨outcome, notices⟩ := attempt_steady recorded steady n s title
  obtain ⟨outcome', notices'⟩ := attempt_steady recorded steady' n' s title
  rw [← same] at outcome' notices'
  refine ⟨⟨outcome.trans outcome'.symm, notices.trans notices'.symm⟩, ⟨outcome, notices⟩, ?_⟩
  exact truthful_run opening.steady limit before

end Recorded

theorem settles_of_one (f : Key → Except Failure Branches) :
    Settles f fun key => some [{ result := f key }] := by
  constructor
  case flat =>
    rintro key results held next member
    obtain rfl := Option.some.inj held
    rw [List.mem_singleton.mp member]
  case next => exact fun key => rfl
  case later =>
    rintro key results held next member
    obtain rfl := Option.some.inj held
    rw [List.mem_singleton.mp member]

/-- Every commit is found in the branch of the head and in a protected branch of a remote. -/
def pushedBranches (_ : Key) : Except Failure Branches := .ok (.ofList ["topic", "origin/main"])

def everPushedSession : Session :=
  { pushedSession with own.prepared := some fun key => some [{ result := pushedBranches key }] }

theorem attempt_independent_pushed :
    let key := pushedCommit.key
    let title := Action.reword.failureTitle
    let attempt := Step.attemptEdit [pushedCommit] title
    let before : List Step := [.request key, .runNext, .settings { patterns := [] }, attempt,
      .getNow key, .invalidate none, .settings {}, .shutdown]
    let r := (report 0 attempt (run 0 before everPushedSession).2).1
    let r' := (report 0 attempt everPushedSession).1
    let notices := [.noticed ⟨.critical, title, (Denial.pushedTo "main").message⟩]
    r.outcome = r'.outcome ∧ r.events.filter Event.isNotice = notices ∧
      r'.events.filter Event.isNotice = notices := by
  intro key title attempt before r r' notices
  have opening : Opening [("/work", .recorded "topic" [⟨"origin", "main"⟩])] pushedBranches
      everPushedSession := ⟨rfl, ⟨_, rfl, settles_of_one pushedBranches⟩, rfl⟩
  obtain ⟨⟨outcome, same⟩, ⟨-, told⟩, -⟩ :=
    attempt_independent (by simp) opening opening 0 0 before [] rfl 0 0 [pushedCommit] title
  exact ⟨outcome, told, same.symm.trans told⟩

end Session

end HistoryGuard
