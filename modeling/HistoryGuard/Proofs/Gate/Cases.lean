import HistoryGuard.Proofs.Containment.Lookup
import HistoryGuard.Proofs.Workspace

/-! # The gate, case by case

What the gate comes to for each kind of selection, and which states it goes through: it asks git,
looks branches up at most once, and asks git again.
-/

namespace HistoryGuard

open Run Workspace Containment

/-- What the user is told of a verdict. -/
def Verdict.notices (title : String) : Verdict → List Event
  | allowed => []
  | denied reason => [.noticed ⟨.critical, title, reason.message⟩]

namespace Gate

variable {ι : Type} {compute : Compute ι} {s : Selection} {commit : Commit}
  {repository : Repository} {w v : Workspace ι}

theorem repository?_fixed {entries : List (String × Repository)} (h : w.lookup = .fixed entries)
    (root : String) : repository? root w = (.ok (entries.lookup root), w) := by
  have read : Run.read (·.lookup) w = (.ok (.fixed entries), w) := read_eq_ok.mpr ⟨h, rfl⟩
  rw [repository?, bind_of_ok read]
  rfl

theorem containing_of_hit {b : Branches} (h : w.cache.get? commit.key = some b) :
    containing compute commit w = (.ok b, w) := by
  have read : getCached commit.key w = (.ok (some b), w) := read_eq_ok.mpr ⟨h, rfl⟩
  rw [containing, bind_of_ok read]
  rfl

theorem containing_of_miss (h : w.cache.get? commit.key = none) :
    containing compute commit w = getNow compute commit.key w := by
  have read : getCached commit.key w = (.ok none, w) := read_eq_ok.mpr ⟨h, rfl⟩
  rw [containing, bind_of_ok read]

theorem judge_many (many : s.length ≠ 1) :
    judge compute s w = (.error (.notSingle s.length), w) := by
  match s, many with
  | [], _ => rfl
  | _ :: _ :: _, _ => rfl

theorem judge_single (compute : Compute ι) (commit : Commit) (w : Workspace ι) :
    judge compute [commit] w = (repository? commit.root >>= fun found =>
      match found with
      | none => .fail (.unknownRoot commit.root)
      | some repository =>
        if commit.parentCount = 1 then containing compute commit >>= verdict repository
        else pure (.denied (.parentCount commit.parentCount))) w :=
  rfl

theorem judge_unknown (h : repository? commit.root w = (.ok none, v)) :
    judge compute [commit] w = (.error (.unknownRoot commit.root), v) := by
  rw [judge_single, bind_of_ok h]
  rfl

theorem judge_found (h : repository? commit.root w = (.ok (some repository), v)) :
    judge compute [commit] w =
      if commit.parentCount = 1 then (containing compute commit >>= verdict repository) v
      else (.ok (.denied (.parentCount commit.parentCount)), v) := by
  rw [judge_single, bind_of_ok h]
  dsimp only
  split <;> rfl

theorem enablement_many (many : s.length ≠ 1) : enablement s w = (.ok .hidden, w) := by
  match s, many with
  | [], _ => rfl
  | _ :: _ :: _, _ => rfl

theorem enablement_unknown (h : repository? commit.root w = (.ok none, v)) :
    enablement [commit] w = (.ok .hidden, v) := by
  rw [enablement, bind_of_ok h]
  rfl

theorem enablement_not_single_parent (h : repository? commit.root w = (.ok (some repository), v))
    (many : commit.parentCount ≠ 1) :
    enablement [commit] w = (.ok (.disabled (.parentCount commit.parentCount)), v) := by
  rw [enablement, bind_of_ok h]
  dsimp only
  rw [if_neg many]
  rfl

/-- For a commit of one parent that is known to the cache, the enablement is the verdict on what
the cache holds, and otherwise it allows the edit. -/
theorem enablement_of_found (found : repository? commit.root w = (.ok (some repository), v))
    (one : commit.parentCount = 1) :
    (w.cache.get? commit.key = none ∧ enablement [commit] w = (.ok .available, v)) ∨
      ∃ b, w.cache.get? commit.key = some b ∧
        enablement [commit] w = (Verdict.presentation <$> verdict repository b) v := by
  have same : v.cache = w.cache := ((asks_repository? commit.root).of_eq found).cache
  cases hk : w.cache.get? commit.key with
  | none =>
    have cached : getCached commit.key v = (.ok none, v) := by
      rw [getCached, Run.read, same, hk]
    refine .inl ⟨rfl, ?_⟩
    rw [enablement, bind_of_ok found]
    simp only [if_pos one]
    rw [bind_of_ok cached]
    rfl
  | some b =>
    have cached : getCached commit.key v = (.ok (some b), v) := by
      rw [getCached, Run.read, same, hk]
    refine .inr ⟨b, rfl, ?_⟩
    rw [enablement, bind_of_ok found, map_eq_pure_bind]
    simp only [if_pos one]
    rw [bind_of_ok cached]

theorem attemptEdit_of_verdict {verdict : Verdict} (title : String)
    (h : judge compute s w = (.ok verdict, v)) :
    attemptEdit compute s title w = (.ok (decide (verdict = .allowed)),
      { v with shell.journal := (verdict.notices title).reverse ++ v.shell.journal }) := by
  rw [attemptEdit, bind_of_ok h]
  cases verdict <;> rfl

theorem attemptEdit_beside (compute : Compute ι) (s : Selection) (title : String)
    (w : Workspace ι) :
    Beside (Event.isNotice ·) (judge compute s w).2 (attemptEdit compute s title w).2 := by
  rcases hj : judge compute s w with ⟨e | verdict, v⟩
  · rw [attemptEdit, bind_of_error hj]
    exact refl_of _ v
  · rw [attemptEdit_of_verdict title hj]
    refine ⟨rfl, rfl, rfl, _, rfl, ?_⟩
    cases verdict <;> simp [Verdict.notices, Event.isNotice]

/-- The gate does no more than ask git, or it also looks up the branches of a key that is not
remembered. -/
theorem judge_course (compute : Compute ι) (s : Selection) (w : Workspace ι) :
    Beside (Event.isQuery ·) w (judge compute s w).2 ∨
      ∃ commit found, s = [commit] ∧ Beside (Event.isQuery ·) w found ∧
        found.cache.get? commit.key = none ∧
        Beside (Event.isQuery ·) (getNow compute commit.key found).2 (judge compute s w).2 := by
  by_cases one : s.length = 1
  case neg =>
    rw [judge_many one]
    exact .inl (refl_of _ w)
  obtain ⟨commit, rfl⟩ := List.length_eq_one_iff.mp one
  rcases hf : repository? commit.root w with ⟨e | _ | repository, found⟩
  · have asked := (asks_repository? commit.root).of_eq hf
    rw [judge_single, bind_of_error hf]
    exact .inl asked
  · have asked := (asks_repository? commit.root).of_eq hf
    rw [judge_unknown hf]
    exact .inl asked
  · have asked := (asks_repository? commit.root).of_eq hf
    rw [judge_found hf]
    split
    case isFalse => exact .inl asked
    cases hc : found.cache.get? commit.key with
    | some b =>
      rw [bind_of_ok (containing_of_hit hc)]
      exact .inl (trans_of _ asked (asks_verdict repository b found))
    | none =>
      refine .inr ⟨commit, found, rfl, asked, hc, ?_⟩
      rw [← containing_of_miss hc]
      rcases hb : containing compute commit found with ⟨e | b, u⟩
      · rw [bind_of_error hb]
        exact refl_of _ u
      · rw [bind_of_ok hb]
        exact asks_verdict repository b u

end Gate

end HistoryGuard
