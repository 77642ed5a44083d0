import HistoryGuard.Proofs.Gate.Agreement
import HistoryGuard.Proofs.Gate.Editable

/-! # The verdict by itself

What the verdict on a set of branches depends on: whether the current branch is in it, and which
protected branches of remotes are in it under their full names. A larger set, more patterns and more
remote branches can only turn an allowance into a denial, never the other way.
-/

namespace HistoryGuard

open Run Workspace

namespace Protection

variable {p q : Protection} {b b' : Branches} {current branch : String}
  {remotes remotes' : List RemoteBranch} {r : RemoteBranch}

theorem ruling_of_mem (inCurrent : current ∈ b) (remotes : List RemoteBranch) :
    p.ruling current remotes b = match remotes.find? (p.Bars b ·) with
      | some r => .denied (.pushedTo r.localName)
      | none => .allowed := by
  have search : (fun r : RemoteBranch => p.covers r.localName && decide (r.qualifiedName ∈ b)) =
      fun r => decide (p.Bars b r) := by
    funext r
    rw [Bool.eq_iff_iff, bars_iff, decide_eq_true_iff]
  rw [← search]
  exact if_pos inCurrent

theorem ruling_of_not_mem (outside : current ∉ b) :
    p.ruling current remotes b = .denied .notInCurrentBranch := if_neg outside

theorem ruling_eq_notInCurrentBranch_iff :
    p.ruling current remotes b = .denied .notInCurrentBranch ↔ current ∉ b := by
  refine ⟨fun denied inCurrent => ?_, ruling_of_not_mem⟩
  rw [ruling_of_mem inCurrent] at denied
  split at denied <;> cases denied

theorem ruling_eq_allowed_iff :
    p.ruling current remotes b = .allowed ↔ current ∈ b ∧ ∀ r ∈ remotes, ¬ p.Bars b r := by
  by_cases inCurrent : current ∈ b
  case neg => simp [ruling_of_not_mem, inCurrent]
  have free : remotes.find? (p.Bars b ·) = none ↔ ∀ r ∈ remotes, ¬ p.Bars b r := by simp
  rw [ruling_of_mem inCurrent, ← free, and_iff_right inCurrent]
  cases remotes.find? (p.Bars b ·) <;> simp

theorem ruling_eq_pushedTo_iff :
    p.ruling current remotes b = .denied (.pushedTo branch) ↔ current ∈ b ∧
      ∃ earlier r later, remotes = earlier ++ r :: later ∧ r.localName = branch ∧
        p.Bars b r ∧ ∀ q ∈ earlier, ¬ p.Bars b q := by
  by_cases inCurrent : current ∈ b
  case neg => simp [ruling_of_not_mem, inCurrent]
  have first (r : RemoteBranch) : remotes.find? (p.Bars b ·) = some r ↔ p.Bars b r ∧
      ∃ earlier later, remotes = earlier ++ r :: later ∧ ∀ q ∈ earlier, ¬ p.Bars b q := by
    simp [List.find?_eq_some_iff_append]
  rw [ruling_of_mem inCurrent, and_iff_right inCurrent]
  constructor
  · intro denied
    split at denied
    case h_2 => cases denied
    next r found =>
      obtain ⟨bars, earlier, later, split, free⟩ := (first r).mp found
      exact ⟨earlier, r, later, split, by simpa using denied, bars, free⟩
  · rintro ⟨earlier, r, later, split, rfl, bars, free⟩
    rw [(first r).mpr ⟨bars, earlier, later, split, free⟩]

/-- Only the current branch and the protected branches of remotes count. -/
theorem ruling_congr (head : current ∈ b' ↔ current ∈ b)
    (same : ∀ r ∈ remotes, p.Protects r.localName → (r.qualifiedName ∈ b' ↔ r.qualifiedName ∈ b)) :
    p.ruling current remotes b' = p.ruling current remotes b := by
  by_cases inCurrent : current ∈ b
  · have search : remotes.find? (p.Bars b' ·) = remotes.find? (p.Bars b ·) := by
      rw [← List.head?_filter, ← List.head?_filter]
      refine congrArg List.head? (List.filter_congr fun r hr => decide_eq_decide.mpr ?_)
      exact and_congr_right (same r hr)
    rw [ruling_of_mem (head.mpr inCurrent), ruling_of_mem inCurrent, search]
  · rw [ruling_of_not_mem (mt head.mp inCurrent), ruling_of_not_mem inCurrent]

/-- The second protection is on if the first one is, and it has its patterns. -/
structure Extends (p q : Protection) : Prop where
  enabled : p.enabled = true → q.enabled = true
  patterns : p.patterns ⊆ q.patterns

theorem Extends.protects (h : p.Extends q) {name : String} (protects : p.Protects name) :
    q.Protects name := by
  obtain ⟨enabled, pattern, hp, fits⟩ := protects
  exact ⟨h.enabled enabled, pattern, h.patterns hp, fits⟩

theorem allowed_of_allowed (patterns : p.Extends q) (listed : remotes ⊆ remotes')
    (members : ∀ n ∈ b, n ∈ b') (inCurrent : current ∈ b)
    (allowed : q.ruling current remotes' b' = .allowed) :
    p.ruling current remotes b = .allowed := by
  obtain ⟨-, free⟩ := ruling_eq_allowed_iff.mp allowed
  refine ruling_eq_allowed_iff.mpr ⟨inCurrent, fun r hr bars => ?_⟩
  exact free r (listed hr) ⟨patterns.protects bars.1, members _ bars.2⟩

/-- A denial stays one if there are more patterns. -/
theorem denied_of_denied (patterns : p.Extends q) {reason : Denial}
    (denied : p.ruling current remotes b = .denied reason) :
    ∃ reason', q.ruling current remotes b = .denied reason' := by
  cases ruled : q.ruling current remotes b with
  | denied reason' => exact ⟨reason', rfl⟩
  | allowed =>
    obtain ⟨inCurrent, -⟩ := ruling_eq_allowed_iff.mp ruled
    rw [allowed_of_allowed patterns (fun _ => id) (fun _ => id) inCurrent ruled] at denied
    cases denied

theorem allowed_congr (enabled : q.enabled = p.enabled)
    (patterns : ∀ pattern, pattern ∈ q.patterns ↔ pattern ∈ p.patterns)
    (listed : ∀ r, r ∈ remotes' ↔ r ∈ remotes) :
    q.ruling current remotes' b = .allowed ↔ p.ruling current remotes b = .allowed := by
  have protects (name : String) : q.Protects name ↔ p.Protects name := by
    simp only [Protects, enabled, patterns]
  simp only [ruling_eq_allowed_iff, Bars, protects, listed]

end Protection

variable {ι : Type} {r : Repository} {w : Workspace ι} {current : String}
  {remotes : List RemoteBranch} {p : Protection}

/-- Asked in this workspace, the repository tells its current branch and then the branches of its
remotes. -/
def Repository.Yields (r : Repository) (w : Workspace ι) (current : String)
    (remotes : List RemoteBranch) : Prop :=
  ∃ u v, onShell r.currentBranch w = (.ok current, u) ∧
    onShell r.remoteBranches u = (.ok remotes, v)

namespace Gate

theorem verdict_of_yields (yields : r.Yields w current remotes)
    (policy : w.policy = .protection p) (b : Branches) :
    (verdict r b w).1 = .ok (p.ruling current remotes b) := by
  obtain ⟨u, v, head, listed⟩ := yields
  rw [verdict_of_told head listed, policy, Policy.ruling_protection]

/-- An edit is allowed if the set has the current branch and no protected branch of a remote under
its full name. Otherwise the denial names what is missing, or the first branch that is in the way.
So other names make no difference, and neither do order and repetition. What is allowed stays so in
a smaller set with the current branch, and a denial stands when patterns are added. -/
theorem verdict_exact (yields : r.Yields w current remotes) (policy : w.policy = .protection p)
    (b : Branches) :
    let rule (b : Branches) := (verdict r b w).1
    (rule b = .ok .allowed ↔ current ∈ b ∧ ∀ x ∈ remotes, ¬ p.Bars b x) ∧
    (rule b = .ok (.denied .notInCurrentBranch) ↔ current ∉ b) ∧
    (∀ branch, rule b = .ok (.denied (.pushedTo branch)) ↔ current ∈ b ∧
      ∃ earlier x later, remotes = earlier ++ x :: later ∧ x.localName = branch ∧
        p.Bars b x ∧ ∀ y ∈ earlier, ¬ p.Bars b y) ∧
    (∀ b', (current ∈ b' ↔ current ∈ b) →
      (∀ x ∈ remotes, p.Protects x.localName → (x.qualifiedName ∈ b' ↔ x.qualifiedName ∈ b)) →
      rule b' = rule b) ∧
    (∀ name, name ≠ current →
      (∀ x ∈ remotes, p.Protects x.localName → name ≠ x.qualifiedName) →
      rule (b.insert name) = rule b) ∧
    (∀ b', current ∈ b → (∀ n ∈ b, n ∈ b') → rule b' = .ok .allowed → rule b = .ok .allowed) ∧
    (∀ (r' : Repository) (w' : Workspace ι) (p' : Protection), r'.Yields w' current remotes →
      w'.policy = .protection p' → p.Extends p' → (∃ reason, rule b = .ok (.denied reason)) →
      ∃ reason, (verdict r' b w').1 = .ok (.denied reason)) ∧
    ∀ (r' : Repository) (w' : Workspace ι) (p' : Protection) (remotes' : List RemoteBranch),
      r'.Yields w' current remotes' → w'.policy = .protection p' →
      (∀ x, x ∈ remotes' ↔ x ∈ remotes) → p'.enabled = p.enabled →
      (∀ pattern, pattern ∈ p'.patterns ↔ pattern ∈ p.patterns) →
      ((verdict r' b w').1 = .ok .allowed ↔ rule b = .ok .allowed) := by
  intro rule
  have ruled (b : Branches) : rule b = .ok (p.ruling current remotes b) :=
    verdict_of_yields yields policy b
  have congr {b' : Branches} (head : current ∈ b' ↔ current ∈ b)
      (same : ∀ x ∈ remotes, p.Protects x.localName →
        (x.qualifiedName ∈ b' ↔ x.qualifiedName ∈ b)) : rule b' = rule b := by
    rw [ruled, ruled, Protection.ruling_congr head same]
  simp only [ruled, Except.ok.injEq] at congr ⊢
  refine ⟨Protection.ruling_eq_allowed_iff, Protection.ruling_eq_notInCurrentBranch_iff,
    fun _ => Protection.ruling_eq_pushedTo_iff, fun b' => congr, fun name other free => ?_,
    fun b' inCurrent members => ?_, fun r' w' p' yields' policy' more => ?_,
    fun r' w' p' remotes' yields' policy' listed enabled patterns => ?_⟩
  · refine congr (by simp [other.symm]) fun x hx protects => ?_
    simp [(free x hx protects).symm]
  · exact Protection.allowed_of_allowed ⟨id, fun _ => id⟩ (fun _ => id) members inCurrent
  · rw [verdict_of_yields yields' policy']
    rintro ⟨reason, denied⟩
    obtain ⟨reason', denied'⟩ := Protection.denied_of_denied more denied
    exact ⟨reason', congrArg Except.ok denied'⟩
  · rw [verdict_of_yields yields' policy', Except.ok.injEq]
    exact Protection.allowed_congr enabled patterns listed

theorem verdict_exact_namesake :
    let r : Repository :=
      .recorded "topic" [⟨"origin", "topic"⟩, ⟨"fork", "release/1"⟩, ⟨"origin", "main"⟩]
    let w : Workspace Unit := { shell := { git := Git.ofRules [] }, lookup := .fixed [], own := ()
                                policy := .protection { patterns := ["main", "release/*"] } }
    let b : Branches := .ofList ["topic", "main", "origin/topic"]
    (verdict r b w).1 = .ok .allowed ∧ (verdict r (b.insert "release/1") w).1 = .ok .allowed ∧
      (verdict r (b.insert "fork/release/1") w).1 = .ok (.denied (.pushedTo "release/1")) := by
  intro r w b
  have yields : r.Yields w "topic"
      [⟨"origin", "topic"⟩, ⟨"fork", "release/1"⟩, ⟨"origin", "main"⟩] := ⟨_, _, rfl, rfl⟩
  obtain ⟨allowed, -, -, -, other, -⟩ := verdict_exact yields rfl b
  obtain ⟨-, -, pushed, -⟩ := verdict_exact yields rfl (b.insert "fork/release/1")
  have lawful := allowed.mpr ⟨by decide, by decide⟩
  have unqualified : ∀ x ∈ [⟨"origin", "topic"⟩, ⟨"fork", "release/1"⟩, ⟨"origin", "main"⟩],
      "release/1" ≠ RemoteBranch.qualifiedName x := by decide
  have harmless := other "release/1" (by decide) fun x hx _ => unqualified x hx
  refine ⟨lawful, harmless.trans lawful, ?_⟩
  exact (pushed "release/1").mpr ⟨by decide, [⟨"origin", "topic"⟩], ⟨"fork", "release/1"⟩,
    [⟨"origin", "main"⟩], rfl, rfl, by decide, by decide⟩

end Gate

end HistoryGuard
