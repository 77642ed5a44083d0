import HistoryGuard.Proofs.Gate.Reception
import HistoryGuard.Proofs.Session

/-! # Repositories in the course of a session

The registry of a session only grows, whatever the session does. A repository that has been found
is found again without git, there is one for each top directory, and a lookup that finds none leaves
the registry as it was.
-/

namespace HistoryGuard

open Run Containment

namespace Workspace

variable {ι α : Type}

/-- The registry of the first workspace, if it has one, has grown into that of the second. -/
def Learns (w v : Workspace ι) : Prop :=
  ∀ r, w.lookup = .registry r →
    ∃ r', v.lookup = .registry r' ∧ r.Grows r' ∧ (r.Sound → r'.Sound)

theorem learns_of_lookup {w v : Workspace ι} (h : v.lookup = w.lookup) : Learns w v :=
  fun r registry => ⟨r, h.trans registry, refl_of Registry.Grows r, id⟩

instance : Std.Refl (Learns (ι := ι)) := ⟨fun _ => learns_of_lookup rfl⟩

instance : IsTrans (Workspace ι) Learns where
  trans w v u h h' r registry := by
    obtain ⟨r', registry', grows, sound⟩ := h r registry
    obtain ⟨r'', registry'', grows', sound'⟩ := h' r' registry'
    exact ⟨r'', registry'', trans_of Registry.Grows grows grows', sound' ∘ sound⟩

theorem learns_onShell (x : Run Shell α) : Keeps (Learns (ι := ι)) (onShell x) :=
  fun _ => learns_of_lookup rfl

theorem learns_onCache (f : Cache → α × Cache) : Keeps (Learns (ι := ι)) (onCache f) :=
  fun _ => learns_of_lookup rfl

theorem learns_repository? (root : String) : Keeps (Learns (ι := ι)) (repository? root) := by
  intro w r registry
  rw [repository?_registry root registry]
  rcases found : r.find root w.shell with ⟨e | ⟨tree?, r'⟩, s⟩
  · exact ⟨r, registry, refl_of Registry.Grows r, id⟩
  · exact ⟨r', rfl, Registry.grows_of_find found⟩

theorem upholds_learns : Upholds (Learns (ι := ι)) :=
  ⟨fun _ => learns_onShell _, learns_repository?⟩

section Compute

variable {g : Compute ι} (hg : ∀ key, Keeps Learns (g key))
include hg

theorem learns_traced (key : Key) : Keeps Learns (traced g key) := by
  have begins : Keeps (Learns (ι := ι)) (numbered key) := fun _ => learns_of_lookup rfl
  refine begins.bind fun serial => (hg key).attempt.bind fun outcome => ?_
  exact (learns_onShell _).bind fun _ => keeps_ofExcept outcome

theorem learns_getNow (key : Key) : Keeps Learns (getNow g key) := by
  refine Keeps.bind (keeps_read _) fun cache => ?_
  dsimp only
  split
  · exact keeps_pure _
  · refine (learns_traced hg key).bind fun b => ?_
    exact (learns_onCache _).bind fun _ => keeps_pure b

theorem learns_runNext : Keeps Learns (runNext g) := by
  refine (learns_onCache _).bind fun task? => ?_
  cases task? with
  | none => exact keeps_pure _
  | some task =>
    refine Keeps.bind ?_ fun _ => keeps_pure _
    refine (learns_traced hg task.key).attempt.bind fun outcome => ?_
    cases outcome with
    | ok b => exact (learns_onCache _).bind fun _ => keeps_pure b
    | error e => exact (learns_onCache _).bind fun _ => keeps_fail e

theorem learns_run (s : Step) : Keeps Learns (s.run g) := by
  have tell (title text : String) : Keeps (Learns (ι := ι)) (Gate.tell title text) :=
    learns_onShell _
  have forget (root : Option String) : Keeps (Learns (ι := ι)) (invalidate root) :=
    fun _ => learns_of_lookup rfl
  apply upholds_learns.step (learns_getNow hg) tell
  case request =>
    intro key w
    rw [request_snd]
    exact learns_of_lookup rfl
  case runNext => exact learns_runNext hg
  case invalidate => exact forget
  case shutdown => exact learns_onCache _
  case git => exact fun _ _ => learns_of_lookup rfl
  case settings => exact fun _ _ => learns_of_lookup rfl
  case perform =>
    intro edit s _ w
    exact upholds_learns.perform_at (learns_getNow hg) tell (fun root => forget (some root))
      fun commit v _ _ => learns_onShell (edit.carryOut commit) v

end Compute

end Workspace

namespace Session

open Workspace

theorem learns_compute {f : Step → Run Session Answer} (hf : ∀ s, Keeps Learns (f s)) (key : Key) :
    Keeps Learns (compute f key) := by
  have nested (l : List Step) : Keeps Learns (runNested f l) := by
    induction l with
    | nil => exact keeps_pure ()
    | cons s rest ih =>
      refine (hf s).attempt.bind fun outcome => ?_
      exact Keeps.bind (keeps_modify fun _ => learns_of_lookup rfl) fun _ => ih
  refine Keeps.bind (keeps_read _) fun prepared => ?_
  cases prepared with
  | none => exact learns_onShell _
  | some table =>
    dsimp only
    split
    · exact keeps_fail _
    · refine Keeps.bind (keeps_modify fun _ => learns_of_lookup rfl) fun _ => ?_
      exact (nested _).bind fun _ => keeps_ofExcept _

theorem learns_step (n : Nat) (s : Step) : Keeps Learns (step n s) := by
  induction n generalizing s with
  | zero => exact learns_run (learns_compute fun _ => keeps_fail _) s
  | succ n ih => exact learns_run (learns_compute ih) s

theorem learns_steps (limit : Nat) (steps : List Step) (w : Session) :
    Learns w (run limit steps w).2 := by
  induction steps generalizing w with
  | nil => exact refl_of _ w
  | cons s rest ih => exact trans_of _ (learns_step limit s w) (ih _)

section Lookup

variable {n : Nat} {dir : String} {w v : Session} {r : Registry} {tree : Worktree}

theorem step_repository (n : Nat) (dir : String) (w : Session) :
    step n (.repository dir) w =
      ((repository? dir w).1.map (.ofOption .repository), (repository? dir w).2) := by
  rw [step_eq]
  exact bind_pure_apply ..

theorem repository_of_known (registry : w.lookup = .registry r)
    (known : r.known (r.keyOf dir) = some tree) :
    step n (.repository dir) w = (.ok (.repository (.worktree tree)), w) := by
  rw [step_repository, repository?_registry dir registry, Registry.find_of_known known]
  dsimp only
  rw [← registry]
  rfl

theorem shell_of_unknown (registry : w.lookup = .registry r)
    (unknown : r.known (r.keyOf dir) = none) :
    (step n (.repository dir) w).2.shell =
      w.shell.after (Git.topLevelCall (r.keyOf dir)) := by
  rw [← Registry.find_snd_of_unknown unknown, step_repository, repository?_registry dir registry]
  rcases r.find dir w.shell with ⟨e | ⟨tree?, r'⟩, s⟩ <;> rfl

/-- A lookup answers with what the registry knows afterwards, or it leaves the registry alone. -/
theorem repository_cases (n : Nat) (dir : String) (registry : w.lookup = .registry r) :
    (∃ tree r', (step n (.repository dir) w).1 = .ok (.repository (.worktree tree)) ∧
      (step n (.repository dir) w).2.lookup = .registry r' ∧
      r'.known (r.keyOf dir) = some tree) ∨
    (∀ tree, (step n (.repository dir) w).1 ≠ .ok (.repository (.worktree tree))) ∧
      (step n (.repository dir) w).2.lookup = .registry r ∧ r.known (r.keyOf dir) = none := by
  cases hk : r.known (r.keyOf dir) with
  | some tree =>
    rw [repository_of_known registry hk]
    exact .inl ⟨tree, r, rfl, registry, hk⟩
  | none =>
    rw [step_repository, repository?_registry dir registry]
    rcases r.find_cases dir w.shell with ⟨e, s, found, -⟩ | ⟨s, found, -⟩ |
      ⟨tree, r', s, found, -, known, -⟩ <;> rw [found]
    · exact .inr ⟨fun tree => by simp [Except.map], registry, rfl⟩
    · exact .inr ⟨fun tree => by simp [Except.map, Answer.ofOption], rfl, rfl⟩
    · exact .inl ⟨tree, r', rfl, rfl, known⟩

end Lookup

/-- In a session that starts with an empty registry, a lookup that finds a work tree settles what
later lookups find, whatever is done before and in between: another work tree with the same top
directory or the same number is the same one, the same directory is answered without git, and the
top directory is known as that of the work tree. A lookup that finds none leaves the registry as it
was, and the next lookup of the directory asks git. -/
theorem repositories_remembered {w : Session} {workDir : String}
    (start : w.lookup = .registry { workDir }) (limit : Nat) (before between : List Step)
    (dir dir' : String) :
    let v := (run limit before w).2
    let p := step limit (.repository dir) v
    let u := (run limit between p.2).2
    let q := step limit (.repository dir') u
    (∀ tree, p.1 = .ok (.repository (.worktree tree)) →
      (∀ tree', q.1 = .ok (.repository (.worktree tree')) →
        tree'.root = tree.root ∨ tree'.number = tree.number → tree' = tree) ∧
      (Path.absolute workDir dir' = Path.absolute workDir dir → q = (p.1, u)) ∧
      ∃ r, u.lookup = .registry r ∧ r.known tree.root = some tree) ∧
    ((∀ tree, p.1 ≠ .ok (.repository (.worktree tree))) →
      p.2.lookup = v.lookup ∧
      ∀ dir'', Path.absolute workDir dir'' = Path.absolute workDir dir →
        (step limit (.repository dir'') p.2).2.shell =
          p.2.shell.after (Git.topLevelCall (Path.absolute workDir dir))) := by
  intro v p u q
  obtain ⟨r, atV, grows, sound⟩ := learns_steps limit before w _ start
  obtain ⟨r₁, atP, grows₁, sound₁⟩ := learns_step limit (.repository dir) v r atV
  obtain ⟨r₂, atU, grows₂, sound₂⟩ := learns_steps limit between p.2 r₁ atP
  obtain ⟨r₃, atQ, grows₃, sound₃⟩ := learns_step limit (.repository dir') u r₂ atU
  replace sound₂ := sound₂ (sound₁ (sound (Registry.sound_empty workDir)))
  have key (d : String) : r.keyOf d = Path.absolute workDir d := grows.keyOf d
  have key₂ (d : String) : r₂.keyOf d = Path.absolute workDir d := by
    rw [grows₂.keyOf, grows₁.keyOf, key]
  rcases repository_cases limit dir atV with ⟨found, r', first, lookup, known⟩ |
    ⟨none, lookup, unknown⟩
  · refine ⟨?_, fun none => absurd first (none found)⟩
    intro tree answer
    obtain rfl : found = tree := by simpa using first.symm.trans answer
    obtain rfl : r' = r₁ := by simpa using lookup.symm.trans atP
    have known₂ : r₂.known (r.keyOf dir) = some found := grows₂.known _ _ known
    refine ⟨?_, ?_, r₂, atU, sound₂.home _ _ known₂⟩
    · intro tree' answer' same
      rcases repository_cases limit dir' atU with ⟨found', r', second, lookup', known'⟩ | ⟨none, -⟩
      · obtain rfl : found' = tree' := by simpa using second.symm.trans answer'
        obtain rfl : r' = r₃ := by simpa using lookup'.symm.trans atQ
        exact (sound₃ sound₂).eq_of_same (grows₃.known _ _ known₂) known' same
      · exact absurd answer' (none tree')
    · intro same
      rw [key, ← same, ← key₂] at known₂
      rw [answer]
      exact repository_of_known atU known₂
  · refine ⟨fun tree answer => absurd answer (none tree), fun _ => ?_⟩
    refine ⟨lookup.trans atV.symm, fun dir'' same => ?_⟩
    rw [key] at unknown
    rw [← same, ← key] at unknown ⊢
    exact shell_of_unknown lookup unknown

/-- A session over git that names a top directory which is not its own top directory. -/
def wandering : Session where
  shell.git := fun _ call =>
    .ended 0 (if call.dir = "/a" then "/b\n" else "/a\n").toByteArray "".toByteArray
  policy := .protection {}
  lookup := .registry { workDir := "/" }
  own := {}

theorem repositories_remembered_wandering :
    let u := (step 0 (.repository "/a") wandering).2
    (step 0 (.repository "/a") wandering).1 = .ok (.repository (.worktree ⟨0, "/b"⟩)) ∧
      (step 0 (.repository "c") u).1 = .ok (.repository (.worktree ⟨0, "/b"⟩)) ∧
      step 0 (.repository "/x/../a") u = ((step 0 (.repository "/a") wandering).1, u) ∧
      ∃ r, u.lookup = .registry r ∧ r.known "/b" = some ⟨0, "/b"⟩ := by
  intro u
  have first : (step 0 (.repository "/a") wandering).1 =
      .ok (.repository (.worktree ⟨0, "/b"⟩)) := by decide +kernel
  have second : (step 0 (.repository "c") (step 0 (.repository "/a") wandering).2).1 =
      .ok (.repository (.worktree ⟨0, "/b"⟩)) := by decide +kernel
  obtain ⟨-, again, home⟩ := (repositories_remembered (w := wandering) rfl 0 [] [] "/a"
    "/x/../a").1 ⟨0, "/b"⟩ first
  exact ⟨first, second, again (by decide), home⟩

end Session

end HistoryGuard
