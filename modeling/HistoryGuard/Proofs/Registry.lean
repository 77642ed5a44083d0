import HistoryGuard.Proofs.Shell

/-! # What a registry knows

A registry never forgets or replaces what it knows. The top directory of every work tree is known as
its own, and work trees that agree in their top directory or in their number are one.
-/

namespace HistoryGuard

def Git.topLevelCall (dir : String) : Call := { args := ["rev-parse", "--show-toplevel"], dir }

theorem Git.topLevel_snd (dir : String) (s : Shell) :
    (Git.topLevel dir s).2 = s.after (topLevelCall dir) := by
  rw [topLevel, Run.bind_pure_apply, Shell.output_apply]
  rfl

namespace Registry

open Run

variable {r r' : Registry} {dir key top : String} {s t : Shell} {tree : Worktree}

theorem find_of_known (h : r.known (r.keyOf dir) = some tree) (s : Shell) :
    r.find dir s = (.ok (some tree, r), s) := by
  unfold find
  simp only [h]
  rfl

theorem find_of_unknown (h : r.known (r.keyOf dir) = none) (s : Shell) :
    r.find dir s = match Git.topLevel (r.keyOf dir) s with
      | (.ok top, t) =>
        (.ok (some (r.record (r.keyOf dir) top).1, (r.record (r.keyOf dir) top).2), t)
      | (.error e, t) => (if e.isCommand then .ok (none, r) else .error e, t) := by
  unfold find
  simp only [h]
  rw [bind_apply, attempt]
  rcases Git.topLevel (r.keyOf dir) s with ⟨e | top, t⟩
  · dsimp only
    split <;> rfl
  · rfl

theorem find_snd_of_unknown (h : r.known (r.keyOf dir) = none) (s : Shell) :
    (r.find dir s).2 = s.after (Git.topLevelCall (r.keyOf dir)) := by
  rw [← Git.topLevel_snd, find_of_unknown h]
  rcases Git.topLevel (r.keyOf dir) s with ⟨e | top, t⟩ <;> rfl

theorem record_workDir (r : Registry) (key top : String) :
    (r.record key top).2.workDir = r.workDir := by
  unfold record
  cases r.known top <;> rfl

theorem record_known (r : Registry) (key top : String) :
    (r.record key top).2.known key = some (r.record key top).1 := by
  unfold record
  cases r.known top with
  | some tree => exact Table.put_same ..
  | none => exact Table.put_same ..

/-- The second registry knows all that the first one knows. -/
structure Grows (r r' : Registry) : Prop where
  workDir : r'.workDir = r.workDir
  known : ∀ key tree, r.known key = some tree → r'.known key = some tree

theorem Grows.keyOf (h : r.Grows r') (dir : String) : r'.keyOf dir = r.keyOf dir := by
  rw [Registry.keyOf, h.workDir, Registry.keyOf]

instance : Std.Refl Grows := ⟨fun _ => ⟨rfl, fun _ _ h => h⟩⟩

instance : IsTrans Registry Grows where
  trans _ _ _ h h' := ⟨h'.workDir.trans h.workDir,
    fun key tree known => h'.known key tree (h.known key tree known)⟩

/-- The top directory of each work tree is known as its own, and each work tree has a number of its
own. -/
structure Sound (r : Registry) : Prop where
  home : ∀ key tree, r.known key = some tree → r.known tree.root = some tree
  numbered : ∀ key tree, r.known key = some tree → tree.number < r.met
  apart : ∀ key key' tree tree', r.known key = some tree → r.known key' = some tree' →
    tree.number = tree'.number → tree = tree'

theorem sound_empty (workDir : String) : Sound { workDir } := by
  constructor <;> simp [Table.empty]

theorem Sound.eq_of_same (h : r.Sound) {tree' : Worktree} {key' : String}
    (known : r.known key = some tree) (known' : r.known key' = some tree')
    (same : tree'.root = tree.root ∨ tree'.number = tree.number) : tree' = tree := by
  rcases same with same | same
  · have home := h.home key' tree' known'
    rw [same, h.home key tree known] at home
    exact (Option.some.inj home).symm
  · exact h.apart key' key tree' tree known' known same

section Learn

/-- Nothing else is known under the directory. -/
abbrev Free (r : Registry) (key : String) (tree : Worktree) : Prop :=
  ∀ old, r.known key = some old → old = tree

def learn (r : Registry) (key : String) (tree : Worktree) : Registry :=
  { r with known := r.known.put key tree }

/-- The registry with a work tree that has not been met before. -/
def meet (r : Registry) (top : String) : Registry :=
  { r.learn top ⟨r.met, top⟩ with met := r.met + 1 }

theorem record_of_known (h : r.known top = some tree) :
    r.record key top = (tree, r.learn key tree) := by
  simp only [record, h]
  rfl

theorem record_of_unknown (h : r.known top = none) :
    r.record key top = (⟨r.met, top⟩, (r.meet top).learn key ⟨r.met, top⟩) := by
  simp only [record, h]
  rfl

theorem learn_known (r : Registry) (key : String) (tree : Worktree) :
    (r.learn key tree).known key = some tree := Table.put_same ..

theorem grows_learn (free : r.Free key tree) : r.Grows (r.learn key tree) := by
  refine ⟨rfl, fun k old h => ?_⟩
  by_cases here : k = key
  · subst here
    rw [free old h, learn_known]
  · exact (Table.put_other _ _ here).trans h

theorem known_of_learn {k : String} {old : Worktree} (h : (r.learn key tree).known k = some old) :
    old = tree ∨ r.known k = some old := by
  by_cases here : k = key
  · subst here
    rw [learn_known] at h
    exact .inl (Option.some.inj h).symm
  · exact .inr ((Table.put_other _ _ here).symm.trans h)

theorem Sound.learn (h : r.Sound) (free : r.Free key tree) (held : r.known tree.root = some tree) :
    (r.learn key tree).Sound := by
  have before {k : String} {old : Worktree} (known : (r.learn key tree).known k = some old) :
      ∃ k', r.known k' = some old := by
    rcases known_of_learn known with rfl | known
    · exact ⟨_, held⟩
    · exact ⟨k, known⟩
  constructor
  · intro k old known
    obtain ⟨k', known⟩ := before known
    exact (grows_learn free).known _ _ (h.home k' old known)
  · intro k old known
    obtain ⟨k', known⟩ := before known
    exact h.numbered k' old known
  · intro k l old old' known known' same
    obtain ⟨k', known⟩ := before known
    obtain ⟨l', known'⟩ := before known'
    exact h.apart k' l' old old' known known' same

theorem grows_meet (new : r.known top = none) : r.Grows (r.meet top) := by
  have free : r.Free top ⟨r.met, top⟩ := by simp [Free, new]
  exact ⟨rfl, (grows_learn free).known⟩

theorem Sound.meet (h : r.Sound) (new : r.known top = none) : (r.meet top).Sound := by
  constructor
  · intro k tree known
    rcases known_of_learn known with rfl | known
    · exact learn_known ..
    · exact (grows_meet new).known _ _ (h.home k tree known)
  · intro k tree known
    rcases known_of_learn known with rfl | known
    · exact Nat.lt_succ_self r.met
    · exact Nat.lt_succ_of_lt (h.numbered k tree known)
  · intro k l tree tree' known known' same
    -- the number of the new work tree is larger than any other
    rcases known_of_learn known with rfl | known <;> rcases known_of_learn known' with rfl | known'
    · rfl
    · exact absurd same.symm (h.numbered l tree' known').ne
    · exact absurd same (h.numbered k tree known).ne
    · exact h.apart k l tree tree' known known' same

/-- After the top directory has been met, nothing else is known under an unknown directory. -/
theorem free_of_meet (unknown : r.known key = none) : (r.meet top).Free key ⟨r.met, top⟩ := by
  intro old known
  rcases known_of_learn known with rfl | known
  · rfl
  · simp [unknown] at known

theorem grows_record (unknown : r.known key = none) (top : String) :
    r.Grows (r.record key top).2 := by
  cases ht : r.known top with
  | some tree =>
    rw [record_of_known ht]
    exact grows_learn (by simp [Free, unknown])
  | none =>
    rw [record_of_unknown ht]
    exact trans_of Grows (grows_meet ht) (grows_learn (free_of_meet unknown))

theorem Sound.record (h : r.Sound) (unknown : r.known key = none) (top : String) :
    (r.record key top).2.Sound := by
  cases ht : r.known top with
  | some tree =>
    rw [record_of_known ht]
    exact h.learn (by simp [Free, unknown]) (h.home top tree ht)
  | none =>
    rw [record_of_unknown ht]
    exact (h.meet ht).learn (free_of_meet unknown) (learn_known ..)

end Learn

/-- A lookup that succeeds leaves a registry that knows all that was known before. -/
theorem grows_of_find {tree? : Option Worktree} (h : r.find dir s = (.ok (tree?, r'), t)) :
    r.Grows r' ∧ (r.Sound → r'.Sound) := by
  cases hk : r.known (r.keyOf dir) with
  | some tree =>
    rw [find_of_known hk] at h
    cases h
    exact ⟨refl_of Grows r, id⟩
  | none =>
    rw [find_of_unknown hk] at h
    split at h
    · cases h
      exact ⟨grows_record hk _, fun sound => sound.record hk _⟩
    · split at h
      · cases h
        exact ⟨refl_of Grows r, id⟩
      · cases h

end Registry

end HistoryGuard
