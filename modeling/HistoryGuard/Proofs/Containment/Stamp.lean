import HistoryGuard.Containment.Cache

/-! # Stamps

The stamp of a root only grows, and it grows whenever the root is forgotten. So the stamp of a
task that is outstanding is never ahead of the present one, and once it is behind it stays so.
-/

namespace HistoryGuard

namespace Stamp

instance : LE Stamp := ⟨fun a b => a.epoch ≤ b.epoch ∧ a.drops ≤ b.drops⟩

theorem le_def {a b : Stamp} : a ≤ b ↔ a.epoch ≤ b.epoch ∧ a.drops ≤ b.drops := Iff.rfl

theorem le_refl (a : Stamp) : a ≤ a := ⟨Nat.le_refl _, Nat.le_refl _⟩

theorem le_trans {a b c : Stamp} (h : a ≤ b) (h' : b ≤ c) : a ≤ c :=
  ⟨Nat.le_trans h.1 h'.1, Nat.le_trans h.2 h'.2⟩

theorem le_antisymm {a b : Stamp} (h : a ≤ b) (h' : b ≤ a) : a = b := by
  obtain ⟨epoch, drops⟩ := a
  obtain ⟨epoch', drops'⟩ := b
  rw [le_def] at h h'
  simp only [mk.injEq]
  dsimp only at h h'
  omega

end Stamp

namespace Cache

variable {c : Cache} {root : String}

def outstanding (c : Cache) : List Task := c.queue ++ c.running

/-- What is forgotten of `target` includes the root. -/
def Forgets (target : Option String) (root : String) : Prop := target = none ∨ target = some root

instance (target : Option String) (root : String) : Decidable (Forgets target root) :=
  inferInstanceAs (Decidable (_ ∨ _))

section Stamp

variable (c) (root)

@[simp] theorem stamp_store (key : Key) (s : Stamp) (b : Branches) :
    (c.store key s b).stamp root = c.stamp root := by
  unfold store
  split <;> rfl

@[simp] theorem stamp_request (key : Key) : (c.request key).2.stamp root = c.stamp root := by
  unfold request
  split
  · rfl
  · dsimp only
    split <;> rfl

end Stamp

theorem stamp_invalidate_of_forgets {target : Option String} (h : Forgets target root) :
    c.stamp root ≤ (c.invalidate target).stamp root ∧
      c.stamp root ≠ (c.invalidate target).stamp root := by
  rcases h with rfl | rfl
  · refine ⟨⟨Nat.le_succ _, Nat.le_refl _⟩, ?_⟩
    simp [stamp, invalidate]
  · refine ⟨⟨Nat.le_refl _, ?_⟩, ?_⟩
    · simp [stamp, invalidate]
    · simp [stamp, invalidate]

theorem stamp_invalidate_of_not {target : Option String} (h : ¬ Forgets target root) :
    (c.invalidate target).stamp root = c.stamp root := by
  match target with
  | none => exact absurd (.inl rfl) h
  | some r =>
    have hr : root ≠ r := fun e => h (.inr (congrArg some e.symm))
    simp [stamp, invalidate, hr]

theorem stamp_le_invalidate (target : Option String) :
    c.stamp root ≤ (c.invalidate target).stamp root := by
  by_cases h : Forgets target root
  · exact (stamp_invalidate_of_forgets h).1
  · rw [stamp_invalidate_of_not h]
    exact Stamp.le_refl _

theorem get?_invalidate_of_not {target : Option String} {key : Key}
    (h : ¬ Forgets target key.root) : (c.invalidate target).get? key = c.get? key := by
  match target with
  | none => exact absurd (.inl rfl) h
  | some r =>
    have hr : key.root ≠ r := fun e => h (.inr (congrArg some e.symm))
    simp [get?, invalidate, Table.dropWhere, hr]

theorem get?_invalidate_of_forgets {target : Option String} {key : Key}
    (h : Forgets target key.root) : (c.invalidate target).get? key = none := by
  rcases h with rfl | rfl
  · rfl
  · simp [get?, invalidate, Table.dropWhere]

theorem get?_store {key k : Key} {s : Stamp} {b : Branches} :
    (c.store key s b).get? k = if c.stamp key.root = s ∧ k = key then some b else c.get? k := by
  unfold store
  by_cases hs : c.stamp key.root = s
  · rw [if_pos hs]
    by_cases hk : k = key
    · subst hk
      simp [get?, hs]
    · simp [get?, hk, Table.put_other]
  · rw [if_neg hs, if_neg fun h => hs h.1]

@[simp] theorem entries_request (key : Key) : (c.request key).2.entries = c.entries := by
  unfold request
  split
  · rfl
  · dsimp only
    split <;> rfl

@[simp] theorem running_request (key : Key) : (c.request key).2.running = c.running := by
  unfold request
  split
  · rfl
  · dsimp only
    split <;> rfl

@[simp] theorem running_store (key : Key) (s : Stamp) (b : Branches) :
    (c.store key s b).running = c.running := by
  unfold store
  split <;> rfl

@[simp] theorem queue_store (key : Key) (s : Stamp) (b : Branches) :
    (c.store key s b).queue = c.queue := by
  unfold store
  split <;> rfl

@[simp] theorem pending_store (key : Key) (s : Stamp) (b : Branches) :
    (c.store key s b).pending = c.pending := by
  unfold store
  split <;> rfl

@[simp] theorem closed_store (key : Key) (s : Stamp) (b : Branches) :
    (c.store key s b).closed = c.closed := by
  unfold store
  split <;> rfl

@[simp] theorem closed_request (key : Key) : (c.request key).2.closed = c.closed := by
  unfold request
  split
  · rfl
  · dsimp only
    split <;> rfl

@[simp] theorem outstanding_store (key : Key) (s : Stamp) (b : Branches) :
    (c.store key s b).outstanding = c.outstanding := by
  unfold store
  split <;> rfl

@[simp] theorem outstanding_invalidate (target : Option String) :
    (c.invalidate target).outstanding = c.outstanding := by
  cases target <;> rfl

/-- No task that is outstanding has a stamp from the future. -/
def Timely (c : Cache) : Prop := ∀ task ∈ c.outstanding, task.stamp ≤ c.stamp task.key.root

theorem Timely.request (h : c.Timely) (key : Key) : (c.request key).2.Timely := by
  intro task ht
  rw [stamp_request]
  unfold Cache.request at ht
  split at ht
  · exact h task ht
  · dsimp only at ht
    split at ht
    · exact h task ht
    · simp only [outstanding, List.mem_append, List.mem_singleton] at ht
      rcases ht with (ht | rfl) | ht
      · exact h task (List.mem_append_left _ ht)
      · exact Stamp.le_refl _
      · exact h task (List.mem_append_right _ ht)

theorem Timely.settle (h : c.Timely) (task : Task) : (c.settle task).Timely := by
  intro t ht
  apply h t
  rcases List.mem_append.mp ht with hq | hr
  · exact List.mem_append_left _ hq
  · exact List.mem_append_right _ (List.mem_of_mem_erase hr)

theorem Timely.store (h : c.Timely) (key : Key) (s : Stamp) (b : Branches) :
    (c.store key s b).Timely := by
  intro t ht
  rw [outstanding_store] at ht
  rw [stamp_store]
  exact h t ht

theorem Timely.invalidate (h : c.Timely) (target : Option String) :
    (c.invalidate target).Timely := by
  intro t ht
  rw [outstanding_invalidate] at ht
  exact Stamp.le_trans (h t ht) (stamp_le_invalidate target)

end Cache

end HistoryGuard
