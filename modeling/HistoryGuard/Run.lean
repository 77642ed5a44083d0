import HistoryGuard.Failure

/-! # Runs

A run works on a state and ends with a value or a failure. What it did to the state stays
done when it fails.
-/

namespace HistoryGuard

def Run (σ α : Type) : Type := σ → Except Failure α × σ

namespace Run

variable {σ τ α β : Type}

protected def pure (a : α) : Run σ α := fun s => (.ok a, s)

protected def bind (x : Run σ α) (f : α → Run σ β) : Run σ β := fun s =>
  match x s with
  | (.ok a, s) => f a s
  | (.error e, s) => (.error e, s)

instance : Monad (Run σ) where
  pure := Run.pure
  bind := Run.bind

def fail (e : Failure) : Run σ α := fun s => (.error e, s)

def ofExcept (r : Except Failure α) : Run σ α := fun s => (r, s)

def get : Run σ σ := fun s => (.ok s, s)

def read (f : σ → α) : Run σ α := fun s => (.ok (f s), s)

def modify (f : σ → σ) : Run σ Unit := fun s => (.ok (), f s)

/-- Changes the state and hands over a value. -/
def change (f : σ → α × σ) : Run σ α := fun s => (.ok (f s).1, (f s).2)

def attempt (x : Run σ α) : Run σ (Except Failure α) := fun s => (.ok (x s).1, (x s).2)

/-- Runs `x` on a part of the state. -/
def focus (part : σ → τ) (put : τ → σ → σ) (x : Run τ α) : Run σ α := fun s =>
  ((x (part s)).1, put (x (part s)).2 s)

theorem pure_apply (a : α) (s : σ) : (pure a : Run σ α) s = (.ok a, s) := rfl

theorem bind_apply (x : Run σ α) (f : α → Run σ β) (s : σ) :
    (x >>= f) s = match x s with
      | (.ok a, s) => f a s
      | (.error e, s) => (.error e, s) := rfl

theorem bind_of_ok {x : Run σ α} {f : α → Run σ β} {s s' : σ} {a : α} (h : x s = (.ok a, s')) :
    (x >>= f) s = f a s' := by
  rw [bind_apply, h]

theorem bind_of_error {x : Run σ α} {f : α → Run σ β} {s s' : σ} {e : Failure}
    (h : x s = (.error e, s')) : (x >>= f) s = (.error e, s') := by
  rw [bind_apply, h]

theorem map_id (x : Run σ α) : id <$> x = x := by
  funext s
  show Run.bind x _ s = x s
  unfold Run.bind
  split <;> simp_all [Run.pure, Function.comp]

theorem bind_assoc {γ : Type} (x : Run σ α) (f : α → Run σ β) (g : β → Run σ γ) :
    x >>= f >>= g = x >>= fun a => f a >>= g := by
  funext s
  show Run.bind (Run.bind x f) g s = Run.bind x (fun a => Run.bind (f a) g) s
  simp only [Run.bind]
  split <;> rename_i h
  · split at h <;> simp_all
  · split at h <;> simp_all

instance : LawfulMonad (Run σ) := .mk' (Run σ) map_id (fun _ _ => rfl) bind_assoc

end Run

end HistoryGuard
