import Mathlib.Order.Defs.Unbundled
import HistoryGuard.Run

/-! # What runs keep

A run keeps a relation if the state before is always related to the state after, however the
run ends. A preorder is kept by a composite run as soon as its parts keep it.
-/

namespace HistoryGuard

instance decidableEqExcept {ε α : Type} [DecidableEq ε] [DecidableEq α] :
    DecidableEq (Except ε α)
  | .ok a, .ok b => decidable_of_iff (a = b) (by simp)
  | .error e, .error f => decidable_of_iff (e = f) (by simp)
  | .ok _, .error _ => isFalse (by simp)
  | .error _, .ok _ => isFalse (by simp)

namespace Run

variable {σ τ α β : Type}

theorem eq_of_fst {p : α × σ} {a : α} (h : p.1 = a) : p = (a, p.2) := by rw [← h]

def Keeps (R : σ → σ → Prop) (x : Run σ α) : Prop := ∀ s, R s (x s).2

section Preorder

variable {R : σ → σ → Prop} [Std.Refl R]

theorem keeps_pure (a : α) : Keeps R (pure a : Run σ α) := fun s => refl_of R s

theorem keeps_fail (e : Failure) : Keeps R (fail e : Run σ α) := fun s => refl_of R s

theorem keeps_ofExcept (r : Except Failure α) : Keeps R (ofExcept r) := fun s => refl_of R s

theorem keeps_get : Keeps R get := fun s => refl_of R s

theorem keeps_read (f : σ → α) : Keeps R (read f) := fun s => refl_of R s

end Preorder

variable {R R' : σ → σ → Prop} {x : Run σ α}

theorem Keeps.comp {S T : σ → σ → Prop} {f : α → Run σ β} (hx : Keeps R x)
    (hf : ∀ a, Keeps S (f a)) (stop : ∀ s t, R s t → T s t)
    (go : ∀ s t u, R s t → S t u → T s u) : Keeps T (x >>= f) := by
  intro s
  have h := hx s
  rw [bind_apply]
  split <;> rename_i hs
  · rw [hs] at h
    exact go _ _ _ h (hf _ _)
  · rw [hs] at h
    exact stop _ _ h

theorem Keeps.bind [IsTrans σ R] {f : α → Run σ β} (hx : Keeps R x)
    (hf : ∀ a, Keeps R (f a)) : Keeps R (x >>= f) :=
  hx.comp hf (fun _ _ h => h) fun _ _ _ => trans_of R

/-- The first part of a composite run is done, however it ends, and the rest keeps `R`. -/
theorem Keeps.after [Std.Refl R] {f : α → Run σ β} (hf : ∀ a, Keeps R (f a)) (x : Run σ α) (s : σ) :
    R (x s).2 ((x >>= f) s).2 := by
  rw [bind_apply]
  rcases x s with ⟨e | a, t⟩
  · exact refl_of R t
  · exact hf a t

theorem Keeps.attempt (hx : Keeps R x) : Keeps R (attempt x) := hx

theorem keeps_modify {f : σ → σ} (h : ∀ s, R s (f s)) : Keeps R (modify f) := h

theorem Keeps.mono (hx : Keeps R x) (h : ∀ s t, R s t → R' s t) : Keeps R' x :=
  fun s => h _ _ (hx s)

theorem Keeps.focus {S : τ → τ → Prop} {part : σ → τ} {put : τ → σ → σ} {y : Run τ α}
    (hy : Keeps S y) (h : ∀ s t, S (part s) t → R s (put t s)) : Keeps R (focus part put y) :=
  fun s => h _ _ (hy (part s))

theorem keeps_mapM [Std.Refl R] [IsTrans σ R] {f : β → Run σ α} (h : ∀ b, Keeps R (f b))
    (l : List β) : Keeps R (l.mapM f) := by
  induction l with
  | nil => exact keeps_pure []
  | cons b rest ih =>
    rw [List.mapM_cons]
    exact (h b).bind fun _ => ih.bind fun _ => keeps_pure _

theorem bind_eq_ok {y : Run σ β} {f : β → Run σ α} {s t : σ} {a : α} :
    (y >>= f) s = (.ok a, t) ↔ ∃ b u, y s = (.ok b, u) ∧ f b u = (.ok a, t) := by
  rw [bind_apply]
  rcases y s with ⟨e | b, u⟩
  · simp
  · constructor
    · exact fun h => ⟨b, u, rfl, h⟩
    · rintro ⟨_, _, h, h'⟩
      cases h
      exact h'

theorem bind_get (f : σ → Run σ α) (s : σ) : (get >>= f) s = f s s := rfl

theorem bind_pure_apply (x : Run σ α) (f : α → β) (s : σ) :
    (x >>= fun a => pure (f a)) s = ((x s).1.map f, (x s).2) := by
  rw [bind_apply]
  rcases x s with ⟨e | a, t⟩ <;> rfl

theorem pure_eq_ok {s t : σ} {a b : α} : (pure a : Run σ α) s = (.ok b, t) ↔ a = b ∧ s = t := by
  simp [pure_apply]

theorem ofExcept_eq_ok {r : Except Failure α} {s t : σ} {a : α} :
    ofExcept r s = (.ok a, t) ↔ r = .ok a ∧ s = t := by
  simp [ofExcept]

theorem read_eq_ok {f : σ → α} {s t : σ} {a : α} : read f s = (.ok a, t) ↔ f s = a ∧ s = t := by
  simp [read]

theorem bind_congr_at {x y : Run σ α} {f g : α → Run σ β} {s : σ} (hx : x s = y s)
    (hf : ∀ a t, x s = (.ok a, t) → f a t = g a t) : (x >>= f) s = (y >>= g) s := by
  rw [bind_apply, bind_apply, ← hx]
  split <;> rename_i h
  · exact hf _ _ h
  · rfl

theorem Keeps.of_eq {s t : σ} {r : Except Failure α} (hx : Keeps R x) (h : x s = (r, t)) :
    R s t := by
  have hs := hx s
  rwa [h] at hs

section Meets

variable {P Q R : σ → Prop} {a : α} {b : β}

/-- From a state with `P` the run succeeds with a value and in a state that satisfy `Q`. -/
def Meets (P : σ → Prop) (x : Run σ α) (Q : α → σ → Prop) : Prop :=
  ∀ s, P s → ∃ a t, x s = (.ok a, t) ∧ Q a t

/-- From a state with `P` the run succeeds with this value in a state with `Q`. -/
abbrev Gives (P : σ → Prop) (x : Run σ α) (a : α) (Q : σ → Prop) : Prop :=
  Meets P x fun c t => c = a ∧ Q t

theorem Meets.bind {f : α → Run σ β} {S : α → σ → Prop} {T : β → σ → Prop} (hx : Meets P x S)
    (hf : ∀ a, Meets (S a) (f a) T) : Meets P (x >>= f) T := by
  intro s hs
  obtain ⟨a, t, ha, hq⟩ := hx s hs
  obtain ⟨b, u, hb, hr⟩ := hf a t hq
  refine ⟨b, u, ?_, hr⟩
  rw [bind_of_ok ha, hb]

theorem Gives.bind {f : α → Run σ β} {T : β → σ → Prop} (hx : Gives P x a Q)
    (hf : Meets Q (f a) T) : Meets P (x >>= f) T := by
  apply Meets.bind hx
  rintro c s ⟨rfl, hs⟩
  exact hf s hs

theorem gives_pure (a : α) : Gives P (pure a) a P := fun s hs => ⟨a, s, rfl, rfl, hs⟩

theorem gives_ofExcept {r : Except Failure α} (h : r = .ok a) : Gives P (ofExcept r) a P := by
  intro s hs
  exact ⟨a, s, by rw [ofExcept, h], rfl, hs⟩

theorem gives_read {f : σ → α} (h : ∀ s, P s → f s = a) : Gives P (read f) a P := by
  intro s hs
  exact ⟨a, s, by rw [read, h s hs], rfl, hs⟩

theorem Gives.attempt (hx : Gives P x a Q) : Gives P (attempt x) (.ok a) Q := by
  intro s hs
  obtain ⟨c, t, hc, rfl, hq⟩ := hx s hs
  exact ⟨.ok c, t, by rw [Run.attempt, hc], rfl, hq⟩

end Meets

section Raises

variable {G : σ → Prop} {P P' : Failure → Prop}

/-- From a state with `G` the run ends in a state with `G`, and if it fails, the failure satisfies
`P`. -/
def Raises (G : σ → Prop) (P : Failure → Prop) (x : Run σ α) : Prop :=
  ∀ s, G s → G (x s).2 ∧ ∀ e, (x s).1 = .error e → P e

theorem Raises.mono (hx : Raises G P x) (h : ∀ e, P e → P' e) : Raises G P' x :=
  fun s hs => ⟨(hx s hs).1, fun e he => h e ((hx s hs).2 e he)⟩

theorem raises_pure (a : α) : Raises G P (pure a) := fun _ hs => ⟨hs, by simp [pure_apply]⟩

theorem raises_fail {e : Failure} (h : P e) : Raises G P (fail e : Run σ α) :=
  fun _ hs => ⟨hs, by simp [fail, h]⟩

theorem raises_ofExcept {r : Except Failure α} (h : ∀ e, r = .error e → P e) :
    Raises G P (ofExcept r) :=
  fun _ hs => ⟨hs, h⟩

theorem raises_get : Raises G P get := fun _ hs => ⟨hs, by simp [get]⟩

theorem raises_read (f : σ → α) : Raises G P (read f) := fun _ hs => ⟨hs, by simp [read]⟩

theorem raises_modify {f : σ → σ} (h : ∀ s, G s → G (f s)) : Raises G P (modify f) :=
  fun s hs => ⟨h s hs, by simp [modify]⟩

/-- What follows starts in a state that the first part can come to. -/
theorem Raises.bind_of {f : α → Run σ β} (hx : Raises G P x)
    (hf : ∀ s a t, G s → x s = (.ok a, t) → G t → G (f a t).2 ∧ ∀ e, (f a t).1 = .error e → P e) :
    Raises G P (x >>= f) := by
  intro s hs
  obtain ⟨stays, fails⟩ := hx s hs
  rw [bind_apply]
  split
  · next a t came =>
    rw [came] at stays
    exact hf s a t hs came stays
  · next e t came =>
    rw [came] at stays fails
    refine ⟨stays, ?_⟩
    rintro _ ⟨⟩
    exact fails e rfl

theorem Raises.bind {f : α → Run σ β} (hx : Raises G P x) (hf : ∀ a, Raises G P (f a)) :
    Raises G P (x >>= f) :=
  hx.bind_of fun _ a t _ _ ht => hf a t ht

theorem raises_mapM {f : β → Run σ α} (h : ∀ b, Raises G P (f b)) (l : List β) :
    Raises G P (l.mapM f) := by
  induction l with
  | nil => exact raises_pure []
  | cons b rest ih =>
    rw [List.mapM_cons]
    exact (h b).bind fun _ => ih.bind fun _ => raises_pure _

theorem Raises.focus {H : τ → Prop} {part : σ → τ} {put : τ → σ → σ} {y : Run τ α}
    (hy : Raises H P y) (enter : ∀ s, G s → H (part s)) (leave : ∀ s t, H t → G (put t s)) :
    Raises G P (focus part put y) := by
  intro s hs
  obtain ⟨stays, fails⟩ := hy (part s) (enter s hs)
  exact ⟨leave s _ stays, fails⟩

end Raises

end Run

end HistoryGuard
