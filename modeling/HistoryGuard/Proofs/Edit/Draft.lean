import HistoryGuard.Proofs.Workspace

/-! # Drafts

An edit first drafts a plan, which asks git and the user but leaves history alone, and then
carries the plan out by one rebase. A draft comes to a plan only after git has answered that no
merge would be replayed.
-/

namespace HistoryGuard

theorem suffix_of_cons_suffix {α : Type} {a : α} {k l m : List α} (h : a :: k <:+ m)
    (hl : l <:+ m) : a :: k <:+ l ∨ l <:+ k := by
  rcases List.suffix_or_suffix_of_suffix h hl with h | h
  · exact .inl h
  · rcases List.suffix_cons_iff.mp h with rfl | h
    · exact .inl (List.suffix_refl _)
    · exact .inr h

namespace Shell

variable {P : Event → Prop} {s t : Shell}

theorem Grows.suffix (h : Grows P s t) : s.journal <:+ t.journal := by
  obtain ⟨es, he, -⟩ := h.journal
  exact ⟨es, he.symm⟩

theorem Grows.of_suffix (h : Grows P s t) {e : Event} {earlier : List Event}
    (he : e :: earlier <:+ t.journal) (hs : s.journal <:+ earlier) : P e := by
  obtain ⟨es, hj, hp⟩ := h.journal
  obtain ⟨later, hl⟩ := he
  obtain ⟨mid, rfl⟩ := hs
  apply hp e
  have : es = later ++ e :: mid := by
    apply (List.append_left_inj s.journal).mp
    rw [← hj, ← hl, List.append_assoc, List.cons_append]
  rw [this]
  exact List.mem_append_right _ List.mem_cons_self

theorem Grows.countP_eq {p : Event → Bool} (h : Grows (fun e => p e = false) s t) :
    t.journal.countP p = s.journal.countP p := by
  obtain ⟨es, hj, hp⟩ := h.journal
  rw [hj, List.countP_append, List.countP_eq_zero.mpr, Nat.zero_add]
  intro e he
  simp [hp e he]

end Shell

namespace Edit

open Run Shell

abbrev Harmless (e : Event) : Prop := e.isRewrite = false

theorem harmless_of_isQuery {e : Event} (h : e.isQuery = true) : Harmless e := by
  match e with
  | .called c started => simpa [Event.isQuery, Harmless, Event.isRewrite] using h

/-- What an edit does before history is touched: it comes to a plan unless the user cancels or
changes nothing. -/
def draft : Edit → Commit → Run Shell (Option Plan)
  | reword answer, commit => do
    let current ← Git.message commit.root commit.sha
    note (.asked commit (.message current))
    match ← .ofExcept (answer current) with
    | none => return none
    | some message =>
      if message = current then return none
      else
        let shas ← Git.commitsFrom commit.root commit.sha
        return some (rewordPlan commit.sha message shas)
  | rebase answer, commit => do
    let shas ← Git.commitsFrom commit.root commit.sha
    let picks := shas.map pickLine
    note (.asked commit (.plan picks))
    match ← .ofExcept (answer picks) with
    | none => return none
    | some edited =>
      let lines := edited.filter isEffective
      if lines = [] then return none else return some (lines.map .text)

def carryOutDraft (commit : Commit) : Option Plan → Run Shell Bool
  | none => pure false
  | some plan => do
    Git.rebase commit.root commit.sha plan
    return true

theorem carryOut_eq (edit : Edit) (commit : Commit) :
    edit.carryOut commit = edit.draft commit >>= carryOutDraft commit := by
  cases edit with
  | reword answer =>
    simp only [carryOut, carryOutReword, draft, bind_assoc]
    apply bind_congr
    intro current
    apply bind_congr
    intro _
    apply bind_congr
    intro message
    cases message with
    | none => rfl
    | some message =>
      dsimp only
      split
      · rfl
      · simp [carryOutDraft]
  | rebase answer =>
    simp only [carryOut, carryOutRebase, draft, bind_assoc]
    apply bind_congr
    intro shas
    apply bind_congr
    intro _
    apply bind_congr
    intro edited
    cases edited with
    | none => rfl
    | some edited =>
      dsimp only
      split
      · rfl
      · rfl

theorem harmless_draft (edit : Edit) (commit : Commit) :
    Keeps (Grows Harmless) (edit.draft commit) := by
  have list : Keeps (Grows Harmless) (Git.commitsFrom commit.root commit.sha) :=
    (Git.asks_commitsFrom _ _).mono fun _ _ h => h.mono fun _ => harmless_of_isQuery
  cases edit with
  | reword answer =>
    have read : Keeps (Grows Harmless) (Git.message commit.root commit.sha) :=
      (Git.asks_message _ _).mono fun _ _ h => h.mono fun _ => harmless_of_isQuery
    refine read.bind fun current => Keeps.bind (keeps_note rfl) fun _ =>
      Keeps.bind (keeps_ofExcept _) fun message => ?_
    cases message with
    | none => exact keeps_pure _
    | some message =>
      dsimp only
      split
      · exact keeps_pure _
      · exact list.bind fun _ => keeps_pure _
  | rebase answer =>
    refine list.bind fun shas => Keeps.bind (keeps_note rfl) fun _ =>
      Keeps.bind (keeps_ofExcept _) fun edited => ?_
    cases edited with
    | none => exact keeps_pure _
    | some edited =>
      dsimp only
      split
      · exact keeps_pure _
      · exact keeps_pure _

/-- After `s` and before the events `earlier` have ended, git has named the parents of the
commit, and has listed no merge among the commits that a rebase would replay. -/
inductive Unmerged (commit : Commit) (s : Shell) (earlier : List Event) : Prop
  | intro {full : String} {parents : List String} {out : String} {before between after : Shell}
      (since : Grows Harmless s before)
      (named : Git.parents commit.root commit.sha before = (.ok (full, parents), between))
      (listed : output commit.root ["rev-list", "--min-parents=2", Git.range parents] between =
        (.ok out, after))
      (noMerge : Text.fields out = [])
      (past : after.journal <:+ earlier) : Unmerged commit s earlier

theorem Unmerged.of_grows {commit : Commit} {s t : Shell} {earlier : List Event}
    (u : Unmerged commit t earlier) (h : Grows Harmless s t) : Unmerged commit s earlier := by
  obtain ⟨since, named, listed, noMerge, past⟩ := u
  exact ⟨trans_of (Grows Harmless) h since, named, listed, noMerge, past⟩

theorem Unmerged.of_suffix {commit : Commit} {s : Shell} {earlier later : List Event}
    (u : Unmerged commit s earlier) (h : earlier <:+ later) : Unmerged commit s later := by
  obtain ⟨since, named, listed, noMerge, past⟩ := u
  exact ⟨since, named, listed, noMerge, past.trans h⟩

theorem unmerged_of_commitsFrom {commit : Commit} {s t : Shell} {shas : List String}
    (h : Git.commitsFrom commit.root commit.sha s = (.ok shas, t)) :
    Unmerged commit s t.journal := by
  obtain ⟨⟨full, parents⟩, u, hp, h⟩ := bind_eq_ok.mp h
  obtain ⟨out, v, ho, h⟩ := bind_eq_ok.mp h
  split at h
  · next hf =>
    have rest : Keeps (Grows (Event.isQuery ·))
        (output commit.root ["rev-list", "--reverse", "--topo-order", Git.range parents] >>=
          fun out => pure (Git.readShas out)) :=
      Keeps.bind (keeps_output fun _ => rfl) fun _ => keeps_pure _
    exact .intro (refl_of _ s) hp ho hf (rest.of_eq h).suffix
  · simp [fail] at h

/-- A draft that comes to a plan has made sure that no merge would be replayed. -/
theorem unmerged_of_draft {edit : Edit} {commit : Commit} {s t : Shell} {plan : Plan}
    (h : edit.draft commit s = (.ok (some plan), t)) :
    Unmerged commit s t.journal := by
  cases edit with
  | reword answer =>
    obtain ⟨current, s₁, hm, h⟩ := bind_eq_ok.mp h
    obtain ⟨_, s₂, hn, h⟩ := bind_eq_ok.mp h
    obtain ⟨message, s₃, ha, h⟩ := bind_eq_ok.mp h
    obtain ⟨-, rfl⟩ := ofExcept_eq_ok.mp ha
    have opening : Grows Harmless s s₂ :=
      trans_of _ (((Git.asks_message _ _).of_eq hm).mono fun _ => harmless_of_isQuery)
        ((keeps_note (P := Harmless) rfl).of_eq hn)
    cases message with
    | none => simp [pure_eq_ok] at h
    | some message =>
      dsimp only at h
      split at h
      · simp [pure_eq_ok] at h
      · obtain ⟨shas, s₄, hl, h⟩ := bind_eq_ok.mp h
        obtain ⟨-, rfl⟩ := pure_eq_ok.mp h
        exact (unmerged_of_commitsFrom hl).of_grows opening
  | rebase answer =>
    obtain ⟨shas, s₁, hl, h⟩ := bind_eq_ok.mp h
    obtain ⟨_, s₂, hn, h⟩ := bind_eq_ok.mp h
    obtain ⟨edited, s₃, ha, h⟩ := bind_eq_ok.mp h
    obtain ⟨-, rfl⟩ := ofExcept_eq_ok.mp ha
    have ending : s₁.journal <:+ s₂.journal :=
      ((keeps_note (P := Harmless) rfl).of_eq hn).suffix
    cases edited with
    | none => simp [pure_eq_ok] at h
    | some edited =>
      dsimp only at h
      split at h
      · simp [pure_eq_ok] at h
      · obtain ⟨-, rfl⟩ := pure_eq_ok.mp h
        exact (unmerged_of_commitsFrom hl).of_suffix ending

/-- At most `k` of the events that the second shell has more rewrite history. -/
def RewritesAtMost (k : Nat) (s t : Shell) : Prop :=
  t.journal.countP Event.isRewrite ≤ s.journal.countP Event.isRewrite + k

theorem rewrites_none {s t : Shell} (h : Grows Harmless s t) : RewritesAtMost 0 s t :=
  Nat.le_of_eq h.countP_eq

theorem rewrites_bind {α β : Type} {k l : Nat} {x : Run Shell α} {f : α → Run Shell β}
    (hx : Keeps (RewritesAtMost k) x) (hf : ∀ a, Keeps (RewritesAtMost l) (f a)) :
    Keeps (RewritesAtMost (k + l)) (x >>= f) := by
  refine hx.comp hf ?_ ?_
  · intro s t h
    unfold RewritesAtMost at *
    omega
  · intro s t u h h'
    unfold RewritesAtMost at *
    omega

theorem rewrites_complete (c : Call) : Keeps (RewritesAtMost 1) (complete c) := by
  intro s
  show ((Event.called c (s.git s.past c).started) :: s.journal).countP Event.isRewrite ≤ _
  rw [List.countP_cons]
  split <;> omega

theorem rewrites_rebase (dir sha : String) (plan : Plan) :
    Keeps (RewritesAtMost 1) (Git.rebase dir sha plan) := by
  have ask : Keeps (RewritesAtMost 0) (Git.parents dir sha) :=
    (Git.asks_parents dir sha).mono fun _ _ h =>
      rewrites_none (h.mono fun _ => harmless_of_isQuery)
  apply rewrites_bind (l := 1) ask
  intro _
  apply rewrites_bind (l := 0) (rewrites_complete _)
  intro f
  refine Keeps.mono (R := Grows Harmless) ?_ fun _ _ => rewrites_none
  split
  · exact keeps_pure ()
  · apply Keeps.bind (keeps_call fun _ => rfl)
    intro reply
    cases reply <;> exact keeps_fail _

/-- An edit rewrites history at most once. -/
theorem rewrites_carryOut (edit : Edit) (commit : Commit) :
    Keeps (RewritesAtMost 1) (edit.carryOut commit) := by
  have stay (done : Bool) : Keeps (RewritesAtMost 0) (pure done : Run Shell Bool) :=
    (keeps_pure done).mono fun _ _ => rewrites_none
  have first : Keeps (RewritesAtMost 0) (edit.draft commit) :=
    (harmless_draft edit commit).mono fun _ _ => rewrites_none
  rw [carryOut_eq]
  apply rewrites_bind (l := 1) first
  intro plan?
  cases plan? with
  | none => exact (stay false).mono fun _ _ h => Nat.le_succ_of_le h
  | some plan => exact rewrites_bind (l := 0) (rewrites_rebase _ _ plan) fun _ => stay true

/-- The event `e` follows on `earlier` while the edit is carried out from `s` on, which rewrites
history at most once. If the event is the one that does, then no merge is replayed. -/
structure Touches (edit : Edit) (commit : Commit) (s : Shell) (e : Event)
    (earlier : List Event) : Prop where
  noted : e :: earlier <:+ (edit.carryOut commit s).2.journal
  since : s.journal <:+ earlier
  once : RewritesAtMost 1 s (edit.carryOut commit s).2
  unmerged : e.isRewrite = true → Unmerged commit s earlier

theorem touches_of_carryOut {edit : Edit} {commit : Commit} {s : Shell} {e : Event}
    {earlier : List Event} (noted : e :: earlier <:+ (edit.carryOut commit s).2.journal)
    (since : s.journal <:+ earlier) : edit.Touches commit s e earlier := by
  refine ⟨noted, since, rewrites_carryOut edit commit s, fun he => ?_⟩
  have grows := harmless_draft edit commit s
  -- a rewriting call cannot be part of the draft
  have above {t : Shell} (ht : Grows Harmless s t) : ¬ e :: earlier <:+ t.journal := fun h => by
    simpa [Harmless, he] using ht.of_suffix h since
  rw [carryOut_eq, bind_apply] at noted
  split at noted
  · next plan? t h =>
    rw [h] at grows
    cases plan? with
    | none => exact absurd noted (above grows)
    | some plan =>
      have later : t.journal <:+ (carryOutDraft commit (some plan) t).2.journal :=
        Grows.suffix (P := Outward) <|
          ((outward_rebase _ _ _).bind fun _ => keeps_pure true) t
      rcases suffix_of_cons_suffix noted later with hin | hout
      · exact absurd hin (above grows)
      · exact (unmerged_of_draft h).of_suffix hout
  · next f t h =>
    rw [h] at grows
    exact absurd noted (above grows)

end Edit

end HistoryGuard
