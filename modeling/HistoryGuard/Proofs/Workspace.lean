import HistoryGuard.Edit
import HistoryGuard.Proofs.Shell

/-! # What leaves the cache alone

Looking up a repository, judging a set of branches and carrying out an edit work beside the
containment cache: they only add to the journal, and nothing about containment.
-/

namespace HistoryGuard

def Event.isNotice : Event → Bool
  | noticed _ => true
  | _ => false

def Event.notice? : Event → Option Notice
  | noticed notice => some notice
  | _ => none

/-- Neither history nor the cache is concerned. -/
def Event.isAside (e : Event) : Bool := e.isQuery || e.isNotice

theorem Event.isAside_of_isQuery {e : Event} (h : e.isQuery = true) : e.isAside = true := by
  simp [isAside, h]

theorem Event.isEditing_of_isAside {e : Event} (h : e.isAside = true) : e.isEditing = false := by
  cases e with
  | called c started => simpa [isAside, isQuery, isNotice, isEditing, isRewrite, isAsking] using h
  | noticed notice => rfl
  | _ => simp [isAside, isQuery, isNotice] at h

namespace Workspace

open Run Shell

variable {ι : Type}

/-- The second workspace has the same cache, and the events that its journal has more satisfy
`P`. -/
structure Beside (P : Event → Prop) (w v : Workspace ι) : Prop where
  cache : v.cache = w.cache
  serial : v.serial = w.serial
  own : v.own = w.own
  journal : ∃ es, v.shell.journal = es ++ w.shell.journal ∧ ∀ e ∈ es, P e

variable {P Q : Event → Prop}

instance : Std.Refl (Beside (ι := ι) P) := ⟨fun _ => ⟨rfl, rfl, rfl, [], rfl, by simp⟩⟩

instance : IsTrans (Workspace ι) (Beside P) where
  trans w v u h h' := by
    obtain ⟨es, he, hp⟩ := h.journal
    obtain ⟨es', he', hp'⟩ := h'.journal
    refine ⟨h'.cache.trans h.cache, h'.serial.trans h.serial, h'.own.trans h.own, es' ++ es,
      by rw [he', he, List.append_assoc], ?_⟩
    intro e hm
    rcases List.mem_append.mp hm with hm | hm
    · exact hp' e hm
    · exact hp e hm

theorem Beside.mono {w v : Workspace ι} (h : Beside P w v) (hpq : ∀ e, P e → Q e) :
    Beside Q w v := by
  obtain ⟨hc, hs, ho, es, he, hp⟩ := h
  exact ⟨hc, hs, ho, es, he, fun e hm => hpq e (hp e hm)⟩

theorem beside_onShell {α : Type} {x : Run Shell α} (h : Keeps (Grows P) x) :
    Keeps (Beside (ι := ι) P) (onShell x) :=
  h.focus fun _ _ hs => ⟨rfl, rfl, rfl, hs.journal⟩

theorem beside_note {e : Event} (h : P e) : Keeps (Beside (ι := ι) P) (note e) :=
  beside_onShell (keeps_note h)

/-- The run works beside the cache and does no more than ask git. -/
abbrev Asks {α : Type} (x : Run (Workspace ι) α) : Prop := Keeps (Beside (Event.isQuery ·)) x

theorem asks_repository? (root : String) : Asks (ι := ι) (repository? root) := by
  refine Keeps.bind (keeps_read _) fun lookup => ?_
  cases lookup with
  | fixed entries => exact keeps_pure _
  | registry r =>
    apply Keeps.bind (beside_onShell (r.asks_find root))
    intro _
    refine Keeps.bind (keeps_modify fun _ => ?_) fun _ => keeps_pure _
    exact ⟨rfl, rfl, rfl, [], rfl, by simp⟩

theorem asks_compute (key : Key) : Asks (ι := ι) (compute key) :=
  beside_onShell (Git.asks_containing key.root key.sha)

end Workspace

namespace Workspace

open Run

variable {ι : Type}

/-- The relation is kept by the queries of git and by the lookups of repositories. -/
structure Upholds (R : Workspace ι → Workspace ι → Prop) : Prop where
  query : ∀ {α : Type} {x : Run Shell α}, Git.Asks x → Keeps R (onShell x)
  repository? : ∀ root, Keeps R (repository? root)

theorem upholds_asking : Upholds (Beside (ι := ι) (Event.isQuery ·)) :=
  ⟨beside_onShell, asks_repository?⟩

namespace Upholds

variable {R : Workspace ι → Workspace ι → Prop} [Std.Refl R] [IsTrans (Workspace ι) R]

theorem findProtected (h : Upholds R) (r : Repository) (b : Branches) :
    Keeps R (Gate.findProtected r b) :=
  (h.query r.asks_remoteBranches).bind fun _ =>
    Keeps.bind (keeps_read _) fun _ => keeps_ofExcept _

theorem verdict (h : Upholds R) (r : Repository) (b : Branches) : Keeps R (Gate.verdict r b) := by
  apply (h.query r.asks_currentBranch).bind
  intro current
  split
  · apply (h.findProtected r b).bind
    intro found
    cases found with
    | none => exact keeps_pure _
    | some _ => exact keeps_pure _
  · exact keeps_pure _

theorem enablement (h : Upholds R) (s : Selection) : Keeps R (Gate.enablement s) := by
  match s with
  | [] => exact keeps_pure _
  | _ :: _ :: _ => exact keeps_pure _
  | [commit] =>
    apply (h.repository? commit.root).bind
    intro found
    cases found with
    | none => exact keeps_pure _
    | some repository =>
      dsimp only
      split
      · refine Keeps.bind (keeps_read _) fun cached => ?_
        cases cached with
        | none => exact keeps_pure _
        | some b => exact (h.verdict repository b).bind fun _ => keeps_pure _
      · exact keeps_pure _

end Upholds

end Workspace

namespace Gate

open Workspace

variable {ι : Type}

theorem asks_verdict (r : Repository) (b : Branches) : Asks (ι := ι) (verdict r b) :=
  upholds_asking.verdict r b

end Gate

/-- An edit tells the user of the failure instead of handing it on. -/
def Failure.isTold (e : Failure) : Bool := e.isCommand || e.isHistory

namespace Edit

open Run Shell

section Grows

variable {P : Event → Prop} (calls : ∀ c started, P (.called c started))
include calls

theorem grows_of_asks {α : Type} {x : Run Shell α} (h : Git.Asks x) : Keeps (Grows P) x := by
  refine h.mono fun _ _ grows => grows.mono fun e he => ?_
  cases e with
  | called c started => exact calls c started
  | _ => simp [Event.isQuery] at he

theorem grows_rebase (dir sha : String) (plan : Plan) :
    Keeps (Grows P) (Git.rebase dir sha plan) := by
  apply (grows_of_asks calls (Git.asks_parents dir sha)).bind
  intro _
  apply Keeps.bind (keeps_complete (calls _))
  intro f
  split
  · exact keeps_pure _
  · apply Keeps.bind (keeps_call (calls _))
    intro reply
    cases reply <;> exact keeps_fail _

/-- Carrying out an edit calls git and asks the user, and does nothing else that could be seen. -/
theorem grows_carryOut (asks : ∀ c prompt, P (.asked c prompt)) (edit : Edit) (commit : Commit) :
    Keeps (Grows P) (edit.carryOut commit) := by
  have list : Keeps (Grows P) (Git.commitsFrom commit.root commit.sha) :=
    grows_of_asks calls (Git.asks_commitsFrom _ _)
  cases edit with
  | reword answer =>
    have read : Keeps (Grows P) (Git.message commit.root commit.sha) :=
      grows_of_asks calls (Git.asks_message _ _)
    refine read.bind fun current => Keeps.bind (keeps_note (asks _ _)) fun _ =>
      Keeps.bind (keeps_ofExcept _) fun message => ?_
    cases message with
    | none => exact keeps_pure _
    | some message =>
      dsimp only
      split
      · exact keeps_pure _
      · exact list.bind fun _ => (grows_rebase calls _ _ _).bind fun _ => keeps_pure _
  | rebase answer =>
    refine list.bind fun shas => Keeps.bind (keeps_note (asks _ _)) fun _ =>
      Keeps.bind (keeps_ofExcept _) fun edited => ?_
    cases edited with
    | none => exact keeps_pure _
    | some edited =>
      dsimp only
      split
      · exact keeps_pure _
      · exact (grows_rebase calls _ _ _).bind fun _ => keeps_pure _

end Grows

abbrev Outward (e : Event) : Prop := e.isContainment = false

theorem outward_rebase (dir sha : String) (plan : Plan) :
    Keeps (Grows Outward) (Git.rebase dir sha plan) :=
  grows_rebase (fun _ _ => rfl) dir sha plan

theorem outward_carryOut (edit : Edit) (commit : Commit) :
    Keeps (Grows Outward) (edit.carryOut commit) :=
  grows_carryOut (fun _ _ => rfl) (fun _ _ => rfl) edit commit

end Edit

end HistoryGuard
