import HistoryGuard.Proofs.Edit.Draft
import HistoryGuard.Proofs.Gate.Approval
import HistoryGuard.Proofs.Session

/-! # Edits are approved

However steps follow one another and nest, history is rewritten and the user is asked about it
only by a perform that the gate has allowed, in the state that the gate has left.
-/

namespace HistoryGuard

theorem Edit.perform_of_denied {ι : Type} {compute : Compute ι} (edit : Edit) {s : Selection}
    {w : Workspace ι}
    (h : ∀ v, Gate.attemptEdit compute s edit.action.failureTitle w ≠ (.ok true, v)) :
    edit.perform compute s w = Gate.attemptEdit compute s edit.action.failureTitle w ∧
      (Gate.attemptEdit compute s edit.action.failureTitle w).1 ≠ .ok true := by
  rw [perform, Run.bind_apply]
  rcases hr : Gate.attemptEdit compute s edit.action.failureTitle w with ⟨e | _ | _, v⟩
  · exact ⟨rfl, by simp⟩
  · exact ⟨rfl, by simp⟩
  · exact absurd hr (h v)

namespace Session

open Run Workspace Containment

/-- The journal has grown, and every event of an edit among the new ones satisfies `A` together
with the events before it. -/
structure Accounts (A : Event → List Event → Prop) (w v : Session) : Prop where
  grows : w.shell.journal <:+ v.shell.journal
  account : ∀ e earlier, e.isEditing = true → e :: earlier <:+ v.shell.journal →
    w.shell.journal <:+ earlier → A e earlier

variable {A : Event → List Event → Prop}

theorem accounts_of_quiet {w v : Session} {l : List Event}
    (h : v.shell.journal = l ++ w.shell.journal) (quiet : ∀ e ∈ l, e.isEditing = false) :
    Accounts A w v := by
  constructor
  · exact ⟨l, h.symm⟩
  · intro e earlier he hv hw
    have grown : Shell.Grows (fun e => e.isEditing = false) ⟨w.shell.git, [], w.shell.journal⟩
        ⟨w.shell.git, [], v.shell.journal⟩ := ⟨rfl, l, h, quiet⟩
    simpa [he] using grown.of_suffix hv hw

instance : Std.Refl (Accounts A) := ⟨fun _ => accounts_of_quiet (List.nil_append _).symm (by simp)⟩

instance : IsTrans Session (Accounts A) where
  trans w v u h h' := by
    constructor
    · exact h.grows.trans h'.grows
    · intro e earlier he hu hw
      rcases suffix_of_cons_suffix hu h'.grows with hv | hv
      · exact h.account e earlier he hv hw
      · exact h'.account e earlier he hu hv

theorem accounts_of_loose (w v : Session) (h : Loose (·.isEditing = false) w v) :
    Accounts A w v := by
  obtain ⟨-, l, hj, quiet⟩ := h
  exact accounts_of_quiet hj quiet

def twoCommits : Git := fun _ call =>
  let out := match call.args with
    | "rev-list" :: "--parents" :: _ => "c p\n"
    | "rev-list" :: "--reverse" :: _ => "c\n"
    | _ => ""
  .ended 0 out.toByteArray "".toByteArray

def topCommit : Commit := { sha := "c", root := "/work", parents := ["p"] }

/-- A session in which the branch of the head is known to contain the commit. -/
def knowingSession : Session where
  shell := { git := twoCommits }
  policy := .protection {}
  lookup := .fixed [(topCommit.root, .recorded "topic" [⟨"origin", "main"⟩])]
  cache := { entries := Table.empty.put topCommit.key (.ofList ["topic"]) }
  own := {}

end Session

end HistoryGuard
