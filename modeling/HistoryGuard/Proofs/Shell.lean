import HistoryGuard.Git.Rebase
import HistoryGuard.Proofs.Run
import HistoryGuard.Proofs.Text.Listing
import HistoryGuard.Repository

/-! # How the shell grows

The journal of a shell only grows, and git is never replaced within a run. The queries add
nothing but calls that leave history alone.
-/

namespace HistoryGuard

/-- An interactive rebase. -/
def Call.rewrites (c : Call) : Bool := ["rebase", "-i"].isPrefixOf c.args

namespace Event

def isQuery : Event → Bool
  | called c _ => !c.rewrites
  | _ => false

def isRewrite : Event → Bool
  | called c _ => c.rewrites
  | _ => false

def isAsking : Event → Bool
  | asked .. => true
  | _ => false

/-- History is rewritten, or the user is asked about it. -/
def isEditing (e : Event) : Bool := e.isRewrite || e.isAsking

def isContainment : Event → Bool
  | computing .. => true
  | computed .. => true
  | invalidated _ => true
  | _ => false

end Event

theorem added_append {α : Type} (new old : List α) : added old (new ++ old) = new.reverse := by
  simp [added]

theorem added_self {α : Type} (old : List α) : added old old = [] := added_append [] old

theorem added_trans {α : Type} {old mid new : List α} (h : old <:+ mid) (h' : mid <:+ new) :
    added old new = added old mid ++ added mid new := by
  obtain ⟨l, rfl⟩ := h
  obtain ⟨k, rfl⟩ := h'
  rw [added_append, added_append, ← List.append_assoc, added_append, List.reverse_append]

namespace Shell

open Run

def after (c : Call) (s : Shell) : Shell :=
  { s with past := c :: s.past, journal := .called c (s.git s.past c).started :: s.journal }

theorem call_apply (c : Call) (s : Shell) : call c s = (.ok (s.git s.past c), after c s) := rfl

theorem complete_apply (c : Call) (s : Shell) :
    complete c s = (finished (s.git s.past c), after c s) := rfl

theorem output_apply (dir : String) (args : List String) (s : Shell) :
    output dir args s =
      (outputOf ("git" :: args) (s.git s.past { args, dir }), after { args, dir } s) := rfl

theorem decode_of_no_return {text : String} (h : '\r' ∉ text.toList) :
    decode text.toByteArray = some text := by
  rw [decode_toByteArray, Text.foldReturns_of_no_return h, String.ofList_toList]

theorem output_of_printed {dir : String} {args : List String} {s : Shell} {out err : ByteArray}
    {text warnings : String} (printed : s.git s.past { args, dir } = .ended 0 out err)
    (readOut : decode out = some text) (readErr : decode err = some warnings) :
    output dir args s = (.ok text, after { args, dir } s) := by
  rw [output_apply, printed]
  simp only [outputOf, finished, readOut, readErr]
  rfl

/-- The second shell has the same git, and the events that its journal has more satisfy `P`. -/
structure Grows (P : Event → Prop) (s t : Shell) : Prop where
  git : t.git = s.git
  journal : ∃ es, t.journal = es ++ s.journal ∧ ∀ e ∈ es, P e

variable {P Q : Event → Prop}

instance : Std.Refl (Grows P) := ⟨fun _ => ⟨rfl, [], rfl, by simp⟩⟩

instance : IsTrans Shell (Grows P) where
  trans s t u h h' := by
    obtain ⟨es, he, hp⟩ := h.journal
    obtain ⟨es', he', hp'⟩ := h'.journal
    refine ⟨h'.git.trans h.git, es' ++ es, by rw [he', he, List.append_assoc], ?_⟩
    intro e hm
    rcases List.mem_append.mp hm with hm | hm
    · exact hp' e hm
    · exact hp e hm

theorem Grows.mono {s t : Shell} (h : Grows P s t) (hpq : ∀ e, P e → Q e) : Grows Q s t := by
  obtain ⟨hg, es, he, hp⟩ := h
  exact ⟨hg, es, he, fun e hm => hpq e (hp e hm)⟩

theorem keeps_call {c : Call} (h : ∀ b, P (.called c b)) : Keeps (Grows P) (call c) :=
  fun _ => ⟨rfl, [_], rfl, by simp [h]⟩

theorem keeps_note {e : Event} (h : P e) : Keeps (Grows P) (note e) :=
  fun _ => ⟨rfl, [e], rfl, by simp [h]⟩

theorem keeps_complete {c : Call} (h : ∀ b, P (.called c b)) : Keeps (Grows P) (complete c) :=
  (keeps_call h).bind fun _ => keeps_ofExcept _

theorem keeps_output {dir : String} {args : List String}
    (h : ∀ b, P (.called { args, dir } b)) : Keeps (Grows P) (output dir args) :=
  (keeps_call h).bind fun _ => keeps_ofExcept _

end Shell

namespace Git

open Run Shell

def parentsCall (dir sha : String) : Call :=
  { args := ["rev-list", "--parents", "-n", "1", sha, "--"], dir }

/-- The run does nothing in the shell but ask git. -/
abbrev Asks {α : Type} (x : Run Shell α) : Prop := Keeps (Grows (Event.isQuery ·)) x

variable (dir sha : String)

theorem asks_topLevel : Asks (topLevel dir) :=
  (keeps_output fun _ => rfl).bind fun _ => keeps_pure _

theorem asks_currentBranch : Asks (currentBranch dir) :=
  (keeps_complete fun _ => rfl).bind fun _ => keeps_ofExcept _

theorem asks_parents : Asks (parents dir sha) := by
  apply (keeps_output fun _ => rfl).bind
  intro out
  cases Text.fields out with
  | nil => exact keeps_fail _
  | cons full rest => exact keeps_pure _

theorem asks_commit : Asks (commit dir sha) :=
  (asks_topLevel dir).bind fun root => (asks_parents root sha).bind fun _ => keeps_pure _

theorem asks_headSha : Asks (headSha dir) :=
  (keeps_output fun _ => rfl).bind fun _ => keeps_pure _

theorem asks_log (limit : Int) : Asks (log dir limit) :=
  (keeps_output fun _ => rfl).bind fun _ => keeps_pure _

theorem asks_message : Asks (message dir sha) :=
  (keeps_output fun _ => rfl).bind fun _ => keeps_pure _

theorem asks_isAncestor (descendant : String) : Asks (isAncestor dir sha descendant) :=
  (keeps_complete fun _ => rfl).bind fun _ => keeps_ofExcept _

theorem asks_containing : Asks (containing dir sha) := by
  apply Keeps.bind (keeps_output fun _ => rfl)
  intro _
  apply (asks_currentBranch dir).bind
  intro branch
  dsimp only
  split
  · exact (asks_isAncestor dir sha head).bind fun _ => keeps_pure _
  · exact (keeps_pure false).bind fun _ => keeps_pure _

theorem asks_remoteBranches : Asks (remoteBranches dir) :=
  (keeps_output fun _ => rfl).bind fun _ => (keeps_output fun _ => rfl).bind fun _ => keeps_pure _

theorem asks_commitsFrom : Asks (commitsFrom dir sha) := by
  apply (asks_parents dir sha).bind
  intro _
  apply Keeps.bind (keeps_output fun _ => rfl)
  intro _
  split
  · exact Keeps.bind (keeps_output fun _ => rfl) fun _ => keeps_pure _
  · exact keeps_fail _

end Git

namespace Repository

theorem asks_currentBranch (r : Repository) : Git.Asks r.currentBranch := by
  cases r with
  | recorded branch _ => exact Run.keeps_pure _
  | worktree tree => exact Git.asks_currentBranch tree.root

theorem asks_remoteBranches (r : Repository) : Git.Asks r.remoteBranches := by
  cases r with
  | recorded _ remotes => exact Run.keeps_pure _
  | worktree tree => exact Git.asks_remoteBranches tree.root

end Repository

theorem Registry.asks_find (r : Registry) (dir : String) : Git.Asks (r.find dir) := by
  rw [find]
  dsimp only
  split
  · exact Run.keeps_pure _
  · apply (Git.asks_topLevel _).attempt.bind
    intro top?
    cases top? with
    | ok top => exact Run.keeps_pure _
    | error e =>
      dsimp only
      split
      · exact Run.keeps_pure _
      · exact Run.keeps_fail _

end HistoryGuard
