import HistoryGuard.Proofs.Containment.Stamp
import HistoryGuard.Proofs.Session

/-! # Stamps count

The stamp of a root says how often everything and how often the root has been forgotten, so it can
be told from the journal. A stamp from before an event that forgets the root is never the present
one after it.
-/

namespace HistoryGuard

def Event.drops (target : Option String) : Event → Bool
  | invalidated forgotten => forgotten == target
  | _ => false

abbrev Event.Keeping (e : Event) : Prop := ∀ target, e.drops target = false

theorem Event.keeping_of_isAside {e : Event} (h : e.isAside = true) : e.Keeping := by
  intro target
  cases e with
  | invalidated forgotten => simp [isAside, isQuery, isNotice] at h
  | _ => rfl

namespace Stamp

/-- The stamp that a root has after these events. -/
def after (journal : List Event) (root : String) : Stamp :=
  ⟨journal.countP (Event.drops none), journal.countP (Event.drops (some root))⟩

variable {journal later : List Event} {root : String}

theorem after_append (kept : ∀ e ∈ later, e.Keeping) :
    after (later ++ journal) root = after journal root := by
  have none (target : Option String) : later.countP (Event.drops target) = 0 :=
    List.countP_eq_zero.mpr fun e he => by simp [kept e he]
  simp [after, List.countP_append, none]

theorem after_le_of_suffix (h : journal <:+ later) : after journal root ≤ after later root :=
  ⟨h.sublist.countP_le, h.sublist.countP_le⟩

theorem not_after_le_of_forgets {target : Option String} (h : Cache.Forgets target root) :
    ¬ after (.invalidated target :: journal) root ≤ after journal root := by
  rw [le_def]
  rcases h with rfl | rfl
  · simp [after, Event.drops]
  · simp [after, Event.drops]

end Stamp

namespace Containment

open Run Workspace

variable {ι : Type}

/-- The stamps agree with the journal. -/
def Counted (w : Workspace ι) : Prop :=
  ∀ root, w.cache.stamp root = .after w.shell.journal root

theorem Counted.grow {w v : Workspace ι} {l : List Event} (h : Counted w)
    (stamps : ∀ root, v.cache.stamp root = w.cache.stamp root)
    (journal : v.shell.journal = l ++ w.shell.journal) (kept : ∀ e ∈ l, e.Keeping) :
    Counted v := by
  intro root
  rw [stamps, h root, journal, Stamp.after_append kept]

theorem Counted.cons {w v : Workspace ι} {e : Event} (h : Counted w)
    (stamps : ∀ root, v.cache.stamp root = w.cache.stamp root)
    (journal : v.shell.journal = e :: w.shell.journal) (kept : e.Keeping) : Counted v :=
  h.grow (l := [e]) stamps journal (by simpa using kept)

theorem counted_begun (key : Key) {w : Workspace ι} (h : Counted w) : Counted (begun key w) :=
  h.cons (fun _ => rfl) (begun_journal key w) fun _ => rfl

theorem Counted.beside {w v : Workspace ι} (h : Counted w) (hb : Beside Event.Keeping w v) :
    Counted v := by
  obtain ⟨l, journal, kept⟩ := hb.journal
  exact h.grow (fun root => by rw [hb.cache]) journal kept

theorem Counted.invalidate {w : Workspace ι} (h : Counted w) (target : Option String) :
    Counted (invalidate target w).2 := by
  intro root
  have before := h root
  rw [Stamp.after, Cache.stamp, Stamp.mk.injEq] at before
  cases target with
  | none => simp [invalidate_eq, Cache.invalidate, Cache.stamp, Shell.log, Stamp.after,
      Event.drops, before]
  | some forgotten =>
    by_cases same : forgotten = root
    · simp [invalidate_eq, Cache.invalidate, Cache.stamp, Shell.log, Stamp.after, Event.drops,
        before, same]
    · simp [invalidate_eq, Cache.invalidate, Cache.stamp, Shell.log, Stamp.after, Event.drops,
        before, same, Ne.symm same]

def CountedLater (w v : Workspace ι) : Prop := Counted w → Counted v

instance : Std.Refl (CountedLater (ι := ι)) := ⟨fun _ h => h⟩

instance : IsTrans (Workspace ι) CountedLater := ⟨fun _ _ _ h h' hw => h' (h hw)⟩

/-- A stamp from before a root was forgotten is behind ever after. -/
theorem stale_of_counted {u x : Workspace ι} (hu : Counted u) (hx : Counted x) {root : String}
    {target : Option String} {earlier : List Event} (forgets : Cache.Forgets target root)
    (before : u.shell.journal <:+ earlier)
    (after : .invalidated target :: earlier <:+ x.shell.journal) {stamp : Stamp}
    (old : stamp ≤ u.cache.stamp root) : x.cache.stamp root ≠ stamp := by
  rintro rfl
  rw [hu, hx] at old
  have whole := Stamp.le_trans (Stamp.after_le_of_suffix after) old
  exact Stamp.not_after_le_of_forgets forgets
    (Stamp.le_trans whole (Stamp.after_le_of_suffix before))

theorem maintains_counted {g : Compute ι} (hg : ∀ key, Keeps CountedLater (g key)) :
    Maintains CountedLater g := by
  apply maintains_of_moves
  case beside => exact fun w v aside h => h.beside (aside.mono fun _ => Event.keeping_of_isAside)
  case begins => exact fun key w h => counted_begun key h
  case ends => exact fun n key p h => h.cons (fun _ => rfl) (ended_journal n key p) fun _ => rfl
  case changes => exact fun w c stamps h => h.grow stamps (List.nil_append _).symm (by simp)
  case forgets => exact fun target w h => h.invalidate target
  case hg => exact hg

end Containment

namespace Session

open Run Workspace Containment

theorem counted_of_reaches {start w : Session} (initial : Initial start) (h : Reaches start w) :
    Counted w := by
  have same (w : Session) (own : Script) : CountedLater w { w with own } := fun h => h
  have edits (edit : Edit) (commit : Commit) :
      Keeps CountedLater (onShell (ι := Script) (edit.carryOut commit)) := by
    have kept := edit.grows_carryOut (P := Event.Keeping) (fun _ _ _ => rfl) (fun _ _ _ => rfl)
    exact (beside_onShell (kept commit)).mono fun _ _ hb h => h.beside hb
  have maintains := fun g : Compute Script => maintains_counted (g := g)
  have moves := maintains (fun _ => .fail .noAnswer) fun _ => keeps_fail _
  refine h.rel (R := CountedLater) moves.beside ?_ (fun key w => counted_begun key) ?_ same ?_
  · exact keeps_step ⟨fun _ w => same w _, fun w _ => same w _⟩ maintains edits
  · exact fun task rest w _ h => h
  · intro root
    rw [initial.cache, initial.journal]
    rfl

theorem stale_of_forgotten {start u x : Session} (initial : Initial start)
    (before : Reaches start u) (later : Reaches start x) {root : String} {target : Option String}
    {earlier : List Event} (forgets : Cache.Forgets target root)
    (hu : u.shell.journal <:+ earlier) (hx : .invalidated target :: earlier <:+ x.shell.journal)
    {stamp : Stamp} (old : stamp ≤ u.cache.stamp root) : x.cache.stamp root ≠ stamp :=
  stale_of_counted (counted_of_reaches initial before) (counted_of_reaches initial later) forgets
    hu hx old

end Session

end HistoryGuard
