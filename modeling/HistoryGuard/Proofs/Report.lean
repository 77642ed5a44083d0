import HistoryGuard.Proofs.Session

/-! # What a step reports

A report holds the events and the outcomes of nested steps that a step has added. No outcome is
ever lost, so a step that reports none has none nested in it, and what it computes leaves the
cache alone.
-/

namespace HistoryGuard.Session

open Run Workspace Containment

variable {n : Nat} {s : Step} {w v : Session}

theorem report_of_step {outcome : Except Failure Answer} {events : List Event}
    (done : step n s w = (outcome, v))
    (journal : v.shell.journal = events.reverse ++ w.shell.journal)
    (nested : v.own.nested = w.own.nested) : report n s w = (⟨outcome, events, []⟩, v) := by
  rw [report, done]
  simp only [journal, nested, added_append, added_self, List.reverse_reverse]

theorem step_attemptEdit (n : Nat) (s : Selection) (title : String) (w : Session) :
    step n (.attemptEdit s title) w =
      ((Gate.attemptEdit (compute (nestedStep n)) s title w).1.map .flag,
        (Gate.attemptEdit (compute (nestedStep n)) s title w).2) := by
  rw [step_eq]
  exact bind_pure_apply ..

theorem step_perform (n : Nat) (edit : Edit) (s : Selection) (w : Session) :
    step n (.perform edit s) w =
      ((edit.perform (compute (nestedStep n)) s w).1.map .flag,
        (edit.perform (compute (nestedStep n)) s w).2) := by
  rw [step_eq]
  exact bind_pure_apply ..

theorem step_getNow (n : Nat) (key : Key) (w : Session) :
    step n (.getNow key) w = ((getNow (compute (nestedStep n)) key w).1.map .branches,
      (getNow (compute (nestedStep n)) key w).2) := by
  rw [step_eq]
  exact bind_pure_apply ..

theorem step_request (n : Nat) (key : Key) (w : Session) :
    step n (.request key) w = ((request key w).1.map .flag, (request key w).2) := by
  rw [step_eq]
  exact bind_pure_apply ..

theorem report_request (n : Nat) (key : Key) (w : Session) : report n (.request key) w =
    (⟨(request key w).1.map .flag, [], []⟩, { w with cache := (w.cache.request key).2 }) := by
  refine report_of_step ?_ rfl rfl
  rw [step_request, request_snd]

section Request

variable {key : Key}

theorem report_request_of_known (known : w.cache.knows key = true) (n : Nat) :
    report n (.request key) w = (⟨.ok (.flag false), [], []⟩, w) := by
  rw [report_request, request_of_knows known, Cache.request_of_knows known]
  rfl

theorem report_request_of_open (unknown : w.cache.knows key = false)
    (opened : w.cache.closed = false) (n : Nat) : report n (.request key) w =
      (⟨.ok (.flag true), [], []⟩, { w with cache := (w.cache.request key).2 }) := by
  rw [report_request, request_of_open unknown opened]
  rfl

theorem report_request_of_closed (unknown : w.cache.knows key = false)
    (closed : w.cache.closed = true) (n : Nat) : report n (.request key) w =
      (⟨.error .shutDown, [], []⟩, { w with cache := (w.cache.request key).2 }) := by
  rw [report_request, request_of_closed unknown closed]
  rfl

end Request

theorem step_runNext (n : Nat) (w : Session) :
    step n .runNext w = ((runNext (compute (nestedStep n)) w).1.map fun carried =>
        match carried with
        | some b => .branches b
        | none => .idle,
      (runNext (compute (nestedStep n)) w).2) := by
  rw [step_eq, Step.run, bind_apply]
  rcases runNext (compute (nestedStep n)) w with ⟨e | _ | b, v⟩ <;> rfl

theorem step_getCached (n : Nat) (key : Key) (w : Session) :
    step n (.getCached key) w = (.ok (.ofOption .branches (w.cache.get? key)), w) := by
  rw [step_eq]
  rfl

theorem step_invalidate (n : Nat) (target : Option String) (w : Session) :
    step n (.invalidate target) w = (.ok .nothing, (invalidate target w).2) := by
  rw [step_eq]
  rfl

theorem step_shutdown (n : Nat) (w : Session) :
    step n .shutdown w = (.ok .nothing, { w with cache := w.cache.close }) := by
  rw [step_eq]
  rfl

/-- No outcome of a nested step has been lost. -/
def NestedMore (w v : Session) : Prop := w.own.nested.length ≤ v.own.nested.length

instance : Std.Refl NestedMore := ⟨fun _ => Nat.le_refl _⟩

instance : IsTrans Session NestedMore := ⟨fun _ _ _ => Nat.le_trans⟩

theorem nestedMore_of_own (h : v.own = w.own) : NestedMore w v := Nat.le_of_eq (by rw [h])

theorem ignoresScript_nestedMore : IgnoresScript NestedMore :=
  ⟨fun _ _ => Nat.le_refl _, fun _ _ => Nat.le_succ _⟩

theorem keeps_nestedMore (n : Nat) (s : Step) : Keeps NestedMore (step n s) := by
  apply keeps_step ignoresScript_nestedMore
  · exact fun _ => maintains_of_loose fun w v h => nestedMore_of_own h.own
  · intro edit commit
    exact (beside_onShell (Edit.outward_carryOut edit commit)).mono fun w v h =>
      nestedMore_of_own h.own

theorem keeps_nestedMore_nestedStep (n : Nat) (s : Step) : Keeps NestedMore (nestedStep n s) := by
  cases n with
  | zero => exact keeps_fail _
  | succ n => exact keeps_nestedMore n s

theorem nested_le_of_none (h : (report n s w).1.nested = []) :
    (step n s w).2.own.nested.length ≤ w.own.nested.length := by
  have none : added w.own.nested (step n s w).2.own.nested = [] := h
  rw [added, List.reverse_eq_nil_iff, List.take_eq_nil_iff] at none
  rcases none with less | empty
  · omega
  · simp [empty]

/-- Git has been asked, and the cache is the same. -/
structure Quiet (w v : Session) : Prop where
  cache : v.cache = w.cache
  journal : ∃ es, v.shell.journal = es ++ w.shell.journal ∧ ∀ e ∈ es, e.isQuery = true

/-- A computation in which no step is nested does no more than ask git. -/
theorem compute_quiet (n : Nat) (key : Key) (w : Session)
    (h : (compute (nestedStep n) key w).2.own.nested.length ≤ w.own.nested.length) :
    Quiet w (compute (nestedStep n) key w).2 := by
  cases hp : w.own.prepared with
  | none =>
    rw [compute_of_git _ hp]
    have asked := asks_compute key w
    exact ⟨asked.cache, asked.journal⟩
  | some table =>
    cases ht : takePrepared key table with
    | none =>
      rw [compute_of_unprepared _ hp ht]
      exact ⟨rfl, [], rfl, by simp⟩
    | some taken =>
      rw [compute_of_prepared _ hp ht] at h ⊢
      cases hd : taken.1.during with
      | nil =>
        rw [runNested_nil]
        exact ⟨rfl, [], rfl, by simp⟩
      | cons s rest =>
        -- the outcome of the first nested step would be there
        rw [hd, runNested_cons] at h
        dsimp only at h
        have first : w.own.nested.length ≤ _ :=
          keeps_nestedMore_nestedStep n s (prepare taken.2 w)
        have others : NestedMore (afterNested (nestedStep n) s (prepare taken.2 w)) _ :=
          runNested_rel (nestedStep n) ignoresScript_nestedMore (l := rest)
            fun _ r _ _ => keeps_nestedMore_nestedStep n r _
        have : _ + 1 ≤ _ := others
        omega

end HistoryGuard.Session
