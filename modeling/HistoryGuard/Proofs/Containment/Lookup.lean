import HistoryGuard.Containment.Lookup

/-! # Lookups, equation by equation

Each operation on the cache as a function of the workspace and of how the computation ends,
if one takes place.
-/

namespace HistoryGuard.Containment

open Workspace

variable {ι : Type}

def begun (key : Key) (w : Workspace ι) : Workspace ι := (numbered key w).2

def ended (serial : Nat) (key : Key) (p : Except Failure Branches × Workspace ι) : Workspace ι :=
  { p.2 with shell := p.2.shell.log (.computed serial key p.1) }

@[simp] theorem begun_serial (key : Key) (w : Workspace ι) :
    (begun key w).serial = w.serial + 1 := rfl

@[simp] theorem begun_journal (key : Key) (w : Workspace ι) :
    (begun key w).shell.journal = .computing w.serial key :: w.shell.journal := rfl

@[simp] theorem ended_journal (n : Nat) (key : Key) (p : Except Failure Branches × Workspace ι) :
    (ended n key p).shell.journal = .computed n key p.1 :: p.2.shell.journal := rfl

variable (f : Compute ι) {key : Key} {w : Workspace ι}

theorem traced_eq (key : Key) (w : Workspace ι) :
    traced f key w = ((f key (begun key w)).1, ended w.serial key (f key (begun key w))) := rfl

theorem getNow_of_hit {b : Branches} (h : w.cache.get? key = some b) :
    getNow f key w = (.ok b, w) := by
  rw [getNow, Run.bind_apply]
  simp only [Run.read, h]
  rfl

theorem getNow_of_miss (h : w.cache.get? key = none) :
    getNow f key w = (match f key (begun key w) with
      | (.ok b, v) =>
        let u := ended w.serial key (.ok b, v)
        (.ok b, { u with cache := u.cache.store key (w.cache.stamp key.root) b })
      | (.error e, v) => (.error e, ended w.serial key (.error e, v))) := by
  rw [getNow, Run.bind_apply]
  simp only [Run.read, h]
  rw [Run.bind_apply, traced_eq]
  rcases f key (begun key w) with ⟨r | b, v⟩ <;> rfl

theorem onCache_apply {α : Type} (f : Cache → α × Cache) (w : Workspace ι) :
    onCache f w = (.ok (f w.cache).1, { w with cache := (f w.cache).2 }) := rfl

theorem runNext_of_idle (h : w.cache.queue = []) : runNext f w = (.ok none, w) := by
  have hb : w.cache.begin? = none := by rw [Cache.begin?, h]
  rw [runNext, Run.bind_apply, onCache_apply]
  simp only [hb]
  rfl

/-- The workspace in which the oldest task is carried out. -/
def started (task : Task) (rest : List Task) (w : Workspace ι) : Workspace ι :=
  { w with cache := { w.cache with queue := rest, running := task :: w.cache.running } }

theorem runNext_of_task {task : Task} {rest : List Task} (h : w.cache.queue = task :: rest) :
    runNext f w = (match f task.key (begun task.key (started task rest w)) with
      | (.ok b, v) =>
        let u := ended w.serial task.key (.ok b, v)
        (.ok (some b), { u with cache := u.cache.finish task b })
      | (.error e, v) =>
        let u := ended w.serial task.key (.error e, v)
        (.error e, { u with cache := u.cache.settle task })) := by
  have hb : w.cache.begin? = some (task, (started task rest w).cache) := by
    rw [Cache.begin?, h]; rfl
  rw [runNext, Run.bind_apply, onCache_apply]
  simp only [hb]
  show (carryOut f task >>= _) (started task rest w) = _
  rw [carryOut, Run.bind_apply, Run.bind_apply]
  show (match Run.attempt (traced f task.key) (started task rest w) with | _ => _) = _
  rw [Run.attempt, traced_eq]
  rcases f task.key (begun task.key (started task rest w)) with ⟨e | b, v⟩ <;> rfl

theorem request_of_knows (h : w.cache.knows key = true) : request key w = (.ok false, w) := by
  rw [request, Run.bind_apply, onCache_apply, Cache.request_of_knows h]
  rfl

theorem request_of_open (h : w.cache.knows key = false) (ho : w.cache.closed = false) :
    request key w = (.ok true, { w with cache := (w.cache.request key).2 }) := by
  have hr : (w.cache.request key).1 = .scheduled := by simp [Cache.request, h, ho]
  rw [request, Run.bind_apply, onCache_apply, hr]
  rfl

theorem request_of_closed (h : w.cache.knows key = false) (hc : w.cache.closed = true) :
    request key w = (.error .shutDown, { w with cache := (w.cache.request key).2 }) := by
  have hr : (w.cache.request key).1 = .refused := by simp [Cache.request, h, hc]
  rw [request, Run.bind_apply, onCache_apply, hr]
  rfl

theorem request_snd (key : Key) (w : Workspace ι) :
    (request key w).2 = { w with cache := (w.cache.request key).2 } := by
  cases h : w.cache.knows key with
  | true => rw [request_of_knows h, Cache.request_of_knows h]
  | false =>
    cases hc : w.cache.closed with
    | true => rw [request_of_closed h hc]
    | false => rw [request_of_open h hc]

theorem request_fst_congr {key : Key} {w v : Workspace ι}
    (h : (w.cache.request key).1 = (v.cache.request key).1) :
    (request key w).1 = (request key v).1 := by
  rw [request, Run.bind_apply, Run.bind_apply, onCache_apply, onCache_apply]
  dsimp only
  rw [h]
  cases (v.cache.request key).1 <;> rfl

theorem invalidate_eq (root : Option String) (w : Workspace ι) :
    invalidate root w = (.ok (), { w with
      shell := w.shell.log (.invalidated root)
      cache := w.cache.invalidate root }) := rfl

theorem shutdown_eq (w : Workspace ι) :
    shutdown w = (.ok (), { w with cache := w.cache.close }) := rfl

end HistoryGuard.Containment
