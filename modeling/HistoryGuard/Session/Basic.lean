import HistoryGuard.Session.Step

/-! # Sessions

A session carries out steps one after the other. Containing branches are computed by git, or
are prepared: then each computation of a key takes the next prepared result, the last of which
stays. A prepared result may come with steps of its own, which are carried out before the
computation ends. So steps nest, down to a limit.
-/

namespace HistoryGuard

/-- A prepared result, and the steps that are carried out while it is computed. -/
structure Prepared where
  result : Except Failure Branches
  during : List Step := []

/-- What a session keeps for its computations. -/
structure Script where
  /-- The prepared results of each key. Without any, git is asked. -/
  prepared : Option (Table Key (List Prepared)) := none
  /-- How the nested steps have ended, the latest first. -/
  nested : List (Except Failure Answer) := []

abbrev Session := Workspace Script

/-- What a step did: how it ended, what was noted meanwhile, and how the steps nested in it
ended. -/
structure StepReport where
  outcome : Except Failure Answer
  events : List Event
  nested : List (Except Failure Answer)

namespace Session

def takePrepared (key : Key) (table : Table Key (List Prepared)) :
    Option (Prepared × Table Key (List Prepared)) :=
  match table key with
  | none => none
  | some [] => none
  | some [p] => some (p, table)
  | some (p :: rest) => some (p, table.put key rest)

/-- Carries out nested steps. A nested step that fails does not stop the next one. -/
def runNested (step : Step → Run Session Answer) : List Step → Run Session Unit
  | [] => pure ()
  | s :: rest => do
    let outcome ← Run.attempt (step s)
    Run.modify fun w => { w with own := { w.own with nested := outcome :: w.own.nested } }
    runNested step rest

/-- Computes containing branches, carrying out nested steps by `step`. -/
def compute (step : Step → Run Session Answer) : Compute Script := fun key => do
  match ← Run.read (·.own.prepared) with
  | none => Workspace.compute key
  | some table =>
    match takePrepared key table with
    | none => .fail .noAnswer
    | some (p, table) =>
      Run.modify fun w => { w with own := { w.own with prepared := some table } }
      runNested step p.during
      .ofExcept p.result

/-- Carries out a step in which steps nest at most `limit` deep. -/
def step : Nat → Step → Run Session Answer
  | 0, s => s.run (compute fun _ => .fail .nestedTooDeep)
  | limit + 1, s => s.run (compute (step limit))

def report (limit : Nat) (s : Step) (w : Session) : StepReport × Session :=
  let (outcome, w') := step limit s w
  ({ outcome
     events := added w.shell.journal w'.shell.journal
     nested := added w.own.nested w'.own.nested }, w')

def run (limit : Nat) : List Step → Session → List StepReport × Session
  | [], w => ([], w)
  | s :: rest, w =>
    let (r, w) := report limit s w
    let (rs, w) := run limit rest w
    (r :: rs, w)

end Session

end HistoryGuard
