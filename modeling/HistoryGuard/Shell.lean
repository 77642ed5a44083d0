import HistoryGuard.Branches
import HistoryGuard.Commit
import HistoryGuard.Git.Call
import HistoryGuard.Run
import HistoryGuard.Text.Lines

/-! # The shell

The part of a run that meets the outside: git, the calls it has answered, and a journal of
what could be seen from outside, the latest event first.
-/

namespace HistoryGuard

inductive NoticeKind
  | critical
  | information
  deriving DecidableEq, Repr

structure Notice where
  kind : NoticeKind
  title : String
  text : String
  deriving DecidableEq, Repr

inductive Prompt
  | message (current : String)
  | plan (lines : List String)
  deriving DecidableEq, Repr

inductive Event
  /-- Git was called. The flag tells whether its process was started. -/
  | called (call : Call) (started : Bool)
  /-- The computation of containing branches with this serial number began. -/
  | computing (serial : Nat) (key : Key)
  | computed (serial : Nat) (key : Key) (outcome : Except Failure Branches)
  /-- The branches of one root, or of all roots, were forgotten. -/
  | invalidated (root : Option String)
  | noticed (notice : Notice)
  | asked (commit : Commit) (prompt : Prompt)

structure Shell where
  git : Git
  past : List Call := []
  journal : List Event := []

/-- What stands in front of `old` in `new`, the last of it first. -/
def added {α : Type} (old new : List α) : List α := (new.take (new.length - old.length)).reverse

/-- A process that has ended, with what it printed as text. -/
structure Finished where
  status : Int
  out : String
  err : String
  deriving DecidableEq

namespace Shell

def log (e : Event) (s : Shell) : Shell := { s with journal := e :: s.journal }

def call (c : Call) : Run Shell Reply := .change fun s =>
  let reply := s.git s.past c
  (reply, { s with
    past := c :: s.past
    journal := .called c (reply.started) :: s.journal })

def note (e : Event) : Run Shell Unit := .modify (log e)

/-- Reads bytes as UTF-8 and writes every kind of line end as a line feed. -/
def decode (bytes : ByteArray) : Option String :=
  (String.fromUTF8? bytes).map fun s => String.ofList (Text.foldReturns s.toList)

/-- Both streams of a process are read, whatever its status. -/
def finished (reply : Reply) : Except Failure Finished :=
  match reply with
  | .refused => .error .refused
  | .notStarted cause => .error (.notStarted cause)
  | .ended status out err =>
    match decode out, decode err with
    | some out, some err => .ok ⟨status, out, err⟩
    | _, _ => .error .undecodable

def complete (c : Call) : Run Shell Finished := do
  let reply ← call c
  .ofExcept (finished reply)

/-- Tells the output of a command that has to succeed. A process that could not be started
counts as a failed command. -/
def outputOf (words : List String) (reply : Reply) : Except Failure String :=
  match reply with
  | .notStarted cause => .error (.ofCommand words cause.message none)
  | _ => do
    let f ← finished reply
    if f.status = 0 then .ok f.out else .error (.ofCommand words f.err (some f.status))

def output (dir : String) (args : List String) : Run Shell String := do
  let c : Call := { args, dir }
  let reply ← call c
  .ofExcept (outputOf c.words reply)

theorem decode_toByteArray (s : String) :
    decode s.toByteArray = some (String.ofList (Text.foldReturns s.toList)) := by
  have h : String.fromUTF8? s.toByteArray = some s := by
    rw [String.fromUTF8?, dif_pos s.isValidUTF8]; rfl
  rw [decode, h]; rfl

end Shell

end HistoryGuard
