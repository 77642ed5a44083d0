import HistoryGuard.CommandLine.Program

/-! # The command

The command starts no process. It writes each call of git to standard error, as one line with
the directory, the words and the plan in quotes, and reads the reply from standard input: a
line with the status and the lengths of both outputs, followed by the bytes of both. A run is a
function of the replies, so it is made anew with each further reply until no call is open.
-/

namespace HistoryGuard.Command

open CommandLine

def describe (call : Call) : String :=
  " ".intercalate (([call.dir] ++ call.words ++ (call.plan.map Plan.render).toList ++
    (call.plan.bind Plan.message?).toList).map Text.quoted)

partial def readBytes (input : IO.FS.Stream) (count : Nat) (read : ByteArray) : IO ByteArray := do
  if count ≤ read.size then return read
  let bytes ← input.read (count - read.size).toUSize
  if bytes.isEmpty then return read
  readBytes input count (read ++ bytes)

/-- Without a line that can be read, git is not there. -/
def readReply (input : IO.FS.Stream) : IO Reply := do
  match (Text.fields (← input.getLine)).map Text.int? with
  | [some status, some out, some err] =>
    let out ← readBytes input out.toNat ByteArray.empty
    let err ← readBytes input err.toNat ByteArray.empty
    return .ended status out err
  | _ => return .notStarted ⟨.notFound, "git"⟩

def namedVariables : List String :=
  ["HOME", "LOG_LEVEL", Protection.patternsVariable, Protection.enabledVariable]

def readEnvironment : IO Environment :=
  namedVariables.filterMapM fun name => do return (← IO.getEnv name).map (name, ·)

def finish (r : CommandLine.Report) : IO UInt32 := do
  if let some w := r.window then
    IO.println w.title
    for row in w.rows do IO.println row.rowText
  match r.outcome with
  | .ok ending =>
    IO.print ending.out
    IO.eprint ending.err
    return ending.status.toUInt32
  | .error e =>
    IO.eprintln e.message
    return 1

partial def converse (s : Surroundings) (args : List String) (replies : List Reply) :
    IO UInt32 := do
  let r := run { s with git := Git.ofReplies replies } args
  match r.openCall? replies.length with
  | none => finish r
  | some call =>
    if call.passable then
      IO.eprintln (describe call)
      converse s args (replies ++ [← readReply (← IO.getStdin)])
    else
      converse s args (replies ++ [.refused])

end HistoryGuard.Command

def main (args : List String) : IO UInt32 := do
  let environment ← HistoryGuard.Command.readEnvironment
  let workDir := (← IO.getEnv "PWD").getD "/"
  let git := HistoryGuard.Git.ofReplies []
  HistoryGuard.Command.converse { environment, workDir, git } args []
