import HistoryGuard.Failure

/-! # Git as seen from outside

A call names the words after `git` and the directory it runs in. An interactive rebase also
gets a plan. How git behaves, and the system that starts it, is a function of the calls before
and the call, so the same call may be answered differently later.
-/

namespace HistoryGuard

/-- A line of a rebase plan: a line of text, or the line that gives the commit before it a new
message. -/
inductive PlanLine
  | text (line : String)
  | amend (message : String)
  deriving DecidableEq, Repr

namespace PlanLine

/-- Stands for the path of the file that holds the new message. -/
def messageFile : String := "<MESSAGE_FILE>"

def render : PlanLine → String
  | text line => line
  | amend _ => "exec git commit --amend --allow-empty -F \"" ++ messageFile ++ "\""

def message? : PlanLine → Option String
  | text _ => none
  | amend message => some message

end PlanLine

abbrev Plan := List PlanLine

namespace Plan

def render (plan : Plan) : String := String.join (plan.map fun line => line.render ++ "\n")

/-- What the message file holds while git carries the plan out. -/
def message? (plan : Plan) : Option String := plan.findSome? PlanLine.message?

end Plan

structure Call where
  args : List String
  dir : String
  plan : Option Plan := none
  deriving DecidableEq, Repr

namespace Call

def words (c : Call) : List String := "git" :: c.args

/-- The editor that git opens for messages. During a rebase it leaves every message as it is. -/
def editor? (c : Call) : Option String := c.plan.map fun _ => "true"

/-- The system ends texts at the character zero, so that no call that holds one can be handed to
it. -/
def passable (c : Call) : Bool := (c.dir :: c.words).all fun word => !word.toList.contains '\x00'

end Call

inductive Reply
  /-- The call was not handed to the system. -/
  | refused
  | notStarted (cause : StartFailure)
  | ended (status : Int) (out err : ByteArray)

def Reply.started : Reply → Bool
  | .refused => false
  | .notStarted _ => false
  | .ended .. => true

/-- The reply to a call, given the calls answered before, the latest first. -/
abbrev Git := List Call → Call → Reply

/-- A prepared reply to calls with certain words, in a certain directory if one is named, and
at most a certain number of times if one is given. -/
structure Rule where
  args : List String
  dir : Option String := none
  times : Option Nat := none
  reply : Reply

namespace Rule

def fits (r : Rule) (c : Call) : Bool := r.args == c.args && r.dir.all (· == c.dir)

/-- Takes the first fitting rule that is not used up and counts its use. -/
def take (c : Call) : List Rule → Option Reply × List Rule
  | [] => (none, [])
  | r :: rs =>
    match r.fits c, r.times with
    | true, none => (some r.reply, r :: rs)
    | true, some (n + 1) => (some r.reply, { r with times := some n } :: rs)
    | _, _ => let (reply, rs) := take c rs; (reply, r :: rs)

end Rule

namespace Git

/-- The reply where no rule fits. -/
def unscripted : Reply := .ended 128 ByteArray.empty "fatal: unscripted\n".toUTF8

def ofRules (rules : List Rule) : Git := fun past call =>
  let left := past.foldr (fun c rules => (Rule.take c rules).2) rules
  (Rule.take call left).1.getD unscripted

/-- Git that gives these replies in order and cannot be started any more after them. -/
def ofReplies (replies : List Reply) : Git := fun past _ =>
  replies.getD past.length (.notStarted ⟨.notFound, "git"⟩)

end Git

end HistoryGuard
