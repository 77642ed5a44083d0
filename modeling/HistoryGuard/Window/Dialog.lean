import HistoryGuard.Edit

/-! # Dialogs

The dialogs in which an edit asks the user. The editor of a dialog holds a text, and what the
user hands over is that text without its blank ends.
-/

namespace HistoryGuard

structure Dialog where
  title : String
  header : String
  text : String
  fontSize : Int
  /-- The label of the button that accepts the text. -/
  accept : String
  deriving DecidableEq, Repr

namespace Dialog

def buttons (d : Dialog) : List String := [d.accept, "Cancel"]

def textOf : Prompt → String
  | .message current => current
  | .plan lines => "\n".intercalate lines

def ask (fontSize : Int) (commit : Commit) (prompt : Prompt) : Dialog :=
  match prompt with
  | .message _ =>
    { title := "Edit Commit Message: " ++ commit.short
      header := "Edit commit message for: <b>" ++ commit.short ++ "</b>"
      text := textOf prompt
      fontSize
      accept := "Apply" }
  | .plan _ =>
    { title := "Interactive Rebase from " ++ commit.short
      header := "Edit the rebase plan, oldest commit first. Removing a line drops the commit."
      text := textOf prompt
      fontSize
      accept := "Start Rebasing" }

/-- How the user leaves a dialog: with which button, and with which text if it was changed. -/
structure Response where
  accepted : Bool := true
  text : Option String := none
  deriving DecidableEq, Repr

namespace Response

def edited (r : Response) (prompt : Prompt) : Option String :=
  if r.accepted then some (Text.strip (r.text.getD (textOf prompt))) else none

def message (r : Response) (current : String) : Option String := r.edited (.message current)

def plan (r : Response) (lines : List String) : Option (List String) :=
  (r.edited (.plan lines)).map Text.lines

/-- The edit in which the user answers so. -/
def edit (r : Response) : Action → Edit
  | .reword => .reword fun current => .ok (r.message current)
  | .rebase => .rebase fun lines => .ok (r.plan lines)

end Response

end Dialog

end HistoryGuard
