import HistoryGuard.Text.Quoted

/-! # Parameters of the command line

The options with their spellings, the pages of help, and the ways in which a command line may
be wrong.
-/

namespace HistoryGuard.CommandLine

inductive Parameter
  | help
  | location
  | pattern
  | logLevel
  deriving DecidableEq, Repr

namespace Parameter

def spellings : Parameter → List String
  | help => ["-h", "--help"]
  | location => ["-C", "--location"]
  | pattern => ["--protected"]
  | logLevel => ["--log-level"]

/-- The name under which a complaint speaks of the parameter. -/
def title (p : Parameter) : String := "/".intercalate p.spellings

/-- The parameters before a subcommand. -/
def main : List Parameter := [help, location, pattern, logLevel]

/-- The parameters after a subcommand. -/
def sub : List Parameter := [help]

def table (ps : List Parameter) : List (String × Parameter) :=
  ps.flatMap fun p => p.spellings.map (·, p)

end Parameter

/-- The part of the command line that help or a complaint is about. -/
inductive Page
  | main
  | gui
  | check
  deriving DecidableEq, Repr

namespace Page

def program : Page → String
  | main => "git-commit-edit"
  | gui => "git-commit-edit gui"
  | check => "git-commit-edit check"

def usage : Page → String
  | main =>
    "usage: git-commit-edit [-h] [-C LOCATION] [--protected PATTERN]\n" ++
    "                       [--log-level LOG_LEVEL]\n" ++
    "                       \x7bgui,check\x7d ...\n"
  | gui => "usage: git-commit-edit gui [-h] [commit_sha]\n"
  | check => "usage: git-commit-edit check [-h] commit_sha\n"

def details : Page → String
  | main =>
    "Edit git commits that are safe to rewrite.\n" ++
    "\n" ++
    "positional arguments:\n" ++
    "  \x7bgui,check\x7d\n" ++
    "    gui                 Open the commit list (default)\n" ++
    "    check               Check whether a commit may be edited\n" ++
    "\n" ++
    "options:\n" ++
    "  -h, --help            show this help message and exit\n" ++
    "  -C LOCATION, --location LOCATION\n" ++
    "  --protected PATTERN   Protected branch pattern (repeatable); overrides saved\n" ++
    "                        settings\n" ++
    "  --log-level LOG_LEVEL\n"
  | _ =>
    "positional arguments:\n" ++
    "  commit_sha\n" ++
    "\n" ++
    "options:\n" ++
    "  -h, --help  show this help message and exit\n"

def help (page : Page) : String := page.usage ++ "\n" ++ page.details

end Page

inductive Misuse
  /-- An abbreviation stands for several spellings. -/
  | ambiguous (argument : String) (spellings : List String)
  | valueMissing (p : Parameter)
  /-- Help was given a value. -/
  | valueIgnored (value : String)
  | unknownCommand (word : String)
  | commitMissing
  | unrecognized (arguments : List String)
  deriving DecidableEq, Repr

def Misuse.message : Misuse → String
  | ambiguous argument spellings =>
    "ambiguous option: " ++ argument ++ " could match " ++ ", ".intercalate spellings
  | valueMissing p => "argument " ++ p.title ++ ": expected one argument"
  | valueIgnored value =>
    "argument " ++ Parameter.help.title ++ ": ignored explicit argument " ++ Text.quoted value
  | unknownCommand word =>
    "argument command: invalid choice: " ++ Text.quoted word ++ " (choose from 'gui', 'check')"
  | commitMissing => "the following arguments are required: commit_sha"
  | unrecognized arguments => "unrecognized arguments: " ++ " ".intercalate arguments

end HistoryGuard.CommandLine
