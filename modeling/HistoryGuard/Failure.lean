import HistoryGuard.Text.Blank
import HistoryGuard.Text.Quoted

/-! # Failures

The ways in which an operation ends without a value. A denied edit is none of them: it is an
answer of the gate.
-/

namespace HistoryGuard

def shortSha (sha : String) : String := String.ofList (sha.toList.take 8)

inductive StartFault
  | notFound
  | permissionDenied
  | notADirectory
  deriving DecidableEq, Repr

structure StartFailure where
  fault : StartFault
  name : String
  deriving DecidableEq, Repr

namespace StartFault

def number : StartFault → Nat
  | notFound => 2
  | permissionDenied => 13
  | notADirectory => 20

def text : StartFault → String
  | notFound => "No such file or directory"
  | permissionDenied => "Permission denied"
  | notADirectory => "Not a directory"

end StartFault

def StartFailure.message (f : StartFailure) : String :=
  "[Errno " ++ toString f.fault.number ++ "] " ++ f.fault.text ++ ": " ++ Text.quoted f.name

inductive ScalarKind
  | bool
  | int
  | float
  deriving DecidableEq, Repr

def ScalarKind.name : ScalarKind → String
  | bool => "bool"
  | int => "int"
  | float => "float"

inductive Failure
  /-- A git command could not be started or ended with a bad status. -/
  | commandFailed (words : List String) (stderr : String) (status : Option Int)
  /-- The commits to be replayed include merges. -/
  | mergesInRange (shas : List String)
  | history (text : String)
  /-- A selection that should hold one commit holds another number. -/
  | notSingle (count : Nat)
  | unknownRoot (root : String)
  /-- Work was requested after the shutdown. -/
  | shutDown
  /-- A computation of containing branches has no answer in store. -/
  | noAnswer
  /-- Steps are nested deeper than the limit of the run. -/
  | nestedTooDeep
  | runtime (text : String)
  | notStarted (cause : StartFailure)
  /-- A call holds a character that cannot be handed to the system. -/
  | refused
  /-- A process printed bytes that are not UTF-8. -/
  | undecodable
  | notAList (kind : ScalarKind)
  /-- A pattern to be matched has no text. -/
  | patternWithoutText
  /-- The option for the directory has no text. -/
  | locationWithoutText
  | notANumber (text : String)
  /-- A number is too long to be read. -/
  | tooManyDigits (count : Nat)
  /-- A list stands where a number should. -/
  | listForNumber
  /-- The name of a format stands where that of a log level should. -/
  | formatForLevel
  /-- The name of a table of styles stands where that of a log level should. -/
  | stylesForLevel
  deriving DecidableEq, Repr

namespace Failure

/-- The failure of a git command, with the blank ends of its error output removed. -/
def ofCommand (words : List String) (stderr : String) (status : Option Int) : Failure :=
  commandFailed words (Text.strip stderr) status

/-- A text that is no number is shown up to this length, with its quotation marks. -/
def excerptLength : Nat := 200

/-- Longer numbers are not read. -/
def digitLimit : Nat := 4300

def message : Failure → String
  | commandFailed words stderr _ =>
    "git command failed: " ++ " ".intercalate words ++ if stderr = "" then "" else "\n" ++ stderr
  | mergesInRange shas =>
    "Cannot rewrite history containing merge commits: " ++
      ", ".intercalate (shas.map shortSha)
  | history text => text
  | notSingle count => "Expected exactly one selected commit, got " ++ toString count
  | unknownRoot root => "No repository for root " ++ root
  | shutDown => "cannot schedule new futures after shutdown"
  | noAnswer => "no answer"
  | nestedTooDeep => "maximum recursion depth exceeded"
  | runtime text => text
  | notStarted cause => cause.message
  | refused => "embedded null byte"
  | undecodable => ""
  | notAList kind => "'" ++ kind.name ++ "' object is not iterable"
  | patternWithoutText => "unhashable type: 'list'"
  | locationWithoutText => "expected str, bytes or os.PathLike object, not list"
  | notANumber text =>
    "invalid literal for int() with base 10: " ++
      String.ofList ((Text.quoted text).toList.take excerptLength)
  | tooManyDigits count =>
    "Exceeds the limit (" ++ toString digitLimit ++
      " digits) for integer string conversion: value has " ++ toString count ++
      " digits; use sys.set_int_max_str_digits() to increase the limit"
  | listForNumber =>
    "int() argument must be a string, a bytes-like object or a real number, not 'list'"
  | formatForLevel => "Unknown level: '%(levelname)s:%(name)s:%(message)s'"
  | stylesForLevel =>
    "Level not an integer or a valid string: \x7b" ++
      "'%': (<class 'logging.PercentStyle'>, '%(levelname)s:%(name)s:%(message)s'), " ++
      "'\x7b': (<class 'logging.StrFormatStyle'>, " ++
      "'\x7blevelname\x7d:\x7bname\x7d:\x7bmessage\x7d'), " ++
      "'$': (<class 'logging.StringTemplateStyle'>, " ++
      "'$\x7blevelname\x7d:$\x7bname\x7d:$\x7bmessage\x7d')\x7d"

def isCommand : Failure → Bool
  | commandFailed .. => true
  | _ => false

def isHistory : Failure → Bool
  | mergesInRange _ => true
  | history _ => true
  | _ => false

/-- The failures that the program raises itself, as opposed to those of the system. -/
def isOwn : Failure → Bool
  | commandFailed .. => true
  | mergesInRange _ => true
  | history _ => true
  | notSingle _ => true
  | unknownRoot _ => true
  | _ => false

end Failure

end HistoryGuard
