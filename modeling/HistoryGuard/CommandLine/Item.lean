import HistoryGuard.CommandLine.Parameter
import HistoryGuard.Text.Number

/-! # Items of the command line

Each argument is a word, an option with or without a value attached to it, an unknown option,
or the double dash, after which all arguments are words. A long option may be abbreviated as
long as one spelling fits. A negative number is a word, and so is an unknown option with a
space in it.
-/

namespace HistoryGuard.CommandLine

inductive Attached
  | none
  /-- It follows a long option and an equals sign. -/
  | assigned (value : String)
  /-- It follows a short option, directly or after an equals sign. -/
  | glued (value : List Char)
  deriving DecidableEq, Repr

inductive ItemKind
  | word
  | dashes
  | option (p : Parameter) (attached : Attached)
  | unknown
  deriving DecidableEq, Repr

structure Item where
  text : String
  kind : ItemKind
  deriving DecidableEq, Repr

namespace Item

/-- A minus sign and a number in digits, possibly with a point in it, and possibly a line feed
after it. -/
def isNegativeNumber : List Char → Bool
  | '-' :: cs =>
    let cs := if cs.getLast? = some '\n' then cs.dropLast else cs
    match cs.dropWhile Text.isDigit with
    | [] => !cs.isEmpty
    | '.' :: part => !part.isEmpty && part.all Text.isDigit
    | _ => false
  | _ => false

def cutAtEquals (s : List Char) : List Char × Option (List Char) :=
  (s.takeWhile (· != '='), (s.dropWhile (· != '=')).tail?)

def attachedTo : Option (List Char) → Attached
  | .none => .none
  | .some value => .assigned (String.ofList value)

/-- The options that an argument may stand for which is no full spelling: a long one that it
abbreviates, or the short one that it starts with. -/
def candidates (ps : List Parameter) (s : List Char) : List (String × ItemKind) :=
  match s with
  | '-' :: '-' :: _ =>
    let (start, value) := cutAtEquals s
    ((Parameter.table ps).filter fun e => start.isPrefixOf e.1.toList).map fun e =>
      (e.1, .option e.2 (attachedTo value))
  | '-' :: c :: value =>
    ((Parameter.table ps).filter fun e => e.1.toList = ['-', c]).map fun e =>
      (e.1, .option e.2 (.glued value))
  | _ => []

/-- What an argument that starts with a dash stands for, if it is no full spelling. -/
def classifyShortened (ps : List Parameter) (arg : String) : Except Misuse ItemKind :=
  match candidates ps arg.toList with
  | [e] => .ok e.2
  | [] =>
    if isNegativeNumber arg.toList || arg.toList.contains ' ' then .ok .word else .ok .unknown
  | several => .error (.ambiguous arg (several.map (·.1)))

def attachedAfter (name value : List Char) : Attached :=
  match name with
  | '-' :: '-' :: _ => .assigned (String.ofList value)
  | _ => .glued value

/-- A full spelling, alone or with a value after an equals sign. -/
def fullSpelling? (ps : List Parameter) (arg : String) : Option ItemKind :=
  match (Parameter.table ps).lookup arg, cutAtEquals arg.toList with
  | some p, _ => some (.option p .none)
  | none, (name, some value) =>
    ((Parameter.table ps).lookup (String.ofList name)).map fun p =>
      .option p (attachedAfter name value)
  | none, (_, none) => none

def classify (ps : List Parameter) (arg : String) : Except Misuse ItemKind :=
  match arg.toList with
  | '-' :: _ :: _ =>
    match fullSpelling? ps arg with
    | some kind => .ok kind
    | none => classifyShortened ps arg
  | _ => .ok .word

def readAll (ps : List Parameter) : List String → Except Misuse (List Item)
  | [] => .ok []
  | arg :: rest =>
    if arg = "--" then .ok (⟨arg, .dashes⟩ :: rest.map (⟨·, .word⟩))
    else do
      let kind ← classify ps arg
      return ⟨arg, kind⟩ :: (← readAll ps rest)

end Item

end HistoryGuard.CommandLine
