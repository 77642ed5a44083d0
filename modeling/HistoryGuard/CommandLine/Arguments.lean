import HistoryGuard.CommandLine.Item

/-! # Reading the command line

Options with their values come first, then a subcommand with what belongs to it. The subcommand
reads its items anew, and it knows no option but help. Items that nobody wants are left over
and are complained of at the end.
-/

namespace HistoryGuard.CommandLine

inductive Request
  /-- Open the window, and select a commit if one is given. -/
  | window (commit : Option String)
  | check (commit : String)
  deriving DecidableEq, Repr

inductive Location
  /-- In the directory of the process. -/
  | current
  | path (path : String)
  /-- In a directory whose option has no text. -/
  | withoutText
  deriving DecidableEq, Repr

structure Arguments where
  location : Location := .current
  /-- The patterns in order, with none for an option without text. -/
  patterns : List (Option String) := []
  logLevel : Option String := none
  request : Request := .window none
  deriving DecidableEq, Repr

inductive Halt
  | help (page : Page)
  | misuse (page : Page) (cause : Misuse)
  deriving DecidableEq, Repr

namespace Item

def isWord (item : Item) : Bool := item.kind = .word

/-- What is wrong with the characters glued to a short help option, if anything is. Each of them
is an option by itself, up to the first one that takes a value: that one takes the rest. -/
def gluedFault (ps : List Parameter) (following : List Item) : List Char → Option Misuse
  | [] => none
  | c :: cs =>
    match (Parameter.table ps).lookup (String.ofList ['-', c]), cs with
    | none, _ => some (.valueIgnored (String.ofList (c :: cs)))
    | some .help, _ => gluedFault ps following cs
    | some p, [] => if following.head?.any isWord then none else some (.valueMissing p)
    | some _, _ :: _ => none

/-- Help ends the program, unless its option is written wrongly. -/
def haltForHelp (page : Page) (ps : List Parameter) (attached : Attached)
    (following : List Item) : Halt :=
  match attached with
  | .none => .help page
  | .assigned value => .misuse page (.valueIgnored value)
  | .glued [] => .misuse page (.valueIgnored "")
  | .glued value =>
    match gluedFault ps following value with
    | some fault => .misuse page fault
    | none => .help page

end Item

/-- What a subcommand has read: its commit, and the items left over. -/
structure Tail where
  commit : Option String := none
  extras : List String := []

namespace Tail

def leave (t : Tail) (item : Item) : Tail := { t with extras := item.text :: t.extras }

def readExtras (page : Page) : List Item → Except Halt (List String)
  | [] => .ok []
  | item :: rest =>
    match item.kind with
    | .option _ attached => .error (Item.haltForHelp page Parameter.sub attached rest)
    | _ => return item.text :: (← readExtras page rest)

def dropDashes : List Item → List Item
  | [] => []
  | item :: rest => if item.kind = .dashes then rest else item :: rest

/-- Reads the items after a subcommand. The first word is the commit, and a double dash next to
it belongs to it. A lone double dash belongs to a commit that may be missing. -/
def read (page : Page) : List Item → Except Halt Tail
  | [] => .ok {}
  | item :: rest =>
    match item.kind, rest with
    | .option _ attached, _ => .error (Item.haltForHelp page Parameter.sub attached rest)
    | .unknown, _ => return (← read page rest).leave item
    | .word, _ => return ⟨some item.text, ← readExtras page (dropDashes rest)⟩
    | .dashes, [] => .ok { extras := if page = .gui then [] else [item.text] }
    | .dashes, next :: more => return ⟨some next.text, ← readExtras page more⟩

def ofArguments (page : Page) (args : List String) : Except Halt Tail := do
  let items ← (Item.readAll Parameter.sub args).mapError (.misuse page)
  read page items

end Tail

def readRequest (word : String) (args : List String) : Except Halt (Request × List String) :=
  if word = "gui" then do
    let t ← Tail.ofArguments .gui args
    return (.window t.commit, t.extras)
  else if word = "check" then do
    let t ← Tail.ofArguments .check args
    match t.commit with
    | some commit => return (.check commit, t.extras)
    | none => .error (.misuse .check .commitMissing)
  else .error (.misuse .main (.unknownCommand word))

namespace Arguments

/-- The text of an option's value. A double dash leaves the option without text. -/
def textOf (value : String) : Option String := if value = "--" then none else some value

/-- Notes the text of an option. The patterns add up, and of the others the last one counts. -/
def note (a : Arguments) (p : Parameter) (text : Option String) : Arguments :=
  match p, text with
  | .help, _ => a
  | .location, some path => { a with location := .path path }
  | .location, none => { a with location := .withoutText }
  | .pattern, _ => { a with patterns := a.patterns ++ [text] }
  | .logLevel, _ => { a with logLevel := text }

def read (a : Arguments) (extras : List String) :
    List Item → Except Halt (Arguments × List String)
  | [] => .ok (a, extras)
  | item :: rest =>
    match item.kind with
    | .word => do
      let (request, more) ← readRequest item.text (rest.map (·.text))
      return ({ a with request }, extras ++ more)
    | .dashes =>
      if rest = [] then .ok (a, extras ++ [item.text])
      else .error (.misuse .main (.unknownCommand item.text))
    | .unknown => read a (extras ++ [item.text]) rest
    | .option .help attached => .error (Item.haltForHelp .main Parameter.main attached rest)
    | .option p (.assigned value) => read (a.note p (textOf value)) extras rest
    | .option p (.glued value) => read (a.note p (textOf (String.ofList value))) extras rest
    | .option p .none =>
      match rest with
      | [] => .error (.misuse .main (.valueMissing p))
      | next :: rest' =>
        if next.isWord then read (a.note p (textOf next.text)) extras rest'
        else .error (.misuse .main (.valueMissing p))

def parse (args : List String) : Except Halt Arguments := do
  let items ← (Item.readAll Parameter.main args).mapError (.misuse .main)
  let (a, extras) ← read {} [] items
  if extras = [] then return a
  else .error (.misuse .main (.unrecognized extras))

example : (parse ["-Cdir", "--prot=a", "--protected", "-1", "check", "--", "-x"]).toOption =
    some { location := .path "dir", patterns := [some "a", some "-1"],
           request := .check "-x" } := by
  decide +kernel

example : (parse ["--log=info", "--prot=--", "gui"]).toOption =
    some { patterns := [none], logLevel := some "info" } := by
  decide +kernel

end Arguments

end HistoryGuard.CommandLine
