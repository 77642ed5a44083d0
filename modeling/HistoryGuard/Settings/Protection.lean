import HistoryGuard.Failure
import HistoryGuard.Glob.Match
import HistoryGuard.Settings.Store

/-! # Protected branches

Branches are protected by patterns for their local names. The patterns come from the defaults,
the store and the environment, and a later source replaces an earlier one if it holds any
pattern. The flag that turns the protection on is layered by itself.
-/

namespace HistoryGuard

structure Protection where
  patterns : List String := ["main", "master"]
  enabled : Bool := true
  deriving DecidableEq, Repr

namespace Protection

def covers (p : Protection) (name : String) : Bool :=
  p.enabled && p.patterns.any fun pattern => Glob.matchName pattern name

/-- Removes blank ends and leaves out what is blank. -/
def keep (parts : List String) : List String := (parts.map Text.strip).filter (· != "")

/-- Patterns are written as one text with commas or as a list. Any other value but none is
refused. -/
def readPatterns : Value → Except Failure (List String)
  | .null => .ok []
  | .text s => .ok (keep (Text.commaParts s))
  | .list items => .ok (keep (items.map Value.toText))
  | .bool _ => .error (.notAList .bool)
  | .int _ => .error (.notAList .int)
  | .decimal _ => .error (.notAList .float)

/-- A flag is on if its text is `true`, `1` or `yes`, in any case and with any blank ends. -/
def readFlag : Value → Bool
  | .bool b => b
  | v => ["true", "1", "yes"].contains ((Text.strip v.toText).map Char.toLower)

def patternsName : String := "protected_branches/patterns"

def enabledName : String := "protected_branches/enabled"

def patternsVariable : String := "GIT_PROTECTED_BRANCHES_PATTERNS"

def enabledVariable : String := "GIT_PROTECTED_BRANCHES_ENABLED"

/-- The patterns of a later source, if it holds any, otherwise those of the earlier one. -/
def orEarlier (later earlier : List String) : List String :=
  if later = [] then earlier else later

def flagOf : Value → Option Bool
  | .null => none
  | v => some (readFlag v)

def textValue : Option String → Value
  | none => .null
  | some s => .text s

/-- Layers the defaults, the store and the environment. -/
def load (store : Option Store) (env : Environment) : Except Failure Protection := do
  let base : Protection := {}
  let named (name : String) : Value := (store.map (·.get name)).getD .null
  let stored ← readPatterns (named patternsName)
  let given ← readPatterns (textValue (env.get? patternsVariable))
  let flag := (flagOf (textValue (env.get? enabledVariable))).or (flagOf (named enabledName))
  return {
    patterns := orEarlier given (orEarlier stored base.patterns)
    enabled := flag.getD base.enabled }

def save (p : Protection) (store : Store) : Store :=
  (store.set patternsName (.text (",".intercalate p.patterns))).set enabledName (.bool p.enabled)

end Protection

/-- What the gate goes by: a protection, or patterns after which comes one without text, which
cannot be matched. -/
inductive Policy
  | protection (p : Protection)
  | brokenAfter (patterns : List String)
  deriving DecidableEq, Repr

namespace Policy

/-- Patterns are tried in order, and the one without text fails when its turn comes. -/
def covers (policy : Policy) (name : String) : Except Failure Bool :=
  match policy with
  | protection p => .ok (p.covers name)
  | brokenAfter patterns =>
    if patterns.any fun pattern => Glob.matchName pattern name then .ok true
    else .error .patternWithoutText

/-- The policy of patterns some of which may have no text. Those after the first such pattern
are never tried. -/
def ofPatterns (patterns : List (Option String)) : Policy :=
  if patterns.all Option.isSome then protection { patterns := patterns.filterMap id }
  else brokenAfter ((patterns.takeWhile Option.isSome).filterMap id)

theorem ofPatterns_texts (patterns : List String) :
    ofPatterns (patterns.map some) = protection { patterns } := by
  simp [ofPatterns]

end Policy

end HistoryGuard
