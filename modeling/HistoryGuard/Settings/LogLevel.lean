import HistoryGuard.Settings.Store

/-! # Log levels

The level of the log comes from an option, else from the environment, else it is that of
warnings. A name that the log does not know counts as warning, but two names that it does know
stand for other things than levels, and no log can be set up with them.
-/

namespace HistoryGuard.LogLevel

def names : List (String × Except Failure Nat) :=
  [("DEBUG", .ok 10), ("INFO", .ok 20), ("WARN", .ok 30), ("WARNING", .ok 30), ("ERROR", .ok 40),
    ("CRITICAL", .ok 50), ("FATAL", .ok 50), ("NOTSET", .ok 0),
    ("BASIC_FORMAT", .error .formatForLevel), ("_STYLES", .error .stylesForLevel)]

/-- The letters beyond the plain ones whose upper case is made of plain letters. -/
def capitals : List (Char × String) :=
  [('ı', "I"), ('ſ', "S"), ('ß', "SS"), ('ﬀ', "FF"), ('ﬁ', "FI"), ('ﬂ', "FL"), ('ﬃ', "FFI"),
    ('ﬄ', "FFL"), ('ﬅ', "ST"), ('ﬆ', "ST")]

/-- Upper case as far as plain letters come of it. -/
def upper (name : String) : String :=
  String.join (name.toList.map fun c => (capitals.lookup c).getD (String.singleton c.toUpper))

def ofName (name : String) : Except Failure Nat := (names.lookup (upper name)).getD (.ok 30)

/-- The level for an option, which counts only if it holds text. -/
def choose (option : Option String) (env : Environment) : Except Failure Nat :=
  match option with
  | some name => if name = "" then fromEnvironment else ofName name
  | none => fromEnvironment
where
  fromEnvironment : Except Failure Nat := ofName ((env.get? "LOG_LEVEL").getD "WARNING")

end HistoryGuard.LogLevel
