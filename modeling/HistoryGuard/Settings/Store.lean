import HistoryGuard.Settings.Value

/-! # Settings stores and environments

Both are lists of names with values in which the first entry of a name counts.
-/

namespace HistoryGuard

abbrev Environment := List (String × String)

def Environment.get? (env : Environment) (name : String) : Option String := env.lookup name

structure Store where
  entries : List (String × Value) := []
  deriving Repr

namespace Store

/-- The value of a name. A name without a value and one without an entry are the same. -/
def get (s : Store) (name : String) : Value := (s.entries.lookup name).getD .null

def setEntry (name : String) (value : Value) : List (String × Value) → List (String × Value)
  | [] => [(name, value)]
  | (n, v) :: rest =>
    if n = name then (name, value) :: rest else (n, v) :: setEntry name value rest

def set (s : Store) (name : String) (value : Value) : Store :=
  ⟨setEntry name value s.entries⟩

theorem lookup_setEntry_same (name : String) (value : Value) (entries : List (String × Value)) :
    (setEntry name value entries).lookup name = some value := by
  induction entries with
  | nil => simp [setEntry]
  | cons e rest ih =>
    rw [setEntry]
    split
    · simp
    · next h => rw [List.lookup_cons, beq_eq_false_iff_ne.mpr (Ne.symm h)]; exact ih

theorem lookup_setEntry_other {name other : String} (h : other ≠ name) (value : Value)
    (entries : List (String × Value)) :
    (setEntry name value entries).lookup other = entries.lookup other := by
  induction entries with
  | nil => simp [setEntry, List.lookup_cons, beq_eq_false_iff_ne.mpr h]
  | cons e rest ih =>
    rw [setEntry]
    split
    · next he => rw [List.lookup_cons, List.lookup_cons, he, beq_eq_false_iff_ne.mpr h]
    · rw [List.lookup_cons, List.lookup_cons, ih]

@[simp] theorem get_set_same (s : Store) (name : String) (value : Value) :
    (s.set name value).get name = value := by
  rw [get, set, lookup_setEntry_same]; rfl

theorem get_set_other {name other : String} (h : other ≠ name) (s : Store) (value : Value) :
    (s.set name value).get other = s.get other := by
  rw [get, set, lookup_setEntry_other h, get]

end Store

end HistoryGuard
