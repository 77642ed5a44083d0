/-! # Tables

A table holds at most one value for each key. Tables with the same values are equal.
-/

namespace HistoryGuard

abbrev Table (κ α : Type) : Type := κ → Option α

namespace Table

variable {κ α : Type}

def empty : Table κ α := fun _ => none

def put [DecidableEq κ] (t : Table κ α) (key : κ) (value : α) : Table κ α :=
  fun k => if k = key then some value else t k

def drop [DecidableEq κ] (t : Table κ α) (key : κ) : Table κ α :=
  fun k => if k = key then none else t k

/-- Drops every key that the test holds for. -/
def dropWhere (t : Table κ α) (p : κ → Bool) : Table κ α := fun k => if p k then none else t k

@[simp] theorem put_same [DecidableEq κ] (t : Table κ α) (key : κ) (value : α) :
    t.put key value key = some value := if_pos rfl

theorem put_other [DecidableEq κ] (t : Table κ α) {key k : κ} (value : α) (h : k ≠ key) :
    t.put key value k = t k := if_neg h

@[simp] theorem drop_same [DecidableEq κ] (t : Table κ α) (key : κ) : t.drop key key = none :=
  if_pos rfl

theorem drop_other [DecidableEq κ] (t : Table κ α) {key k : κ} (h : k ≠ key) :
    t.drop key k = t k := if_neg h

end Table

end HistoryGuard
