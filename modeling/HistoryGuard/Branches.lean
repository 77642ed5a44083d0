/-! # Sets of branches

The short names of the branches that contain a commit: a local branch goes by its name, a
remote-tracking one by remote and name. The names are kept in ascending order without
repetition, so equal sets are equal.
-/

namespace HistoryGuard

structure Branches where
  names : List String
  deriving DecidableEq, Repr

namespace Branches

def insertName (name : String) : List String → List String
  | [] => [name]
  | n :: ns =>
    if name = n then n :: ns
    else if name < n then name :: n :: ns
    else n :: insertName name ns

def empty : Branches := ⟨[]⟩

def insert (b : Branches) (name : String) : Branches := ⟨insertName name b.names⟩

def ofList (names : List String) : Branches := names.foldr (fun n b => b.insert n) empty

instance : Membership String Branches := ⟨fun b name => name ∈ b.names⟩

instance (name : String) (b : Branches) : Decidable (name ∈ b) :=
  inferInstanceAs (Decidable (name ∈ b.names))

theorem mem_insertName {name n : String} {ns : List String} :
    n ∈ insertName name ns ↔ n = name ∨ n ∈ ns := by
  induction ns with
  | nil => simp [insertName]
  | cons m ms ih =>
    rw [insertName]
    split
    · next h => subst h; simp
    · split
      · simp
      · rw [List.mem_cons, ih, List.mem_cons]; exact or_left_comm

@[simp] theorem mem_insert {b : Branches} {name n : String} :
    n ∈ b.insert name ↔ n = name ∨ n ∈ b := mem_insertName

@[simp] theorem mem_ofList {names : List String} {n : String} : n ∈ ofList names ↔ n ∈ names := by
  induction names with
  | nil => exact Iff.rfl
  | cons m ms ih =>
    rw [show ofList (m :: ms) = (ofList ms).insert m from rfl, mem_insert, ih, List.mem_cons]

end Branches

end HistoryGuard
