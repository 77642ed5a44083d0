import HistoryGuard.Proofs.Branches
import HistoryGuard.Proofs.Shell

/-! # What a line of a listing adds

The branches that contain a commit are the names in a listing, and the head if it is detached and
reaches the commit. Nothing that git is asked after the listing depends on it. So one more line in a
listing adds the name of that line, if it has one, and nothing else.
-/

namespace HistoryGuard

open Run

namespace Shell

variable {α β : Type} {c d : Call} {s t : Shell}

/-- The shells have had the same calls answered, and git answers every call alike but one. -/
structure AgreeBut (c : Call) (s t : Shell) : Prop where
  past : t.past = s.past
  git : ∀ past d, d ≠ c → t.git past d = s.git past d

theorem AgreeBut.after (h : AgreeBut c s t) (d : Call) : AgreeBut c (after d s) (after d t) :=
  ⟨congrArg (d :: ·) h.past, h.git⟩

/-- How git answers the call makes no difference to the outcome of the run. -/
def Ignores (c : Call) (x : Run Shell α) : Prop :=
  ∀ s t, AgreeBut c s t → (x t).1 = (x s).1 ∧ AgreeBut c (x s).2 (x t).2

theorem ignores_pure (a : α) : Ignores c (pure a) := fun _ _ h => ⟨rfl, h⟩

theorem ignores_ofExcept (r : Except Failure α) : Ignores c (ofExcept r) := fun _ _ h => ⟨rfl, h⟩

theorem ignores_complete (other : d ≠ c) : Ignores c (complete d) := by
  intro s t h
  rw [complete_apply, complete_apply, h.past, h.git _ d other]
  exact ⟨rfl, h.after d⟩

theorem Ignores.bind {x : Run Shell α} {f : α → Run Shell β} (hx : Ignores c x)
    (hf : ∀ a, Ignores c (f a)) : Ignores c (x >>= f) := by
  intro s t h
  obtain ⟨same, agree⟩ := hx s t h
  rw [bind_apply, bind_apply]
  generalize x s = p, x t = q at same agree ⊢
  obtain ⟨r, s'⟩ := p
  obtain ⟨r', t'⟩ := q
  obtain rfl : r' = r := same
  cases r' with
  | error e => exact ⟨rfl, agree⟩
  | ok a => exact hf a s' t' agree

end Shell

namespace Git

open Shell Text

def containingArgs (sha : String) : List String :=
  ["branch", "-a", "--format=%(refname) %(symref)", "--contains=" ++ sha]

def headReaches (dir sha : String) : Run Shell Bool := do
  let branch ← currentBranch dir
  if branch = head then isAncestor dir sha head else return false

theorem containing_eq (dir sha : String) : containing dir sha = do
    let out ← output dir (containingArgs sha)
    let detached ← headReaches dir sha
    return .ofList (if detached then head :: listedBranches out else listedBranches out) := by
  refine congrArg (output dir (containingArgs sha) >>= ·) (funext fun out => ?_)
  rw [headReaches, bind_assoc]
  refine congrArg (currentBranch dir >>= ·) (funext fun branch => ?_)
  split <;> rfl

theorem ignores_headReaches {c : Call} {sha' : String} (listing : c.args = containingArgs sha')
    (dir sha : String) : Ignores c (headReaches dir sha) := by
  have head : currentBranchCall dir ≠ c := by
    rintro rfl
    simp [containingArgs, currentBranchCall] at listing
  have ancestor : isAncestorCall dir sha Git.head ≠ c := by
    rintro rfl
    simp [containingArgs, isAncestorCall] at listing
  apply Ignores.bind ((ignores_complete head).bind fun _ => ignores_ofExcept _)
  intro branch
  split
  · exact (ignores_complete ancestor).bind fun _ => ignores_ofExcept _
  · exact ignores_pure false

/-- Where the listing has one more line, the name of that line is added, and nothing else. -/
theorem containing_insert {dir sha line name out out' : String} {earlier later : List String}
    {s t : Shell} (named : (readRefLine line).branch? = some name)
    (agree : AgreeBut { args := containingArgs sha, dir } s t)
    (printed : (output dir (containingArgs sha) s).1 = .ok out)
    (without : lines out = earlier ++ later)
    (printed' : (output dir (containingArgs sha) t).1 = .ok out')
    (along : lines out' = earlier ++ line :: later) :
    (containing dir sha t).1 = (containing dir sha s).1.map (·.insert name) := by
  let c : Call := { args := containingArgs sha, dir }
  have heard : (headReaches dir sha (after c t)).1 = (headReaches dir sha (after c s)).1 :=
    (ignores_headReaches rfl dir sha _ _ (agree.after c)).1
  rw [containing_eq, bind_of_ok (eq_of_fst printed), bind_of_ok (eq_of_fst printed')]
  dsimp only [output_apply]
  rw [bind_pure_apply, bind_pure_apply, heard]
  have members (n : String) : n ∈ listedBranches out' ↔ n = name ∨ n ∈ listedBranches out := by
    simp only [listedBranches, readRefs, without, along, List.map_append, List.map_cons,
      List.filterMap_append, List.filterMap_cons_some named, List.mem_append, List.mem_cons]
    exact or_left_comm
  rcases (headReaches dir sha (after c s)).1 with e | detached
  · rfl
  refine congrArg Except.ok ?_
  show Branches.ofList _ = Branches.ofList (name :: _)
  rw [Branches.ofList_eq_iff]
  intro n
  cases detached with
  | true => simp [members, or_left_comm]
  | false => simp [members]

end Git

end HistoryGuard
