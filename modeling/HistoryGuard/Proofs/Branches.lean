import Mathlib.Data.List.Sort
import Mathlib.Data.String.Basic
import HistoryGuard.Branches

/-! # Sets of branches by their members

The names of a set ascend, so sets with the same members are the same.
-/

namespace HistoryGuard.Branches

theorem ascending_insertName {name : String} {names : List String}
    (h : names.Pairwise (· < ·)) : (insertName name names).Pairwise (· < ·) := by
  induction names with
  | nil => simp [insertName]
  | cons n ns ih =>
    obtain ⟨first, rest⟩ := List.pairwise_cons.mp h
    rw [insertName]
    split
    · exact h
    · next other =>
      split
      · next before =>
        refine List.pairwise_cons.mpr ⟨fun m hm => ?_, h⟩
        rcases List.mem_cons.mp hm with rfl | hm
        · exact before
        · exact before.trans (first m hm)
      · next behind =>
        refine List.pairwise_cons.mpr ⟨fun m hm => ?_, ih rest⟩
        rcases mem_insertName.mp hm with rfl | hm
        · exact lt_of_le_of_ne (not_lt.mp behind) (Ne.symm other)
        · exact first m hm

theorem ascending_ofList (names : List String) : (ofList names).names.Pairwise (· < ·) := by
  induction names with
  | nil => exact .nil
  | cons n ns ih => exact ascending_insertName ih

theorem ofList_eq_iff {names names' : List String} :
    ofList names = ofList names' ↔ ∀ n, n ∈ names ↔ n ∈ names' := by
  constructor
  · intro same n
    rw [← mem_ofList, same, mem_ofList]
  · intro same
    have members (n : String) : n ∈ (ofList names).names ↔ n ∈ (ofList names').names :=
      mem_ofList.trans ((same n).trans mem_ofList.symm)
    have up := ascending_ofList names
    have up' := ascending_ofList names'
    have perm : (ofList names).names.Perm (ofList names').names :=
      (List.perm_ext_iff_of_nodup (up.imp ne_of_lt) (up'.imp ne_of_lt)).mpr members
    exact congrArg mk (perm.eq_of_pairwise (fun _ _ _ _ lt gt => absurd gt lt.asymm) up up')

end HistoryGuard.Branches
