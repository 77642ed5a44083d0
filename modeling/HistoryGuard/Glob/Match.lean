import HistoryGuard.Glob.Pattern

/-! # Matching

A name matches a pattern if the tokens stand for the whole of it. The test fills a table from
the last token to the first. The row of a list of tokens tells for each end of the name, from
the whole name to the empty one, whether the tokens stand for it.
-/

namespace HistoryGuard.Glob

inductive Matches : List Token → List Char → Prop
  | nil : Matches [] []
  | one {t ts c cs} : t.accepts c = true → Matches ts cs → Matches (t :: ts) (c :: cs)
  | starEnd {ts cs} : Matches ts cs → Matches (.star :: ts) cs
  | starStep {ts c cs} : Matches (.star :: ts) cs → Matches (.star :: ts) (c :: cs)

/-- Tells for each entry of a row whether it or a later one holds. -/
def orLater : List Bool → List Bool
  | [] => []
  | b :: bs =>
    let later := orLater bs
    (b || later.headD false) :: later

/-- The row of a token before others, from the row of the others. -/
def extendRow (t : Token) (row : List Bool) (cs : List Char) : List Bool :=
  if t = .star then orLater row
  else List.zipWith (fun c b => t.accepts c && b) cs row.tail ++ [false]

def row (ts : List Token) (cs : List Char) : List Bool :=
  ts.foldr (fun t r => extendRow t r cs) (cs.map (fun _ => false) ++ [true])

def matchTokens (ts : List Token) (cs : List Char) : Bool := (row ts cs).headD false

/-- The pattern stands for the whole name. -/
def matchName (pattern name : String) : Bool := matchTokens (tokens pattern.toList) name.toList

theorem length_orLater (bs : List Bool) : (orLater bs).length = bs.length := by
  induction bs with
  | nil => rfl
  | cons b bs ih => simp [orLater, ih]

theorem tail_orLater (bs : List Bool) : (orLater bs).tail = orLater bs.tail := by
  cases bs <;> rfl

theorem row_cons (t : Token) (ts : List Token) (cs : List Char) :
    row (t :: ts) cs = extendRow t (row ts cs) cs := rfl

theorem length_row (ts : List Token) (cs : List Char) : (row ts cs).length = cs.length + 1 := by
  induction ts with
  | nil => simp [row]
  | cons t ts ih =>
    rw [row_cons, extendRow]
    split
    · rw [length_orLater, ih]
    · simp [ih]

theorem tail_row_cons (ts : List Token) (c : Char) (cs : List Char) :
    (row ts (c :: cs)).tail = row ts cs := by
  induction ts with
  | nil => rfl
  | cons t ts ih =>
    rw [row_cons, row_cons, extendRow, extendRow]
    split
    · rw [tail_orLater, ih]
    · rw [ih]
      have hl := length_row ts cs
      cases hr : row ts cs with
      | nil => simp [hr] at hl
      | cons b bs => simp

theorem row_cons_char (ts : List Token) (c : Char) (cs : List Char) :
    row ts (c :: cs) = matchTokens ts (c :: cs) :: row ts cs := by
  have hl := length_row ts (c :: cs)
  have ht := tail_row_cons ts c cs
  unfold matchTokens
  cases hr : row ts (c :: cs) with
  | nil => simp [hr] at hl
  | cons b bs => rw [hr] at ht; simpa using ht

theorem row_nil_char (ts : List Token) : row ts [] = [matchTokens ts []] := by
  have hl := length_row ts []
  unfold matchTokens
  match hr : row ts [] with
  | [] => simp [hr] at hl
  | [b] => rfl
  | _ :: _ :: _ => simp [hr] at hl

theorem matchTokens_nil (cs : List Char) : matchTokens [] cs = cs.isEmpty := by
  cases cs <;> rfl

theorem matchTokens_star_nil (ts : List Token) :
    matchTokens (.star :: ts) [] = matchTokens ts [] := by
  rw [matchTokens, row_cons, extendRow, if_pos rfl, row_nil_char]
  simp [orLater]

theorem matchTokens_star_cons (ts : List Token) (c : Char) (cs : List Char) :
    matchTokens (.star :: ts) (c :: cs) =
      (matchTokens ts (c :: cs) || matchTokens (.star :: ts) cs) := by
  rw [matchTokens, row_cons, extendRow, if_pos rfl, row_cons_char ts]
  simp only [orLater, List.headD_cons]
  rw [matchTokens, matchTokens, row_cons, extendRow, if_pos rfl]

theorem matchTokens_one_nil {t : Token} (h : t ≠ .star) (ts : List Token) :
    matchTokens (t :: ts) [] = false := by
  rw [matchTokens, row_cons, extendRow, if_neg h]
  simp

theorem matchTokens_one_cons {t : Token} (h : t ≠ .star) (ts : List Token) (c : Char)
    (cs : List Char) :
    matchTokens (t :: ts) (c :: cs) = (t.accepts c && matchTokens ts cs) := by
  rw [matchTokens, row_cons, extendRow, if_neg h, tail_row_cons, matchTokens]
  have hl := length_row ts cs
  cases hr : row ts cs with
  | nil => simp [hr] at hl
  | cons b bs => simp

/-- The table decides the relation. -/
theorem matchTokens_iff {ts : List Token} {cs : List Char} :
    matchTokens ts cs = true ↔ Matches ts cs := by
  induction ts generalizing cs with
  | nil =>
    rw [matchTokens_nil]
    constructor
    · intro h; rw [List.isEmpty_iff.mp h]; exact .nil
    · intro h; cases h; rfl
  | cons t ts ih =>
    by_cases ht : t = .star
    · subst ht
      induction cs with
      | nil =>
        rw [matchTokens_star_nil, ih]
        exact ⟨.starEnd, fun h => by cases h with | starEnd h => exact h⟩
      | cons c cs ihs =>
        rw [matchTokens_star_cons, Bool.or_eq_true, ih, ihs]
        constructor
        · rintro (h | h)
          · exact .starEnd h
          · exact .starStep h
        · intro h
          cases h with
          | one ha _ => simp [Token.accepts] at ha
          | starEnd h => exact .inl h
          | starStep h => exact .inr h
    · cases cs with
      | nil =>
        rw [matchTokens_one_nil ht]
        constructor
        · simp
        · intro h; cases h with | starEnd h => exact absurd rfl ht
      | cons c cs =>
        rw [matchTokens_one_cons ht, Bool.and_eq_true, ih]
        constructor
        · exact fun ⟨ha, h⟩ => .one ha h
        · intro h
          cases h with
          | one ha h => exact ⟨ha, h⟩
          | starEnd h => exact absurd rfl ht
          | starStep h => exact absurd rfl ht

end HistoryGuard.Glob
