import HistoryGuard.Text.Blank

/-! # Lines

A carriage return followed by a line feed is one break. The last line needs no break
after it, and an empty text has no line.
-/

namespace HistoryGuard.Text

/-- The characters that end a line. Every one of them is blank. -/
def isBreak (c : Char) : Bool :=
  let n := c.toNat
  (0x0a ≤ n && n ≤ 0x0d) || (0x1c ≤ n && n ≤ 0x1e) || n == 0x85 || n == 0x2028 || n == 0x2029

/-- Writes the pair of carriage return and line feed as one line feed. -/
def joinPairs : List Char → List Char
  | [] => []
  | '\r' :: '\n' :: cs => '\n' :: joinPairs cs
  | c :: cs => c :: joinPairs cs

/-- Writes every carriage return, alone or before a line feed, as a line feed. -/
def foldReturns (s : List Char) : List Char :=
  (joinPairs s).map fun c => if c = '\r' then '\n' else c

/-- Leaves out the last piece if it is empty: it stands after a final break. -/
def dropOpenEnd (pieces : List (List Char)) : List (List Char) :=
  if pieces.getLast? = some [] then pieces.dropLast else pieces

def breakLines (s : List Char) : List (List Char) :=
  dropOpenEnd ((joinPairs s).splitOnP isBreak)

def lines (s : String) : List String := (breakLines s.toList).map String.ofList

/-- The text before the first space and the text after it. Without a space the second is
empty. -/
def cutAtSpace (s : List Char) : List Char × List Char :=
  (s.takeWhile (· != ' '), (s.dropWhile (· != ' ')).tail)

theorem isBlank_of_isBreak {c : Char} (h : isBreak c = true) : isBlank c = true := by
  simp only [isBreak, isBlank, Bool.or_eq_true, Bool.and_eq_true, decide_eq_true_eq,
    beq_iff_eq] at h ⊢
  omega

end HistoryGuard.Text
