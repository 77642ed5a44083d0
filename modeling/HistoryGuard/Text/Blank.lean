/-! # Blank characters

The characters that count as blank, text with its blank ends removed, and the words
of a text. A word is a longest run without blanks.
-/

namespace HistoryGuard.Text

/-- The blank characters: the control characters that move the cursor, the four separators
below the space, and the spaces and separators of the general punctuation. A zero-width space
and a byte order mark are not blank. -/
def isBlank (c : Char) : Bool :=
  let n := c.toNat
  (0x09 ≤ n && n ≤ 0x0d) || (0x1c ≤ n && n ≤ 0x20) || n == 0x85 || n == 0xa0 || n == 0x1680 ||
    (0x2000 ≤ n && n ≤ 0x200a) || n == 0x2028 || n == 0x2029 || n == 0x202f || n == 0x205f ||
    n == 0x3000

def trimStart (s : List Char) : List Char := s.dropWhile isBlank

def trimEnd (s : List Char) : List Char := (s.reverse.dropWhile isBlank).reverse

/-- Removes the blanks at both ends. -/
def trim (s : List Char) : List Char := trimEnd (trimStart s)

def words (s : List Char) : List (List Char) := (s.splitOnP isBlank).filter (!·.isEmpty)

def strip (s : String) : String := String.ofList (trim s.toList)

def fields (s : String) : List String := (words s.toList).map String.ofList

def commaParts (s : String) : List String := (s.toList.splitOn ',').map String.ofList

theorem isBlank_space : isBlank ' ' = true := rfl

@[simp] theorem toList_strip (s : String) : (strip s).toList = trim s.toList :=
  String.toList_ofList

end HistoryGuard.Text
