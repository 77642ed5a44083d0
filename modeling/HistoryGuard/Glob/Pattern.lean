/-! # Glob patterns

A pattern is a row of tokens. A star stands for any text, a question mark for any one
character, and brackets for one character of a class; every other character stands for
itself. An opening bracket without a closing one stands for itself too.

Inside brackets, `a-z` is a range and a leading `!` turns the class round. A closing bracket
that comes first belongs to the class. A range that runs downwards holds nothing and is left
out.
-/

namespace HistoryGuard.Glob

inductive Item
  | char (c : Char)
  | range (lo hi : Char)
  deriving DecidableEq, Repr

namespace Item

def holds (c : Char) : Item → Bool
  | char d => c == d
  | range lo hi => decide (lo.toNat ≤ c.toNat) && decide (c.toNat ≤ hi.toNat)

def inhabited : Item → Bool
  | char _ => true
  | range lo hi => decide (lo.toNat ≤ hi.toNat)

/-- Reads the items of a class from left to right. A hyphen between two characters makes a
range, any other hyphen is itself. -/
def ofChars : List Char → List Item
  | lo :: '-' :: hi :: cs => range lo hi :: ofChars cs
  | c :: cs => char c :: ofChars cs
  | [] => []

end Item

inductive Token
  | star
  | any
  | literal (c : Char)
  | oneOf (items : List Item)
  | noneOf (items : List Item)
  deriving DecidableEq, Repr

namespace Token

/-- Reads the text between two brackets. What is left of it once the empty ranges are gone
decides whether the class is turned round: it then starts with `!`. -/
def ofClass : List Char → Token
  | '!' :: cs => noneOf ((Item.ofChars cs).filter (·.inhabited))
  | cs =>
    match (Item.ofChars cs).filter (·.inhabited) with
    | .char '!' :: more => noneOf more
    | .range '!' hi :: more => noneOf (.char '-' :: .char hi :: more)
    | items => oneOf items

/-- The one character that a token stands for. A star is no such token. -/
def accepts (c : Char) : Token → Bool
  | star => false
  | any => true
  | literal d => c == d
  | oneOf items => items.any (·.holds c)
  | noneOf items => !items.any (·.holds c)

end Token

/-- The text up to the bracket that closes a class, read from behind the opening one. -/
def classText (cs : List Char) : Option (List Char) :=
  let (mark, cs) := match cs with
    | '!' :: cs => (['!'], cs)
    | cs => ([], cs)
  let (first, cs) := match cs with
    | ']' :: cs => ([']'], cs)
    | cs => ([], cs)
  if cs.contains ']' then some (mark ++ first ++ cs.takeWhile (· != ']')) else none

/-- Reads a pattern, passing over the first `skip` characters: they belong to a class that has
been read already. -/
def tokensAfter : List Char → Nat → List Token
  | [], _ => []
  | _ :: cs, skip + 1 => tokensAfter cs skip
  | c :: cs, 0 =>
    if c = '*' then .star :: tokensAfter cs 0
    else if c = '?' then .any :: tokensAfter cs 0
    else if c = '[' then
      match classText cs with
      | some text => .ofClass text :: tokensAfter cs (text.length + 1)
      | none => .literal c :: tokensAfter cs 0
    else .literal c :: tokensAfter cs 0

def tokens (pattern : List Char) : List Token := tokensAfter pattern 0

end HistoryGuard.Glob
