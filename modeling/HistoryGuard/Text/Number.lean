import HistoryGuard.Text.Blank

/-! # Whole numbers

The digits of every script that counts in tens, and whole numbers written with them. A number
may have a sign before it, single underscores between its digits, and padding around it.
-/

namespace HistoryGuard.Text

/-- The zeros of Unicode 14. Each of them is followed by the digits from one to nine. -/
def zeros : List Nat :=
  [0x0030, 0x0660, 0x06f0, 0x07c0, 0x0966, 0x09e6, 0x0a66, 0x0ae6, 0x0b66, 0x0be6, 0x0c66, 0x0ce6,
  0x0d66, 0x0de6, 0x0e50, 0x0ed0, 0x0f20, 0x1040, 0x1090, 0x17e0, 0x1810, 0x1946, 0x19d0, 0x1a80,
  0x1a90, 0x1b50, 0x1bb0, 0x1c40, 0x1c50, 0xa620, 0xa8d0, 0xa900, 0xa9d0, 0xa9f0, 0xaa50, 0xabf0,
  0xff10, 0x104a0, 0x10d30, 0x11066, 0x110f0, 0x11136, 0x111d0, 0x112f0, 0x11450, 0x114d0, 0x11650,
  0x116c0, 0x11730, 0x118e0, 0x11950, 0x11c50, 0x11d50, 0x11da0, 0x16a60, 0x16ac0, 0x16b50,
  0x1d7ce, 0x1d7d8, 0x1d7e2, 0x1d7ec, 0x1d7f6, 0x1e140, 0x1e2f0, 0x1e950, 0x1fbf0]

def digit? (c : Char) : Option Nat :=
  (zeros.find? fun z => z ≤ c.toNat && c.toNat < z + 10).map (c.toNat - ·)

def isDigit (c : Char) : Bool := (digit? c).isSome

def moreDigits (n : Nat) : List Char → Option Nat
  | [] => some n
  | '_' :: c :: cs => (digit? c).bind fun d => moreDigits (10 * n + d) cs
  | c :: cs => (digit? c).bind fun d => moreDigits (10 * n + d) cs

def digits? : List Char → Option Nat
  | [] => none
  | c :: cs => (digit? c).bind fun d => moreDigits d cs

/-- The blanks that may surround a number: all but the four separators below the space. -/
def isPadding (c : Char) : Bool := isBlank c && !(0x1c ≤ c.toNat && c.toNat ≤ 0x1f)

def unpad (s : List Char) : List Char :=
  ((s.dropWhile isPadding).reverse.dropWhile isPadding).reverse

/-- Takes a sign off. It is true for a minus sign. -/
def takeSign : List Char → Bool × List Char
  | '-' :: cs => (true, cs)
  | '+' :: cs => (false, cs)
  | cs => (false, cs)

def int? (s : String) : Option Int :=
  let (negative, cs) := takeSign (unpad s.toList)
  (digits? cs).map fun n => if negative then -(n : Int) else n

def digitCount (s : String) : Nat :=
  let run := (takeSign (unpad s.toList)).2.takeWhile fun c => isDigit c || c == '_'
  if (digits? run).isSome then run.countP isDigit else 0

example : int? " +1_0\n" = some 10 ∧ int? "-6" = some (-6) := by decide +kernel
example : int? "\x1c5" = none ∧ int? "1__0" = none ∧ int? "_1" = none := by decide +kernel
example : int? "1_" = none ∧ int? "" = none := by decide +kernel

end HistoryGuard.Text
