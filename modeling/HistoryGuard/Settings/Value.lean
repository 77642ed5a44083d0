import HistoryGuard.Failure
import HistoryGuard.Text.Number

/-! # Stored values

What a settings store may hold, and the text of it. A number with a fraction is known by the
decimal that stands for it.
-/

namespace HistoryGuard

/-- The number `digits · 10 ^ exponent`, with a sign. -/
structure Decimal where
  negative : Bool := false
  digits : Nat
  exponent : Int
  deriving DecidableEq, Repr

namespace Decimal

/-- The digits without the zeros at their end. -/
def figures (d : Decimal) : List Char :=
  ((Nat.toDigits 10 d.digits).reverse.dropWhile (· == '0')).reverse

/-- How many figures stand before the point; none or fewer if the number is below one. -/
def pointAt (d : Decimal) : Int := (Nat.toDigits 10 d.digits).length + d.exponent

/-- The exponent with its sign and at least two digits. -/
def exponentText (e : Int) : String :=
  let n := toString e.natAbs
  (if e < 0 then "-" else "+") ++ (if n.length < 2 then "0" ++ n else n)

/-- A number from a ten-thousandth up to sixteen figures before the point is written in
positions, with at least one figure after the point; any other one with an exponent. -/
def unsigned (d : Decimal) : String :=
  let ds := d.figures
  let n : Int := ds.length
  let p := d.pointAt
  if ds = [] then "0.0"
  else if 0 < p && p ≤ 16 then
    if n ≤ p then String.ofList (ds ++ List.replicate (p - n).toNat '0') ++ ".0"
    else String.ofList (ds.take p.toNat) ++ "." ++ String.ofList (ds.drop p.toNat)
  else if -4 < p && p ≤ 0 then
    "0." ++ String.ofList (List.replicate (-p).toNat '0' ++ ds)
  else
    let rest := ds.drop 1
    String.ofList (ds.take 1) ++ (if rest = [] then "" else "." ++ String.ofList rest) ++ "e" ++
      exponentText (p - 1)

def text (d : Decimal) : String := (if d.negative then "-" else "") ++ d.unsigned

def truncate (d : Decimal) : Int :=
  let n : Nat :=
    if 0 ≤ d.exponent then d.digits * Nat.pow 10 d.exponent.toNat
    else d.digits / Nat.pow 10 (-d.exponent).toNat
  if d.negative then -n else n

example : text ⟨false, 10, -1⟩ = "1.0" ∧ text ⟨true, 25, -1⟩ = "-2.5" := by decide +kernel
example : text ⟨false, 1, 16⟩ = "1e+16" ∧ text ⟨false, 12, -6⟩ = "1.2e-05" := by decide +kernel

end Decimal

inductive Value
  | null
  | bool (b : Bool)
  | int (n : Int)
  | decimal (d : Decimal)
  | text (s : String)
  | list (items : List Value)
  deriving Repr, Inhabited

namespace Value

mutual

/-- The text of a value inside a list, where a text stands in quotes. -/
def written : Value → String
  | null => "None"
  | bool true => "True"
  | bool false => "False"
  | int n => toString n
  | decimal d => d.text
  | text s => Text.quoted s
  | list items => "[" ++ ", ".intercalate (writtenItems items) ++ "]"

def writtenItems : List Value → List String
  | [] => []
  | v :: vs => written v :: writtenItems vs

end

def toText : Value → String
  | text s => s
  | v => v.written

def readInt (s : String) : Except Failure Int :=
  if Failure.digitLimit < Text.digitCount s then .error (.tooManyDigits (Text.digitCount s))
  else
    match Text.int? s with
    | some n => .ok n
    | none => .error (.notANumber s)

/-- The whole number that a value stands for, or a default where there is no value. A fraction
is cut off. -/
def toInt (default : Int) : Value → Except Failure Int
  | null => .ok default
  | bool b => .ok b.toNat
  | int n => .ok n
  | decimal d => .ok d.truncate
  | text s => readInt s
  | list _ => .error .listForNumber

end Value

end HistoryGuard
