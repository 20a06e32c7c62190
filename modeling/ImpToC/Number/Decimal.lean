import ImpToC.Number.Binary64

/-!
# Decimal numbers

The value of a run of decimal digits, and decimals with a point and an exponent:
how they are read and which floating-point number is nearest to them.
-/

namespace ImpToC.Number

/-- The value of a decimal digit. -/
def digitValue (c : Char) : Nat := c.toNat - 48

/-- The value of a run of digits; no digits have the value zero. -/
def ofDigits (digits : List Char) : Nat :=
  digits.foldl (fun n c => 10 * n + digitValue c) 0

/-- The decimal digits of a number. -/
def digits (n : Nat) : List Char := Nat.toDigits 10 n

/-- A power of ten. -/
def tenTo (n : Nat) : Nat := Nat.pow 10 n

/-- The number `coefficient * 10 ^ exponent`. -/
structure Decimal where
  coefficient : Nat
  exponent : Int
  deriving DecidableEq, Repr

namespace Decimal

/-- The numerator of the number as a quotient. -/
def num (d : Decimal) : Nat := d.coefficient * tenTo d.exponent.toNat

/-- The denominator of the number as a quotient. -/
def den (d : Decimal) : Nat := tenTo (-d.exponent).toNat

/-- The nearest floating-point number, unless the decimal is too large. -/
def nearest? (d : Decimal) : Option Magnitude := Magnitude.ofRatio? d.num d.den

/-- The decimal written by the digits before the point and those after it. -/
def ofParts (whole fraction : List Char) (exponent : Int) : Decimal :=
  ⟨ofDigits (whole ++ fraction), exponent - fraction.length⟩

/-- Read digits with an optional point. -/
def ofPlain (text : List Char) : Decimal :=
  ofParts (text.takeWhile (· ≠ '.')) ((text.dropWhile (· ≠ '.')).drop 1) 0

end Decimal

/-- Split off a leading sign; true for a minus. -/
def splitSign : List Char → Bool × List Char
  | '-' :: rest => (true, rest)
  | '+' :: rest => (false, rest)
  | text => (false, text)

/-- Read a decimal in scientific form: digits with an optional point, then
optionally an exponent after the letter e. An exponent that puts the number out
of the range of all floating-point numbers, whatever its digits are, is as good
as any other such exponent. -/
def Decimal.ofScientific (text : List Char) : Decimal :=
  let isMark := fun c => c = 'e' ∨ c = 'E'
  let body := text.takeWhile fun c => !isMark c
  let (below, power) := splitSign ((text.dropWhile fun c => !isMark c).drop 1)
  let plain := Decimal.ofPlain body
  let power := min (ofDigits power) (400 + body.length)
  { plain with exponent := plain.exponent + (if below then -1 else 1) * (power : Int) }

/-- Read a floating-point number: a decimal in scientific form, `inf` or `nan`,
after an optional sign. A decimal too large for a finite number is infinite. -/
def Binary64.ofText (text : List Char) : Binary64 :=
  let (negative, body) := splitSign text
  if body.map Char.toLower = ['n', 'a', 'n'] then .nan
  else if (body.map Char.toLower).take 3 = ['i', 'n', 'f'] then .infinite negative
  else
    match (Decimal.ofScientific body).nearest? with
    | some magnitude => .finite negative magnitude
    | none => .infinite negative

end ImpToC.Number
