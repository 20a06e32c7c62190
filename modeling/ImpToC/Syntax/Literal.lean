import ImpToC.Number.Decimal
import ImpToC.Token.Spelling

/-!
# Values of literals

Which numbers can be written in a program: whole numbers below two to the power
of 63, and decimals with a digit behind their point that round to a finite
floating-point number. Reading them is also written out step by step, with all
that is given to a conversion of text to numbers.
-/

namespace ImpToC.Literal

/-- The largest whole number that can be written. -/
def largestInt : Nat := 0x7FFFFFFFFFFFFFFF

/-- The value of an integer literal. Literals with too many digits, leading zeros
not counted, are turned down unread. -/
def int? (digits : IntText) : Option Nat :=
  let ds := digits.text.toList.dropWhile (· = '0')
  if ds.length ≤ (Number.digits largestInt).length ∧ Number.ofDigits ds ≤ largestInt then
    some (Number.ofDigits ds)
  else none

/-- The smallest whole number of 64 bits. -/
def smallestInt : Int := -0x8000000000000000

/-- What stops the reading of a literal. -/
inductive Stop
  /-- The conversion to a number turns down the text it is given. -/
  | refused (text : List Char)
  /-- The literal stands for no number. -/
  | fault (fault : Fault)
  deriving DecidableEq, Repr

/-- A part of the reading of a literal. It keeps what has been given to the conversion, the latest
first. -/
abbrev Read := EStateM Stop (List (List Char))

/-- Convert digits to a number. There has to be a digit, and where the conversion has a limit no
more digits than that. -/
def convert (limit : Option Nat) (digits : List Char) : Read Nat := do
  modify (digits :: ·)
  if digits ≠ [] ∧ digits.all isDigit ∧ limit.all (digits.length ≤ ·) then
    return Number.ofDigits digits
  else throw (.refused digits)

/-- What is converted of some digits: those behind the leading zeros, or one zero if there is
nothing behind them. -/
def toConvert (digits : List Char) : List Char :=
  let ds := digits.dropWhile (· = '0')
  if ds.isEmpty then ['0'] else ds

/-- Read an integer literal at a place. It is only converted when it has not too many digits,
leading zeros not counted. -/
def readInt (limit : Option Nat) (text : String) (location : Location) : Read Nat := do
  let ds := text.toList.dropWhile (· = '0')
  let value ←
    if ds.length ≤ (Number.digits largestInt).length then
      some <$> convert limit (toConvert text.toList)
    else pure none
  match value with
  | none => throw (.fault ((Cause.invalidInt text).fault location))
  | some value =>
    if smallestInt ≤ value ∧ value ≤ largestInt then return value
    else throw (.fault ((Cause.invalidInt text).fault location))

/-- The value of a float literal. -/
def float? (decimal : FloatText) : Option Number.Magnitude :=
  if decimal.text.toList.getLast? = some '.' then none
  else (Number.Decimal.ofPlain decimal.text.toList).nearest?

/-- Convert a decimal to the floating-point number nearest to it, if that is finite. There has to be
a digit. -/
def convertDecimal (text : List Char) : Read (Option Number.Magnitude) := do
  modify (text :: ·)
  if isDecimal text ∧ text.any isDigit then return (Number.Decimal.ofPlain text).nearest?
  else throw (.refused text)

/-- Read a float literal at a place. It is not converted when it ends in its point. -/
def readFloat (text : String) (location : Location) : Read Number.Magnitude := do
  if text.toList.getLast? = some '.' then throw (.fault ((Cause.invalidFloat text).fault location))
  match ← convertDecimal text.toList with
  | some value => return value
  | none => throw (.fault ((Cause.invalidFloat text).fault location))

end ImpToC.Literal
