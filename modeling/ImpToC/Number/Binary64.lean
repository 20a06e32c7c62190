import ImpToC.Number.Rounding

/-!
# Binary floating-point numbers

Numbers with 53 significant binary digits, as bit patterns. The patterns of the
finite numbers without a sign are in the order of their values, and all values
are whole multiples of one unit, `2 ^ -1074`. Rounding a quotient gives the
nearest finite number, or none where the quotient is too large for one.
-/

namespace ImpToC.Number

/-- A finite number without a sign: the exponent field and the 52 bits after the
leading one, as one number below the pattern of infinity. -/
structure Magnitude where
  bits : Nat
  finite : bits < 0x7FF0000000000000
  deriving DecidableEq, Repr

/-- The place of the leading bit in front of 52 others. -/
def leadingBit : Nat := 0x10000000000000

namespace Magnitude

/-- The power of two, in units, of the last significant bit. -/
def grade (m : Magnitude) : Nat := m.bits / leadingBit - 1

/-- The significant bits, with the leading one. -/
def significand (m : Magnitude) : Nat := m.bits - m.grade * leadingBit

/-- The value in units of `2 ^ -1074`. -/
def units (m : Magnitude) : Nat := m.significand <<< m.grade

def zero : Magnitude := ⟨0, by decide⟩

instance : Inhabited Magnitude := ⟨zero⟩

/-- The number whose bit pattern is `bits`, unless it is too large. -/
def ofBits? (bits : Nat) : Option Magnitude :=
  if h : bits < 0x7FF0000000000000 then some ⟨bits, h⟩ else none

/-- The number nearest to `num / den`, a tie going to the even pattern. The
grade keeps 53 bits before the point, or is zero for small numbers; a carry out
of the significant bits moves into the exponent field by itself. -/
def ofRatio? (num den : Nat) : Option Magnitude :=
  let scaled := num <<< 1074
  let grade := (scaled / den).log2 - 52
  ofBits? (grade * leadingBit + roundHalfEven scaled (den <<< grade))

end Magnitude

/-- A floating-point number of any kind. -/
inductive Binary64
  | finite (negative : Bool) (magnitude : Magnitude)
  | infinite (negative : Bool)
  | nan
  deriving DecidableEq, Repr

end ImpToC.Number
