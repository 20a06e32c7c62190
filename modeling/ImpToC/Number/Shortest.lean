import ImpToC.Number.Decimal

/-!
# Shortest decimals

A floating-point number is written with the fewest decimal digits that read back
to it. On each decimal grid only the two neighbours of the value can read back
if any grid point does, so grids of one, two, and up to seventeen digits are
tried in turn. Of two neighbours that both read back the nearer one is taken.
-/

namespace ImpToC.Number

namespace Magnitude

/-- The decimal exponent of the first significant digit of a number that is not
zero. Scaled by `10 ^ 324` every such number has a digit before the point. -/
def leadingExponent (m : Magnitude) : Int :=
  ((digits (m.units * tenTo 324 / 1 <<< 1074)).length : Int) - 325

/-- A grid point that reads back to the number: the neighbour below or above its
value on the grid with the given exponent, for a way `near?` to read decimals. -/
def gridPoint? (near? : Decimal → Option Magnitude) (m : Magnitude) (exponent : Int) :
    Option Decimal :=
  let num := m.units * tenTo (-exponent).toNat
  let den := tenTo exponent.toNat <<< 1074
  let floor := num / den
  let readsBack := fun n => near? ⟨n, exponent⟩ = some m
  match decide (readsBack floor), decide (readsBack (floor + 1)) with
  | true, true => some ⟨roundHalfEven num den, exponent⟩
  | true, false => some ⟨floor, exponent⟩
  | false, true => some ⟨floor + 1, exponent⟩
  | false, false => none

/-- All digits of a number: the units that it counts are a whole number on a
grid fine enough. -/
def exact (m : Magnitude) : Decimal := ⟨m.units * Nat.pow 5 1074, -1074⟩

/-- The point of the first grid, from `count` digits on, that has one, or else `last`. -/
def firstPoint (point? : Int → Option Decimal) (last : Decimal) (leading : Int) (count : Nat) :
    Nat → Decimal
  | 0 => last
  | tries + 1 =>
    match point? (leading - count + 1) with
    | some d => d
    | none => firstPoint point? last leading (count + 1) tries

/-- The shortest decimal that reads back to a number. -/
def shortest (m : Magnitude) : Decimal :=
  if m.bits = 0 then ⟨0, 0⟩
  else firstPoint (gridPoint? Decimal.nearest? m) m.exact m.leadingExponent 1 17

end Magnitude

/-- How a decimal is laid out: the exponents of the first digit that are written
with a point and no exponent. -/
structure Layout where
  lowest : Int
  beyond : Int

/-- Digits stand around a point from one ten-thousandth up to below ten to the
sixteenth. -/
def plainLayout : Layout := ⟨-4, 16⟩

/-- The digits of a coefficient without the zeros at its end. -/
def significantDigits (coefficient : Nat) : List Char :=
  ((digits coefficient).reverse.dropWhile (· = '0')).reverse

/-- Digits around a point, at least one on either side. -/
def positional (ds : List Char) (leading : Int) : List Char :=
  if leading < 0 then
    ['0', '.'] ++ List.replicate (-leading - 1).toNat '0' ++ ds
  else
    let whole := leading.toNat + 1
    let fraction := ds.drop whole
    ds.take whole ++ List.replicate (whole - ds.length) '0' ++ ['.'] ++
      (if fraction.isEmpty then ['0'] else fraction)

/-- One digit, the others after a point if there are any, and the exponent with
its sign and at least two digits. -/
def scientific (ds : List Char) (leading : Int) : List Char :=
  let power := digits leading.natAbs
  ds.take 1 ++ (if ds.length ≤ 1 then [] else '.' :: ds.drop 1) ++
    ['e', if leading < 0 then '-' else '+'] ++
    List.replicate (2 - power.length) '0' ++ power

/-- Write a decimal. -/
def Layout.write (layout : Layout) (d : Decimal) : List Char :=
  if d.coefficient = 0 then ['0', '.', '0']
  else
    let leading := d.exponent + (digits d.coefficient).length - 1
    let ds := significantDigits d.coefficient
    if layout.lowest ≤ leading ∧ leading < layout.beyond then positional ds leading
    else scientific ds leading

/-- The text of a finite number without a sign. -/
def Magnitude.text (m : Magnitude) : List Char := plainLayout.write m.shortest

/-- The text of a floating-point number. -/
def Binary64.text : Binary64 → List Char
  | .finite false m => m.text
  | .finite true m => '-' :: m.text
  | .infinite false => ['i', 'n', 'f']
  | .infinite true => ['-', 'i', 'n', 'f']
  | .nan => ['n', 'a', 'n']

end ImpToC.Number
