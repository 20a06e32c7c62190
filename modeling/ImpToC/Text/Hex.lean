/-!
# Hexadecimal numbers
-/

namespace ImpToC.Text

/-- A number in lower-case hexadecimal, filled up with zeros to `width`. -/
def hex (width n : Nat) : List Char :=
  let digits := Nat.toDigits 16 n
  List.replicate (width - digits.length) '0' ++ digits

end ImpToC.Text
