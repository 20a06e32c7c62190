/-!
# Lines of a text

Two notions of a line are used side by side. Locations count line feeds only.
Diagnostics that quote a line use the wider notion: a line ends at any of the
vertical separators of Unicode, and a carriage return followed by a line feed is
one break. Text read from a file has its line endings made uniform first.
-/

namespace ImpToC.Text

/-- The characters that end a line in the wide sense: line feed, vertical tab,
form feed, carriage return, the three information separators, next line, line
separator and paragraph separator. -/
def isLineBreak (c : Char) : Bool :=
  [0x0A, 0x0B, 0x0C, 0x0D, 0x1C, 0x1D, 0x1E, 0x85, 0x2028, 0x2029].contains c.toNat

/-- Put a character in front of the first line. -/
def consFirst (c : Char) : List (List Char) → List (List Char)
  | [] => [[c]]
  | line :: rest => (c :: line) :: rest

/-- The lines of a text in the wide sense, without their breaks. A break at the
very end opens no further line. -/
def lines : List Char → List (List Char)
  | [] => []
  | '\r' :: '\n' :: rest => [] :: lines rest
  | c :: rest => if isLineBreak c then [] :: lines rest else consFirst c (lines rest)

/-- The lines of a text that ends each line at a line feed and nowhere else. -/
def feedLines : List Char → List (List Char)
  | [] => [[]]
  | c :: rest => if c = '\n' then [] :: feedLines rest else consFirst c (feedLines rest)

/-- Make line endings uniform: a carriage return, with or without a line feed
after it, becomes one line feed. -/
def uniformEndings : List Char → List Char
  | [] => []
  | '\r' :: '\n' :: rest => '\n' :: uniformEndings rest
  | c :: rest => (if c = '\r' then '\n' else c) :: uniformEndings rest

/-- The line with the given number, counted from one. -/
def lineAt? (lines : List (List Char)) (number : Int) : Option (List Char) :=
  if 0 < number then lines[(number - 1).toNat]? else none

end ImpToC.Text
