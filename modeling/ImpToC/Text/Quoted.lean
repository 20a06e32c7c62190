import ImpToC.Text.Hex
import ImpToC.Text.Unseen

/-!
# Quoted text

The form in which a text is shown inside a dump: between quotes, on one line,
with the characters that would not be seen written as escapes.
-/

namespace ImpToC.Text.Quoted

/-- The quote around a text: the single one, unless the text contains it and
has no double one. -/
def mark (text : List Char) : Char :=
  if text.contains '\'' && !text.contains '"' then '"' else '\''

/-- The number of a character in the shortest of the hexadecimal forms with
two, four and eight digits. -/
def numbered (c : Char) : List Char :=
  if c.toNat < 0x100 then '\\' :: 'x' :: hex 2 c.toNat
  else if c.toNat < 0x10000 then '\\' :: 'u' :: hex 4 c.toNat
  else '\\' :: 'U' :: hex 8 c.toNat

/-- One character inside the quote `quote`. -/
def escape (quote c : Char) : List Char :=
  if c = '\\' then ['\\', '\\']
  else if c = quote then ['\\', quote]
  else if c = '\t' then ['\\', 't']
  else if c = '\n' then ['\\', 'n']
  else if c = '\r' then ['\\', 'r']
  else if isUnseen c then numbered c
  else [c]

/-- A text between quotes. -/
def quote (text : String) : String :=
  let cs := text.toList
  let q := mark cs
  String.ofList (q :: cs.flatMap (escape q) ++ [q])

end ImpToC.Text.Quoted
