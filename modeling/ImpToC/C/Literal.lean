import ImpToC.Number.Shortest

/-!
# Literals of C
-/

namespace ImpToC.C

/-- A character inside a string literal. -/
def escape (c : Char) : List Char :=
  if c = '\\' then ['\\', '\\']
  else if c = '"' then ['\\', '"']
  else if c = '\t' then ['\\', 't']
  else if c = '\r' then ['\\', 'r']
  else [c]

/-- The characters that a string literal cannot have as themselves, and what is written for them. -/
def replacements : List (Char × List Char) :=
  [('\\', ['\\', '\\']), ('"', ['\\', '"']), ('\t', ['\\', 't']), ('\r', ['\\', 'r'])]

/-- A text with other characters in all places of one. -/
def replaceEach (text : List Char) (replacement : Char × List Char) : List Char :=
  text.flatMap fun c => if c = replacement.1 then replacement.2 else [c]

/-- The inside of a string literal, made by one replacement after the other. Backslashes come first:
those that stand for other characters are not replaced again. -/
def escapeInTurn (text : List Char) : List Char := replacements.foldl replaceEach text

/-- A string literal. -/
def stringLiteral (text : List Char) : List Char := '"' :: text.flatMap escape ++ ['"']

/-- A literal of the shorter floating-point type: it has a point or an exponent,
and a letter behind it. -/
def floatLiteral (text : List Char) : List Char :=
  text ++ (if text.contains '.' || text.contains 'e' then ['f'] else ['.', '0', 'f'])

/-- The name of a variable; the letter in front keeps it apart from all other
names. -/
def variableName (name : String) : String := "v_" ++ name

/-- The name of a temporary. -/
def temporaryName (index : Nat) : String := "tmp_" ++ toString index

end ImpToC.C
