/-!
# Locations

A location names a character of a source text by its line and column, both
counted from one, together with the name of the text. Walking over a text moves
the location one character at a time: only a line feed ends a line.
-/

namespace ImpToC

/-- The place of a character in a named text. -/
structure Location where
  line : Int
  column : Int
  file : String
  deriving DecidableEq, Repr, Inhabited

namespace Location

/-- The first character of the text named `file`. -/
def origin (file : String) : Location := ⟨1, 1, file⟩

/-- The location after the character `c`. -/
def advance (l : Location) (c : Char) : Location :=
  if c = '\n' then { l with line := l.line + 1, column := 1 }
  else { l with column := l.column + 1 }

/-- The location after a whole run of characters. -/
def advanceOver (l : Location) (text : List Char) : Location :=
  text.foldl advance l

theorem advance_newline (l : Location) :
    l.advance '\n' = { l with line := l.line + 1, column := 1 } := rfl

theorem advance_of_ne (l : Location) {c : Char} (h : c ≠ '\n') :
    l.advance c = { l with column := l.column + 1 } := by
  simp [advance, h]

@[simp] theorem advance_file (l : Location) (c : Char) : (l.advance c).file = l.file := by
  unfold advance
  split <;> rfl

@[simp] theorem advanceOver_nil (l : Location) : l.advanceOver [] = l := rfl

@[simp] theorem advanceOver_cons (l : Location) (c : Char) (text : List Char) :
    l.advanceOver (c :: text) = (l.advance c).advanceOver text := rfl

@[simp] theorem advanceOver_append (l : Location) (first second : List Char) :
    l.advanceOver (first ++ second) = (l.advanceOver first).advanceOver second :=
  List.foldl_append

/-- A location is written `file:line:column`. -/
def render (l : Location) : String :=
  l.file ++ ":" ++ toString l.line ++ ":" ++ toString l.column

end Location

end ImpToC
