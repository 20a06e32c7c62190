import ImpToC.Token.Lexer

/-!
# Scanners

A scanner goes over a text one character at a time and keeps three counts of how far it has come:
the characters behind it, the offset at which its line starts, and the line and the column. They
change in one place alone, where a character is passed. After a fault it can be asked for a token
again.
-/

namespace ImpToC

/-- A place in a source text that is counted in characters, from the start of the text and from
the start of the line, and as a location. -/
structure Scanner where
  source : Array Char
  position : Nat
  lineStart : Nat
  location : Location
  deriving DecidableEq, Repr

namespace Scanner

/-- A scanner in front of a text. -/
def start (file : String) (source : List Char) : Scanner := ⟨source.toArray, 0, 0, .origin file⟩

/-- The next character, if there is one. -/
def peek (s : Scanner) : Option Char := s.source[s.position]?

/-- Pass a character. At the end of the text there is none to pass. -/
def advance (s : Scanner) : Scanner :=
  match s.peek with
  | none => s
  | some c =>
    { s with
      position := s.position + 1
      lineStart := if c = '\n' then s.position + 1 else s.lineStart
      location := s.location.advance c }

/-- How many characters are ahead. -/
def remaining (s : Scanner) : Nat := s.source.size - s.position

theorem remaining_advance {s : Scanner} {c : Char} (h : s.peek = some c) :
    s.advance.remaining < s.remaining := by
  obtain ⟨hlt, -⟩ := Array.getElem?_eq_some_iff.mp h
  simp only [advance, h, remaining]
  omega

/-- Pass the characters of a kind up to the first other one. -/
def passWhile (kind : Char → Bool) (s : Scanner) : List Char × Scanner :=
  match _h : s.peek with
  | none => ([], s)
  | some c =>
    if kind c then
      let (passed, after) := s.advance.passWhile kind
      (c :: passed, after)
    else ([], s)
termination_by s.remaining
decreasing_by exact remaining_advance ‹_›

theorem remaining_passWhile_le (kind : Char → Bool) (s : Scanner) :
    (s.passWhile kind).2.remaining ≤ s.remaining := by
  fun_induction passWhile kind s with
  | case1 => exact Nat.le_refl _
  | case2 s c h hkind passed after hrest ih =>
      rw [hrest] at ih
      exact Nat.le_trans ih (Nat.le_of_lt (remaining_advance h))
  | case3 => exact Nat.le_refl _

theorem of_mem_passWhile (kind : Char → Bool) (s : Scanner) :
    ∀ c ∈ (s.passWhile kind).1, kind c = true := by
  fun_induction passWhile kind s with
  | case1 | case3 => exact fun _ => nofun
  | case2 s c h hkind passed after hrest ih =>
      rw [hrest] at ih
      exact List.forall_mem_cons.mpr ⟨hkind, ih⟩

/-- Pass blanks and comments, in any order and number. -/
def skipTrivia (s : Scanner) : Scanner :=
  match _h : s.peek with
  | none => s
  | some c =>
    if isBlank c then s.advance.skipTrivia
    else if c = '#' then (s.advance.passWhile (· ≠ '\n')).2.skipTrivia
    else s
termination_by s.remaining
decreasing_by
  · exact remaining_advance ‹_›
  · exact Nat.lt_of_le_of_lt (remaining_passWhile_le _ _) (remaining_advance ‹_›)

/-- The line that the scanner is on, from its start up to the next line feed. -/
def line (s : Scanner) : List Char := (s.source.toList.drop s.lineStart).takeWhile (· ≠ '\n')

/-- A number: a run of digits, and a second one if a point follows. -/
def number (s : Scanner) : Lexeme × Scanner :=
  let whole := s.passWhile isDigit
  if whole.2.peek = some '.' then
    let fraction := whole.2.advance.passWhile isDigit
    (.float (.ofParts whole.1 fraction.1 (of_mem_passWhile isDigit s)
      (of_mem_passWhile isDigit whole.2.advance)), fraction.2)
  else (.int (.ofDigits whole.1 (of_mem_passWhile isDigit s)), whole.2)

/-- A name, or the keyword that it is. -/
def word (strings : Bool) (s : Scanner) : Lexeme × Scanner :=
  let (word, s) := s.passWhile isNamePart
  (.wordAt strings word, s)

/-- A string that ends on its line. The line is looked up in front of the opening quote. -/
def string (s : Scanner) : Except Diagnostic Lexeme × Scanner :=
  let fault := Cause.unterminatedString.fault s.location
  let line := s.line
  let (text, s) := s.advance.passWhile isStringPart
  if s.peek = some '"' then (.ok (.string (String.ofList text)), s.advance)
  else (.error ⟨fault, some (String.ofList line)⟩, s)

/-- Read the token that stands at the next character. -/
def read (strings : Bool) (s : Scanner) : Except Diagnostic Token × Scanner :=
  match s.peek with
  | none => (.ok ⟨.finish, s.location⟩, s)
  | some c =>
    match Symbol.ofMark? c with
    | some mark => (.ok ⟨.symbol mark, s.location⟩, s.advance)
    | none =>
      if isDigit c then
        let (lexeme, after) := s.number
        (.ok ⟨lexeme, s.location⟩, after)
      else if isNameStart c then
        let (lexeme, after) := s.word strings
        (.ok ⟨lexeme, s.location⟩, after)
      else if c = '"' ∧ strings then
        let (outcome, after) := s.string
        (outcome.map fun lexeme => ⟨lexeme, s.location⟩, after)
      else (.error ⟨(Cause.illegalCharacter c).fault s.location, some (String.ofList s.line)⟩, s)

/-- Read the next token. -/
def next (strings : Bool) (s : Scanner) : Except Diagnostic Token × Scanner :=
  s.skipTrivia.read strings

/-- The scanner after a number of attempts to read a token. -/
def after (strings : Bool) : Nat → Scanner → Scanner
  | 0, s => s
  | count + 1, s => after strings count (s.next strings).2

/-- What a number of attempts to read a token give, one after the other. -/
def attempts (strings : Bool) : Nat → Scanner → List (Except Diagnostic Token)
  | 0, _ => []
  | count + 1, s => (s.next strings).1 :: attempts strings count (s.next strings).2

end Scanner

end ImpToC
