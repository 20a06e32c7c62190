import ImpToC.Diagnostic

/-!
# Spellings

Where the words of the language begin and end in a text. Blanks and comments
stand between them; a word reaches as far as its spelling can go on. The main
statement says that every word read from a text is spelt by something, so reading
always moves on.
-/

namespace ImpToC

/-- The six blank characters. -/
def isBlank (c : Char) : Bool :=
  c = ' ' || c = '\t' || c = '\r' || c = '\n' || c = '\x0c' || c = '\x0b'

/-- The characters that can start a name. -/
def isNameStart (c : Char) : Bool :=
  ('a' ≤ c && c ≤ 'z') || ('A' ≤ c && c ≤ 'Z') || c = '_'

/-- The characters that can continue a name. -/
def isNamePart (c : Char) : Bool := isNameStart c || isDigit c

/-- The characters that can stand inside a string. -/
def isStringPart (c : Char) : Bool := c ≠ '"' && c ≠ '\n'

/-- The blanks and comments at the start of a text; a comment runs from its
number sign up to the end of the line. The flag tells whether the text starts
inside a comment. -/
def trivia (inComment : Bool) : List Char → List Char
  | [] => []
  | c :: rest =>
    if inComment then c :: trivia (c ≠ '\n') rest
    else if isBlank c then c :: trivia false rest
    else if c = '#' then c :: trivia true rest
    else []

/-- Digits as the text of an integer literal. -/
def IntText.ofDigits (digits : List Char) (h : ∀ c ∈ digits, isDigit c = true) : IntText :=
  ⟨String.ofList digits, by simpa using h⟩

@[simp] theorem IntText.ofDigits_text {digits : List Char}
    (h : ∀ c ∈ digits, isDigit c = true) : (ofDigits digits h).text = String.ofList digits := rfl

theorem isDecimal_point {whole fraction : List Char} (hwhole : ∀ c ∈ whole, isDigit c = true)
    (hfraction : ∀ c ∈ fraction, isDigit c = true) : isDecimal (whole ++ '.' :: fraction) = true := by
  have hpoint : isDigit '.' = false := rfl
  rw [isDecimal, List.dropWhile_append_of_pos hwhole, List.dropWhile_cons_of_neg (by simp [hpoint])]
  simpa using hfraction

/-- Digits around a point as the text of a float literal. -/
def FloatText.ofParts (whole fraction : List Char) (hwhole : ∀ c ∈ whole, isDigit c = true)
    (hfraction : ∀ c ∈ fraction, isDigit c = true) : FloatText :=
  ⟨String.ofList (whole ++ '.' :: fraction), by simpa using isDecimal_point hwhole hfraction⟩

@[simp] theorem FloatText.ofParts_text {whole fraction : List Char}
    (hwhole : ∀ c ∈ whole, isDigit c = true) (hfraction : ∀ c ∈ fraction, isDigit c = true) :
    (ofParts whole fraction hwhole hfraction).text = String.ofList (whole ++ '.' :: fraction) := rfl

@[simp] theorem Lexeme.spelling_int {digits : List Char} (h : ∀ c ∈ digits, isDigit c = true) :
    (Lexeme.int (.ofDigits digits h)).spelling = digits := by
  simp [spelling]

@[simp] theorem Lexeme.spelling_float {whole fraction : List Char}
    (hwhole : ∀ c ∈ whole, isDigit c = true) (hfraction : ∀ c ∈ fraction, isDigit c = true) :
    (Lexeme.float (.ofParts whole fraction hwhole hfraction)).spelling =
      whole ++ '.' :: fraction := by
  simp [spelling]

theorem isDigit_of_mem_takeWhile {text : List Char} :
    ∀ c ∈ text.takeWhile isDigit, isDigit c = true :=
  List.all_eq_true.mp List.all_takeWhile

namespace Lexeme

/-- The longest number at the start of a text: digits, or digits around a point
of which those behind the point may be missing. -/
def numberAt (text : List Char) : Lexeme :=
  let whole := text.takeWhile isDigit
  match text.dropWhile isDigit with
  | '.' :: rest =>
    .float (.ofParts whole (rest.takeWhile isDigit) isDigit_of_mem_takeWhile
      isDigit_of_mem_takeWhile)
  | _ => .int (.ofDigits whole isDigit_of_mem_takeWhile)

/-- The longest name at the start of a text, or the keyword that it is. Without
strings their type is no keyword. -/
def wordAt (strings : Bool) (text : List Char) : Lexeme :=
  let word := String.ofList (text.takeWhile isNamePart)
  match Symbol.ofWord? word with
  | some s => if s = .stringWord ∧ !strings then .name word else .symbol s
  | none => .name word

/-- The string whose inside starts a text, if it ends on its line. -/
def stringAt (text : List Char) : Except Cause Lexeme :=
  match text.dropWhile isStringPart with
  | '"' :: _ => .ok (.string (String.ofList (text.takeWhile isStringPart)))
  | _ => .error .unterminatedString

/-- The longest word at the start of a text that starts with no blank and no
comment. -/
def readAt (strings : Bool) : List Char → Except Cause Lexeme
  | [] => .ok .finish
  | c :: rest =>
    match Symbol.ofMark? c with
    | some s => .ok (.symbol s)
    | none =>
      if isDigit c then .ok (numberAt (c :: rest))
      else if isNameStart c then .ok (wordAt strings (c :: rest))
      else if c = '"' ∧ strings then stringAt rest
      else .error (.illegalCharacter c)

theorem numberAt_spelling_ne_nil {c : Char} {rest : List Char} (h : isDigit c = true) :
    (numberAt (c :: rest)).spelling ≠ [] := by
  unfold numberAt
  dsimp only
  split <;> simp [spelling, h]

theorem ofWord?_spelling {text : String} {s : Symbol} (h : Symbol.ofWord? text = some s) :
    s.spelling = text := by
  simpa using List.find?_some h

theorem ofMark?_spelling {c : Char} {s : Symbol} (h : Symbol.ofMark? c = some s) :
    s.spelling.toList = [c] := by
  simpa using List.find?_some h

/-- A name or keyword read from a text is spelt by the longest run of name
characters there. -/
theorem wordAt_spelling (strings : Bool) (text : List Char) :
    (wordAt strings text).spelling = text.takeWhile isNamePart := by
  unfold wordAt
  dsimp only
  split
  next s hword =>
    split
    · simp [spelling]
    · simp [spelling, ofWord?_spelling hword]
  next => simp [spelling]

/-- Every word but the end of the text has a spelling. -/
theorem readAt_spelling_ne_nil {strings : Bool} {text : List Char} {lexeme : Lexeme}
    (h : readAt strings text = .ok lexeme) (hlexeme : lexeme ≠ .finish) :
    lexeme.spelling ≠ [] := by
  cases text with
  | nil =>
      simp only [readAt, Except.ok.injEq] at h
      exact absurd h.symm hlexeme
  | cons c rest =>
      simp only [readAt] at h
      split at h
      next s hmark =>
        injection h with h
        subst h
        simp [spelling, ofMark?_spelling hmark]
      next =>
        split at h
        next hdigit =>
          injection h with h
          subst h
          exact numberAt_spelling_ne_nil hdigit
        next =>
          split at h
          next hstart =>
            injection h with h
            subst h
            simp [wordAt_spelling, isNamePart, hstart]
          next =>
            split at h
            next =>
              unfold stringAt at h
              split at h
              · injection h with h
                subst h
                simp [spelling]
              · contradiction
            next => contradiction

/-- The end of the text is read only where nothing is ahead. -/
theorem readAt_ne_nil {strings : Bool} {text : List Char} {lexeme : Lexeme}
    (h : readAt strings text = .ok lexeme) (hlexeme : lexeme ≠ .finish) : text ≠ [] := by
  rintro rfl
  simp only [readAt, Except.ok.injEq] at h
  exact hlexeme h.symm

end Lexeme

end ImpToC
