import ImpToC.Token.Sentence
import ImpToC.Token.Spelling

/-!
# Reading tokens

A cursor stands in a source text and knows what is behind it. Reading a token
passes over blanks and comments, finds the longest word that stands there, and
moves behind its spelling. A lexical fault leaves the cursor where reading can be
tried again: an illegal character is not passed, and after a string without an
end the cursor stands at the end of the line.
-/

namespace ImpToC

/-- A place in a source text: what is behind it, last character first, what is
ahead of it, and its location. -/
structure Cursor where
  behind : List Char
  ahead : List Char
  location : Location
  deriving DecidableEq, Repr

namespace Cursor

/-- The start of a text. -/
def start (file : String) (source : List Char) : Cursor := ⟨[], source, .origin file⟩

/-- Move forward by a number of characters. -/
def move (c : Cursor) (count : Nat) : Cursor :=
  let passed := c.ahead.take count
  ⟨passed.reverse ++ c.behind, c.ahead.drop count, c.location.advanceOver passed⟩

/-- The whole line on which the cursor stands; line feeds alone end a line. -/
def line (c : Cursor) : List Char :=
  (c.behind.takeWhile (· ≠ '\n')).reverse ++ c.ahead.takeWhile (· ≠ '\n')

/-- Pass over blanks and comments. -/
def skipTrivia (c : Cursor) : Cursor := c.move (trivia false c.ahead).length

/-- How far a cursor moves when the text at it is no token. -/
def recovery (cause : Cause) (ahead : List Char) : Nat :=
  match cause with
  | .unterminatedString => 1 + ((ahead.drop 1).takeWhile isStringPart).length
  | _ => 0

/-- Read the next token. At the end of the text that is the last token, time and
again. -/
def next (strings : Bool) (c : Cursor) : Except Diagnostic Token × Cursor :=
  let c := c.skipTrivia
  match Lexeme.readAt strings c.ahead with
  | .ok lexeme => (.ok ⟨lexeme, c.location⟩, c.move lexeme.spelling.length)
  | .error cause =>
    (.error ⟨cause.fault c.location, some (String.ofList c.line)⟩,
      c.move (recovery cause c.ahead))

@[simp] theorem move_ahead (c : Cursor) (count : Nat) :
    (c.move count).ahead = c.ahead.drop count := rfl

@[simp] theorem move_behind (c : Cursor) (count : Nat) :
    (c.move count).behind = (c.ahead.take count).reverse ++ c.behind := rfl

@[simp] theorem move_zero (c : Cursor) : c.move 0 = c := by
  simp [move]

/-- Nothing of the text is lost by moving in it. -/
theorem move_text (c : Cursor) (count : Nat) :
    (c.move count).behind.reverse ++ (c.move count).ahead = c.behind.reverse ++ c.ahead := by
  simp [List.append_assoc]

end Cursor

namespace Cursor

/-- Reading a token other than the last one leaves less of the text ahead. -/
theorem next_ahead_lt {strings : Bool} {c d : Cursor} {t : Token}
    (h : c.next strings = (.ok t, d)) (ht : t.lexeme ≠ .finish) :
    d.ahead.length < c.ahead.length := by
  unfold next at h
  dsimp only at h
  split at h
  next lexeme hread =>
    simp only [Prod.mk.injEq, Except.ok.injEq] at h
    obtain ⟨rfl, rfl⟩ := h
    have hspelling := Lexeme.readAt_spelling_ne_nil hread ht
    have hahead := Lexeme.readAt_ne_nil hread ht
    have hpos := List.length_pos_iff.2 hspelling
    have hlen := List.length_pos_iff.2 hahead
    simp only [skipTrivia, move_ahead, List.length_drop] at hlen ⊢
    omega
  next => simp at h

end Cursor

/-- What a number of attempts to read a token give, one after the other. -/
def Cursor.attempts (strings : Bool) : Nat → Cursor → List (Except Diagnostic Token)
  | 0, _ => []
  | count + 1, c => (c.next strings).1 :: attempts strings count (c.next strings).2

/-- The outcome of reading a text: the tokens, and the place where they end or
what stopped the reading before that. -/
structure Scan where
  words : List Token
  ending : Except Diagnostic Location

namespace Scan

/-- Put a token in front. -/
def cons (t : Token) (s : Scan) : Scan := ⟨t :: s.words, s.ending⟩

/-- The sentence that was read if nothing was wrong. -/
def sentence (s : Scan) (h : ∀ t ∈ s.words, t.lexeme ≠ .finish) : Except Diagnostic Sentence :=
  match s.ending with
  | .ok finish => .ok ⟨s.words, finish, h⟩
  | .error d => .error d

end Scan

/-- Read tokens from a cursor up to the end of the text or the first fault. -/
def Cursor.scan (strings : Bool) (c : Cursor) : Scan :=
  match _h : c.next strings with
  | (.error d, _) => ⟨[], .error d⟩
  | (.ok t, rest) =>
    if _hfinish : t.lexeme = .finish then ⟨[], .ok t.location⟩
    else (Cursor.scan strings rest).cons t
termination_by c.ahead.length
decreasing_by exact Cursor.next_ahead_lt ‹_› ‹_›

/-- The end of a text is none of the tokens in front of it. -/
theorem Cursor.scan_words_ne_finish (strings : Bool) (c : Cursor) :
    ∀ t ∈ (c.scan strings).words, t.lexeme ≠ .finish := by
  fun_induction Cursor.scan strings c with
  | case1 | case2 => exact List.forall_mem_nil _
  | case3 c t rest hnext hfinish ih => exact List.forall_mem_cons.mpr ⟨hfinish, ih⟩

/-- The sentence that a source text is. -/
def Sentence.ofSource (file : String) (strings : Bool) (source : List Char) :
    Except Diagnostic Sentence :=
  ((Cursor.start file source).scan strings).sentence (Cursor.scan_words_ne_finish strings _)

end ImpToC
