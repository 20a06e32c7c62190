import ImpToC.C.Literal

/-!
# Reading string literals

A reader of C takes a string literal apart from its first quote to the quote that ends it, and has
the text back that the literal was written for.
-/

namespace ImpToC.C

/-! ## Reading a literal -/

/-- The character that a letter behind a backslash stands for. -/
def unescape? : Char → Option Char
  | '\\' => some '\\'
  | '"' => some '"'
  | 't' => some '\t'
  | 'r' => some '\r'
  | _ => none

/-- Read the inside of a string literal: its text up to the quote that ends it, and what follows. A
literal does not go over the end of a line. -/
def readInside : List Char → Option (List Char × List Char)
  | [] => none
  | '"' :: rest => some ([], rest)
  | '\n' :: _ => none
  | ['\\'] => none
  | '\\' :: c :: rest => do
    let meant ← unescape? c
    let (text, after) ← readInside rest
    return (meant :: text, after)
  | c :: rest => do
    let (text, after) ← readInside rest
    return (c :: text, after)

/-- Read a string literal at the start of a text. -/
def readString : List Char → Option (List Char × List Char)
  | '"' :: rest => readInside rest
  | _ => none

theorem readInside_backslash {c meant : Char} (h : unescape? c = some meant) (rest : List Char) :
    readInside ('\\' :: c :: rest) =
      (readInside rest).map fun read => (meant :: read.1, read.2) := by
  rw [readInside, h]
  cases readInside rest <;> rfl

theorem readInside_cons {c : Char} (hbackslash : c ≠ '\\') (hquote : c ≠ '"') (hfeed : c ≠ '\n')
    (rest : List Char) :
    readInside (c :: rest) = (readInside rest).map fun read => (c :: read.1, read.2) := by
  rw [readInside]
  · cases readInside rest <;> rfl
  · exact hquote
  · exact hfeed
  · exact fun h _ => hbackslash h
  · exact fun _ _ h _ => hbackslash h

/-- An escaped character is read as itself. -/
theorem readInside_escape {c : Char} (hfeed : c ≠ '\n') (rest : List Char) :
    readInside (escape c ++ rest) = (readInside rest).map fun read => (c :: read.1, read.2) := by
  unfold escape
  split
  next hbackslash =>
    subst hbackslash
    exact readInside_backslash rfl rest
  next hbackslash =>
    split
    next hquote =>
      subst hquote
      exact readInside_backslash rfl rest
    next hquote =>
      split
      next htab =>
        subst htab
        exact readInside_backslash rfl rest
      next =>
        split
        next hreturn =>
          subst hreturn
          exact readInside_backslash rfl rest
        next => exact readInside_cons hbackslash hquote hfeed rest

/-- The reader has the whole text when it comes to the last quote, and what follows is left. -/
theorem readString_stringLiteral {text : List Char} (h : '\n' ∉ text) (rest : List Char) :
    readString (stringLiteral text ++ rest) = some (text, rest) := by
  show readInside (text.flatMap escape ++ ['"'] ++ rest) = some (text, rest)
  induction text with
  | nil => rfl
  | cons c text ih =>
      rw [List.mem_cons, not_or] at h
      rw [List.flatMap_cons, List.append_assoc, List.append_assoc,
        readInside_escape (Ne.symm h.1), ← List.append_assoc, ih h.2]
      rfl

/-- Different texts have different literals. -/
theorem eq_of_stringLiteral_eq {text other : List Char} (h : '\n' ∉ text) (hother : '\n' ∉ other)
    (heq : stringLiteral other = stringLiteral text) : other = text := by
  have hread := readString_stringLiteral hother []
  rw [heq, readString_stringLiteral h []] at hread
  exact (congrArg Prod.fst (Option.some.inj hread)).symm

/-! ## Characters of a literal -/

/-- What is written for a character. -/
theorem escape_cases (c : Char) :
    (∃ letter, escape c = ['\\', letter] ∧ letter ∉ ['\n', '\t', '\r']) ∨
      escape c = [c] ∧ c ∉ ['\\', '"', '\t', '\r'] := by
  unfold escape
  split
  next => exact .inl ⟨_, rfl, by decide⟩
  next =>
    split
    next => exact .inl ⟨_, rfl, by decide⟩
    next =>
      split
      next => exact .inl ⟨_, rfl, by decide⟩
      next =>
        split
        next => exact .inl ⟨_, rfl, by decide⟩
        next => exact .inr ⟨rfl, by simp [*]⟩

/-- Of the characters that would end the line or show as blanks, only a line feed is written. -/
theorem eq_feed_of_mem_escape {c d : Char} (hc : c ∈ ['\n', '\t', '\r']) (h : c ∈ escape d) :
    c = '\n' ∧ d = '\n' := by
  rcases escape_cases d with ⟨letter, heq, hletter⟩ | ⟨heq, hd⟩
  · rw [heq, List.mem_cons, List.mem_singleton] at h
    rcases h with rfl | rfl
    · exact absurd hc (by decide)
    · exact absurd hc hletter
  · rw [heq, List.mem_singleton] at h
    subst h
    simp only [List.mem_cons, List.not_mem_nil, or_false, not_or] at hc hd
    have hfeed := hc.resolve_right (not_or.mpr ⟨hd.2.2.1, hd.2.2.2⟩)
    exact ⟨hfeed, hfeed⟩

/-- A literal goes over the end of a line only if its text does. -/
theorem feed_not_mem_stringLiteral {text : List Char} (h : '\n' ∉ text) :
    '\n' ∉ stringLiteral text := by
  have hescape : '\n' ∉ text.flatMap escape := by
    intro hmem
    obtain ⟨c, hc, hfeed⟩ := List.mem_flatMap.mp hmem
    obtain ⟨-, rfl⟩ := eq_feed_of_mem_escape (by decide) hfeed
    exact h hc
  simp [stringLiteral, hescape]

end ImpToC.C
