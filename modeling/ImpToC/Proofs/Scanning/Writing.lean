import ImpToC.Proofs.Scanning.Runs

/-!
# Writing words down

Words that are written one after the other, with blanks and comments between them, are read again as
they were. What is in a string or in a comment is never taken for a word of its own, and no word goes
over into the next one.
-/

namespace ImpToC

/-! ## Separators -/

/-- What can stand between two words: a blank, or a comment up to the end of its line. -/
inductive Spacer
  | blank (c : Char) (isBlank_eq : isBlank c = true)
  | comment (text : List Char) (no_feed : '\n' ∉ text)

/-- The characters of a spacer. -/
def Spacer.chars : Spacer → List Char
  | blank c _ => [c]
  | comment text _ => '#' :: (text ++ ['\n'])

/-- One or more blanks and comments. -/
structure Separator where
  first : Spacer
  more : List Spacer

/-- The characters of a separator. -/
def Separator.chars (s : Separator) : List Char := (s.first :: s.more).flatMap Spacer.chars

/-- A spacer makes trivia of what follows it, whatever that is in front of. -/
theorem Spacer.trivia (s : Spacer) {ahead gap : List Char} (h : Trivia ahead gap) :
    Trivia ahead (s.chars ++ gap) := by
  cases s with
  | blank c hblank => exact .blank hblank h
  | comment text hfeed =>
      have htext : ∀ c ∈ text, c ≠ '\n' := fun c hc heq => hfeed (heq ▸ hc)
      have hgap : Trivia ahead ('\n' :: gap) := .blank (by decide) h
      rw [chars, List.cons_append, List.append_assoc]
      apply Trivia.comment htext _ hgap
      rintro c ⟨⟩
      rfl

theorem Separator.trivia (s : Separator) (ahead : List Char) : Trivia ahead s.chars := by
  unfold chars
  induction s.first :: s.more with
  | nil => exact .nil
  | cons spacer rest ih => exact spacer.trivia ih

/-- No number or name goes on into a separator. -/
theorem Separator.parted (s : Separator) (rest : List Char) : Lexeme.Parted (s.chars ++ rest) := by
  unfold chars
  rw [List.flatMap_cons, List.append_assoc]
  cases s.first with
  | blank d hblank =>
      rintro c ⟨⟩
      constructor
      · by_contra hpart
        have hno := (Lexeme.not_isBlank_of_isNamePart (by simpa using hpart)).1
        cases hblank.symm.trans hno
      · rintro rfl
        cases hblank
  | comment =>
      rintro c ⟨⟩
      decide

/-! ## Words and separators -/

namespace Lexeme

/-- Words that are written down behind another one, with a separator in front of each. -/
def writeMore (separators : Nat → Separator) : List Lexeme → List Char
  | [] => []
  | w :: rest =>
    (separators 0).chars ++ (w.spelling ++ writeMore (fun i => separators (i + 1)) rest)

/-- Words written one after the other, with separators between them. -/
def write (separators : Nat → Separator) : List Lexeme → List Char
  | [] => []
  | w :: rest => w.spelling ++ writeMore separators rest

theorem parted_writeMore (separators : Nat → Separator) (words : List Lexeme) :
    Parted (writeMore separators words) := by
  cases words with
  | nil => exact nofun
  | cons => exact (separators 0).parted _

/-- A text is scanned from a place on, up to its end, and has these words. -/
def Found (file : String) (before text : List Char) (words : List Lexeme) : Prop :=
  ∃ tokens finish, Scanned true file before text ⟨tokens, .ok finish⟩ ∧
    tokens.map Token.lexeme = words

section Found

variable {w : Lexeme} {words : List Lexeme} {file : String} {before gap : List Char}

theorem found_nil (file : String) (before : List Char) : Found file before [] [] :=
  ⟨[], _, .finish .nil, rfl⟩

theorem Found.cons (separators : Nat → Separator) (hw : w.Word true)
    (h : Found file (before ++ gap ++ w.spelling) (writeMore separators words) words)
    (hgap : Trivia (w.spelling ++ writeMore separators words) gap) :
    Found file before (gap ++ (w.spelling ++ writeMore separators words)) (w :: words) := by
  obtain ⟨tokens, finish, hscanned, htokens⟩ := h
  have hlongest := hw.longest_of_parted (parted_writeMore separators words)
  refine ⟨_ :: tokens, finish, .word hgap hw hlongest hscanned, ?_⟩
  rw [List.map_cons, htokens]

theorem found_writeMore (separators : Nat → Separator) (h : ∀ w ∈ words, w.Word true) :
    Found file before (writeMore separators words) words := by
  induction words generalizing separators before with
  | nil => exact found_nil file before
  | cons w rest ih =>
      obtain ⟨hw, hrest⟩ := List.forall_mem_cons.mp h
      apply Found.cons (fun i => separators (i + 1)) hw (ih _ hrest)
      exact (separators 0).trivia _

/-- Words that are written down are found one by one. -/
theorem found_write (file : String) (before : List Char) (separators : Nat → Separator)
    (h : ∀ w ∈ words, w.Word true) :
    Found file before (write separators words) words := by
  cases words with
  | nil => exact found_nil file before
  | cons w rest =>
      obtain ⟨hw, hrest⟩ := List.forall_mem_cons.mp h
      show Found file before ([] ++ (w.spelling ++ writeMore separators rest)) (w :: rest)
      apply Found.cons separators hw (found_writeMore separators hrest)
      exact .nil

end Found

end Lexeme

namespace Sentence

theorem exists_ofSource_write (file : String) (separators : Nat → Separator)
    {words : List Lexeme} (h : ∀ w ∈ words, w.Word true) :
    ∃ s, ofSource file true (Lexeme.write separators words) = .ok s ∧
      s.tokens.map Token.lexeme = words ++ [.finish] := by
  obtain ⟨tokens, finish, hscanned, htokens⟩ :=
    Lexeme.found_write file [] separators h
  obtain ⟨s, hs, rfl, rfl⟩ := exists_ofSource_of_scan hscanned.scan_eq
  refine ⟨s, hs, ?_⟩
  rw [Sentence.tokens, List.map_append, htokens]
  rfl

/-- Words of the language that are written down, with any blanks and comments between them, make a
sentence of the same words in the same order, and of nothing else but the end. So there is one token
more than there are words: marks, for instance, never run together. -/
theorem ofSource_write (file : String) (separators : Nat → Separator) :
    (∀ words : List Lexeme, (∀ w ∈ words, w.Word true) →
      ∃ s, ofSource file true (Lexeme.write separators words) = .ok s ∧
        s.tokens.map Token.lexeme = words ++ [.finish]) ∧
    ∀ marks : List Symbol, (∀ m ∈ marks, m ∈ Symbol.marks) →
      ∃ s, ofSource file true (Lexeme.write separators (marks.map .symbol)) = .ok s ∧
        s.tokens.length = marks.length + 1 := by
  refine ⟨fun words => exists_ofSource_write file separators, fun marks hmarks => ?_⟩
  have hwords : ∀ w ∈ marks.map Lexeme.symbol, w.Word true := by
    intro w hw
    obtain ⟨m, hm, rfl⟩ := List.mem_map.mp hw
    exact .mark (hmarks m hm)
  obtain ⟨s, hs, htokens⟩ := exists_ofSource_write file separators hwords
  have hlength := congrArg List.length htokens
  rw [List.length_map, List.length_append, List.length_map] at hlength
  exact ⟨s, hs, hlength⟩

/-- The string starts like a comment, the comment like a string, and the name like a keyword. -/
theorem ofSource_write_alike :
    ∃ s, ofSource defaultFile true "\"# if\"#\"\n1.\tiffy".toList = .ok s ∧
      s.tokens.map Token.lexeme = [.string "# if", .float ⟨"1.", rfl⟩, .name "iffy", .finish] := by
  have hwords : ∀ w ∈ [Lexeme.string "# if", .float ⟨"1.", rfl⟩, .name "iffy"], w.Word true := by
    have hread : ∀ w ∈ [Lexeme.string "# if", .float ⟨"1.", rfl⟩, .name "iffy"],
        w.spelling ≠ [] ∧ Lexeme.readAt true w.spelling = .ok w := by decide
    intro w hw
    exact (Lexeme.word_of_readAt (hread w hw).1 (hread w hw).2).1
  exact (ofSource_write defaultFile fun
    | 0 => ⟨.comment ['"'] (by decide), []⟩
    | _ => ⟨.blank '\t' (by decide), []⟩).1 _ hwords

end Sentence

end ImpToC
