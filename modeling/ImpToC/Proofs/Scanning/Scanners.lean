import ImpToC.Proofs.Scanning.Tokenized
import ImpToC.Token.Scanner

/-!
# The counts of a scanner

Whatever a scanner does, it passes some characters one by one, and its three counts stay those of
one place in its text. What it answers is what a cursor at that place reads.
-/

namespace ImpToC

/-! ## Moving a cursor -/

namespace Cursor

theorem move_move (c : Cursor) (first second : Nat) :
    (c.move first).move second = c.move (first + second) := by
  simp only [move, List.take_add, List.reverse_append, List.drop_drop, List.append_assoc,
    Location.advanceOver_append]

/-- How many characters are passed when a token is read. -/
def passed (strings : Bool) (c : Cursor) : Nat :=
  (trivia false c.ahead).length +
    match Lexeme.readAt strings c.skipTrivia.ahead with
    | .ok lexeme => lexeme.spelling.length
    | .error cause => recovery cause c.skipTrivia.ahead

theorem next_snd (strings : Bool) (c : Cursor) : (c.next strings).2 = c.move (c.passed strings) := by
  rw [passed, ← move_move, ← skipTrivia, next]
  cases Lexeme.readAt strings c.skipTrivia.ahead <;> rfl

end Cursor

/-- A line ends at a line feed or with the text. -/
theorem feed_of_dropWhile (text : List Char) :
    ∀ c ∈ (text.dropWhile (· ≠ '\n')).head?, c = '\n' := by
  intro c hc
  have hfirst := List.head?_dropWhile_not (· ≠ '\n') text
  rw [Option.mem_def.mp hc] at hfirst
  simpa using hfirst

theorem trivia_true_eq (text : List Char) :
    trivia true text = text.takeWhile (· ≠ '\n') ++ trivia false (text.dropWhile (· ≠ '\n')) := by
  have hcomment : ∀ c ∈ text.takeWhile (· ≠ '\n'), c ≠ '\n' := fun c hc => by
    simpa using List.mem_takeWhile_imp hc
  have hsplit := List.takeWhile_append_dropWhile (p := (· ≠ '\n')) (l := text)
  calc trivia true text
    _ = trivia true (text.takeWhile (· ≠ '\n') ++ text.dropWhile (· ≠ '\n')) := by rw [hsplit]
    _ = _ := trivia_true_append hcomment (feed_of_dropWhile text)

namespace Scanner

variable {s : Scanner} {c : Char} {rest : List Char}

/-! ## Passing characters -/

/-- The characters ahead. -/
def ahead (s : Scanner) : List Char := s.source.toList.drop s.position

/-- Pass a number of characters. -/
def forward (s : Scanner) : Nat → Scanner
  | 0 => s
  | count + 1 => s.advance.forward count

theorem peek_eq_head? (s : Scanner) : s.peek = s.ahead.head? := by
  rw [peek, ahead, List.head?_drop, Array.getElem?_toList]

theorem advance_of_ahead (h : s.ahead = c :: rest) :
    s.advance = { s with
      position := s.position + 1
      lineStart := if c = '\n' then s.position + 1 else s.lineStart
      location := s.location.advance c } := by
  rw [advance, peek_eq_head?, h]
  rfl

theorem advance_of_ahead_nil (h : s.ahead = []) : s.advance = s := by
  rw [advance, peek_eq_head?, h]
  rfl

theorem ahead_advance (s : Scanner) : s.advance.ahead = s.ahead.drop 1 := by
  cases h : s.ahead with
  | nil =>
      rw [advance_of_ahead_nil h, h]
      rfl
  | cons c rest =>
      rw [advance_of_ahead h, ← h, ahead, ahead, List.drop_drop]

theorem ahead_forward (s : Scanner) (count : Nat) : (s.forward count).ahead = s.ahead.drop count := by
  induction count generalizing s with
  | zero => rfl
  | succ count ih => rw [forward, ih, ahead_advance, List.drop_drop, Nat.add_comm]

theorem forward_forward (s : Scanner) (first second : Nat) :
    (s.forward first).forward second = s.forward (first + second) := by
  induction first generalizing s with
  | zero => rw [forward, Nat.zero_add]
  | succ first ih => rw [Nat.succ_add, forward, forward, ih]

theorem advance_forward (s : Scanner) (count : Nat) :
    (s.forward count).advance = s.forward (count + 1) := s.forward_forward count 1

theorem passWhile_eq (kind : Char → Bool) (s : Scanner) :
    s.passWhile kind = (s.ahead.takeWhile kind, s.forward (s.ahead.takeWhile kind).length) := by
  fun_induction passWhile kind s with
  | case1 s h =>
      rw [peek_eq_head?, List.head?_eq_none_iff] at h
      rw [h]
      rfl
  | case2 s c h hkind passed after hrest ih =>
      rw [peek_eq_head?] at h
      obtain ⟨rest, hahead⟩ := List.head?_eq_some_iff.mp h
      rw [ahead_advance, hahead, List.drop_one, List.tail_cons] at ih
      rw [hrest, Prod.mk.injEq] at ih
      rw [hahead, List.takeWhile_cons_of_pos hkind, ih.1, ih.2]
      rfl
  | case3 s c h hkind =>
      rw [peek_eq_head?] at h
      obtain ⟨rest, hahead⟩ := List.head?_eq_some_iff.mp h
      rw [hahead, List.takeWhile_cons_of_neg hkind]
      rfl

theorem ahead_passWhile (kind : Char → Bool) (s : Scanner) :
    (s.forward (s.ahead.takeWhile kind).length).ahead = s.ahead.dropWhile kind := by
  have hsplit := List.takeWhile_append_dropWhile (p := kind) (l := s.ahead)
  calc (s.forward (s.ahead.takeWhile kind).length).ahead
    _ = s.ahead.drop (s.ahead.takeWhile kind).length := s.ahead_forward _
    _ = (s.ahead.takeWhile kind ++ s.ahead.dropWhile kind).drop
          (s.ahead.takeWhile kind).length := by rw [hsplit]
    _ = s.ahead.dropWhile kind := List.drop_left

theorem skipTrivia_eq (s : Scanner) : s.skipTrivia = s.forward (trivia false s.ahead).length := by
  fun_induction skipTrivia s with
  | case1 s h =>
      rw [peek_eq_head?, List.head?_eq_none_iff] at h
      rw [h]
      rfl
  | case2 s c h hblank ih =>
      rw [peek_eq_head?] at h
      obtain ⟨rest, hahead⟩ := List.head?_eq_some_iff.mp h
      rw [ih, ahead_advance, hahead]
      simp [trivia, hblank, forward]
  | case3 s h hblank ih =>
      rw [peek_eq_head?] at h
      obtain ⟨rest, hahead⟩ := List.head?_eq_some_iff.mp h
      rw [ih, passWhile_eq, ahead_passWhile, forward_forward, ahead_advance, hahead]
      simp [trivia, hblank, forward, trivia_true_eq]
  | case4 s c h hblank hmark =>
      rw [peek_eq_head?] at h
      obtain ⟨rest, hahead⟩ := List.head?_eq_some_iff.mp h
      rw [hahead]
      simp [trivia, hblank, hmark, forward]

/-! ## Words -/

theorem number_eq (s : Scanner) :
    s.number = (.numberAt s.ahead, s.forward (Lexeme.numberAt s.ahead).spelling.length) := by
  have hpeek : (s.passWhile isDigit).2.peek = (s.ahead.dropWhile isDigit).head? := by
    rw [peek_eq_head?, passWhile_eq, ahead_passWhile]
  rw [number, Lexeme.numberAt]
  dsimp only
  rw [hpeek]
  split
  next hpoint =>
    obtain ⟨rest, hrest⟩ := List.head?_eq_some_iff.mp hpoint
    simp [hrest, passWhile_eq, ahead_advance, ahead_passWhile, ← forward_forward, forward]
  next hpoint =>
    split
    next rest hrest => exact absurd (congrArg List.head? hrest) hpoint
    next => simp [passWhile_eq]

theorem word_eq (strings : Bool) (s : Scanner) :
    s.word strings =
      (.wordAt strings s.ahead, s.forward (Lexeme.wordAt strings s.ahead).spelling.length) := by
  rw [word, passWhile_eq, Lexeme.wordAt_spelling]
  dsimp only
  rw [Lexeme.wordAt_takeWhile]

/-- A string is read where its quotes are, and else the scanner stops at the end of the line. -/
theorem string_eq (h : s.ahead = '"' :: rest) :
    s.string =
      match Lexeme.stringAt rest with
      | .ok lexeme => (.ok lexeme, s.forward lexeme.spelling.length)
      | .error cause =>
        (.error ⟨cause.fault s.location, some (String.ofList s.line)⟩,
          s.forward (Cursor.recovery cause s.ahead)) := by
  have hrest : s.advance.ahead = rest := by rw [ahead_advance, h, List.drop_one, List.tail_cons]
  have hbehind := ahead_passWhile isStringPart s.advance
  have hrecovery : s.forward (Cursor.recovery .unterminatedString s.ahead) =
      s.advance.forward (rest.takeWhile isStringPart).length := by
    rw [Cursor.recovery, h, List.drop_one, List.tail_cons, Nat.add_comm, forward]
  rw [hrest] at hbehind
  rw [string, passWhile_eq, hrest]
  dsimp only
  rw [peek_eq_head?, hbehind, Lexeme.stringAt]
  cases hquote : rest.dropWhile isStringPart with
  | nil => simp [hrecovery]
  | cons d tail =>
      by_cases hd : d = '"'
      · subst hd
        simp [advance_forward, Lexeme.spelling, forward]
      · simp [hd, hrecovery]

/-- A scanner reads what stands at the next character, and passes it. -/
theorem read_eq (strings : Bool) (s : Scanner) :
    s.read strings =
      match Lexeme.readAt strings s.ahead with
      | .ok lexeme => (.ok ⟨lexeme, s.location⟩, s.forward lexeme.spelling.length)
      | .error cause =>
        (.error ⟨cause.fault s.location, some (String.ofList s.line)⟩,
          s.forward (Cursor.recovery cause s.ahead)) := by
  rw [read, peek_eq_head?]
  cases hahead : s.ahead with
  | nil => simp [Lexeme.readAt, Lexeme.spelling, forward]
  | cons c rest =>
      rw [Lexeme.readAt, List.head?_cons]
      dsimp only
      cases hmark : Symbol.ofMark? c with
      | some mark => simp [Lexeme.spelling, Lexeme.ofMark?_spelling hmark, forward]
      | none =>
          dsimp only
          by_cases hdigit : isDigit c = true
          · simp [hdigit, number_eq, hahead]
          · by_cases hstart : isNameStart c = true
            · simp [hdigit, hstart, word_eq, hahead]
            · by_cases hquote : c = '"' ∧ strings = true
              · obtain ⟨rfl, hstrings⟩ := hquote
                rw [if_neg hdigit, if_neg hdigit, if_neg hstart, if_neg hstart,
                  if_pos ⟨rfl, hstrings⟩, if_pos ⟨rfl, hstrings⟩, string_eq hahead, hahead]
                cases Lexeme.stringAt rest <;> rfl
              · rw [if_neg hdigit, if_neg hdigit, if_neg hstart, if_neg hstart, if_neg hquote,
                  if_neg hquote]
                rfl

/-! ## Counts -/

/-- The three counts of a scanner are those of one place in its text. -/
structure Coherent (s : Scanner) : Prop where
  /-- The scanner is not past the end of the text. -/
  position_le : s.position ≤ s.source.size
  lineStart_le : s.lineStart ≤ s.position
  /-- The line starts with the text or behind a line feed. -/
  lineStart_feed : s.lineStart = 0 ∨ s.source[s.lineStart - 1]? = some '\n'
  /-- No line feed stands between the start of the line and the next character. -/
  no_feed : ∀ i, s.lineStart ≤ i → i < s.position → s.source[i]? ≠ some '\n'
  line : s.location.line = 1 + (s.source.toList.take s.position).count '\n'
  column : s.location.column = (s.position : Int) - s.lineStart + 1

theorem coherent_start (file : String) (source : List Char) : (start file source).Coherent := by
  refine ⟨Nat.zero_le _, Nat.le_refl _, .inl rfl, ?_, rfl, rfl⟩
  intro i _ hi
  cases hi

theorem getElem?_of_ahead (h : s.ahead = c :: rest) : s.source[s.position]? = some c := by
  rw [← peek, peek_eq_head?, h]
  rfl

/-- Passing a character is a step of all counts. -/
theorem Coherent.advance (h : s.Coherent) : s.advance.Coherent := by
  cases hahead : s.ahead with
  | nil => rwa [advance_of_ahead_nil hahead]
  | cons c rest =>
      have hc := getElem?_of_ahead hahead
      obtain ⟨hlt, -⟩ := Array.getElem?_eq_some_iff.mp hc
      have htake : s.source.toList.take (s.position + 1) =
          s.source.toList.take s.position ++ [c] := by
        rw [List.take_add_one, Array.getElem?_toList, hc]
        rfl
      obtain ⟨hle, hstart, hfeed, hno, hline, hcolumn⟩ := h
      rw [advance_of_ahead hahead]
      by_cases hnewline : c = '\n'
      · subst hnewline
        refine ⟨hlt, Nat.le_refl _, .inr hc, ?_, ?_, ?_⟩
        · intro i hi hi'
          exact absurd hi' (Nat.not_lt.mpr hi)
        · rw [Location.advance_newline, htake, List.count_append]
          simp [hline, Int.add_assoc]
        · simp [Location.advance_newline]
      · simp only [if_neg hnewline]
        refine ⟨hlt, hstart.trans (Nat.le_succ _), hfeed, ?_, ?_, ?_⟩
        · intro i hi hi'
          rcases Nat.lt_succ_iff_lt_or_eq.mp hi' with hi' | rfl
          · exact hno i hi hi'
          · rw [hc]
            simpa using hnewline
        · rw [Location.advance_of_ne _ hnewline, htake, List.count_append]
          simp [hline, hnewline]
        · rw [Location.advance_of_ne _ hnewline]
          simp only [hcolumn]
          omega

theorem Coherent.forward (h : s.Coherent) (count : Nat) : (s.forward count).Coherent := by
  induction count generalizing s with
  | zero => exact h
  | succ count ih => exact ih h.advance

/-- What is behind a scanner ends in the beginning of its line. -/
theorem Coherent.exists_split (h : s.Coherent) :
    ∃ front begun, s.source.toList.take s.position = front ++ begun ∧
      s.source.toList.drop s.lineStart = begun ++ s.ahead ∧
      (∀ c ∈ front.getLast?, c = '\n') ∧ '\n' ∉ begun := by
  obtain ⟨hle, hstart, hfeed, hno, -, -⟩ := h
  obtain ⟨length, hlength⟩ := Nat.exists_eq_add_of_le hstart
  refine ⟨s.source.toList.take s.lineStart, (s.source.toList.drop s.lineStart).take length,
    ?_, ?_, ?_, ?_⟩
  · rw [hlength, List.take_add]
  · rw [ahead, hlength, ← List.drop_drop, List.take_append_drop]
  · intro c hc
    rcases hfeed with hzero | hfeed
    · rw [hzero] at hc
      cases hc
    · rw [List.getLast?_take, Array.getElem?_toList, hfeed] at hc
      split at hc
      · cases hc
      · exact (Option.some.inj hc).symm
  · intro hmem
    obtain ⟨i, hi⟩ := List.mem_iff_getElem?.mp hmem
    rw [List.getElem?_take] at hi
    split at hi
    next hlt =>
      rw [List.getElem?_drop, Array.getElem?_toList] at hi
      exact hno _ (Nat.le_add_right _ _) (hlength ▸ Nat.add_lt_add_left hlt _) hi
    next => cases hi

/-- The cursor at the place of a scanner. -/
def cursor (s : Scanner) : Cursor :=
  ⟨(s.source.toList.take s.position).reverse, s.ahead, s.location⟩

theorem cursor_start (file : String) (source : List Char) :
    (start file source).cursor = .start file source := by
  simp [cursor, start, ahead, Cursor.start]

theorem Coherent.line_eq (h : s.Coherent) : s.line = s.cursor.line := by
  obtain ⟨front, begun, hbehind, hahead, hfront, hbegun⟩ := h.exists_split
  have hall : ∀ c ∈ begun, decide (c ≠ '\n') = true := by
    rintro c hc
    rw [decide_eq_true_iff]
    rintro rfl
    exact hbegun hc
  have hnone : front.reverse.takeWhile (· ≠ '\n') = [] := by
    cases hlast : front.reverse with
    | nil => rfl
    | cons c rest =>
        obtain rfl := hfront c (by rw [← List.head?_reverse, hlast]; rfl)
        rfl
  rw [Scanner.line, hahead, Cursor.line, cursor, hbehind, List.reverse_append,
    List.takeWhile_append_of_pos hall, List.takeWhile_append_of_pos (by simpa using hall), hnone]
  simp

theorem cursor_advance (s : Scanner) : s.advance.cursor = s.cursor.move 1 := by
  cases hahead : s.ahead with
  | nil =>
      rw [advance_of_ahead_nil hahead]
      simp [Cursor.move, cursor, hahead]
  | cons c rest =>
      have hc := getElem?_of_ahead hahead
      simp only [cursor, ahead_advance, Cursor.move, hahead]
      rw [advance_of_ahead hahead]
      simp [List.take_add_one, hc, Location.advanceOver]

theorem cursor_forward (s : Scanner) (count : Nat) :
    (s.forward count).cursor = s.cursor.move count := by
  induction count generalizing s with
  | zero => exact (s.cursor.move_zero).symm
  | succ count ih => rw [forward, ih, cursor_advance, Cursor.move_move, Nat.add_comm]

/-- A scanner answers what the cursor at its place reads, and passes as much. -/
theorem Coherent.next_eq (h : s.Coherent) (strings : Bool) :
    s.next strings = ((s.cursor.next strings).1, s.forward (s.cursor.passed strings)) := by
  have hcoherent := h.forward (trivia false s.ahead).length
  have hcursor : (s.forward (trivia false s.ahead).length).cursor = s.cursor.skipTrivia :=
    s.cursor_forward _
  have hahead : (s.forward (trivia false s.ahead).length).ahead = s.cursor.skipTrivia.ahead :=
    congrArg Cursor.ahead hcursor
  have hlocation : (s.forward (trivia false s.ahead).length).location =
      s.cursor.skipTrivia.location :=
    congrArg Cursor.location hcursor
  rw [next, skipTrivia_eq, read_eq, hcoherent.line_eq, hcursor, hahead, hlocation, Cursor.next,
    Cursor.passed, ← forward_forward]
  cases Lexeme.readAt strings s.cursor.skipTrivia.ahead <;> rfl

end Scanner

end ImpToC
