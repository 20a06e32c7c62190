import ImpToC.Proofs.Scanning.Scanners
import ImpToC.Proofs.Scanning.Stops

/-!
# Asking a scanner again and again

A scanner can be asked for a token any number of times, behind a fault and behind the end of its
text as well. Its counts stay those of one place, which never moves back; what is final is
answered from then on; and every fault quotes the line that it is on, with a caret under the
character that it is about.
-/

namespace ImpToC

/-! ## Lines -/

@[simp] theorem Location.file_advanceOver (l : Location) (text : List Char) :
    (l.advanceOver text).file = l.file := by
  induction text generalizing l with
  | nil => rfl
  | cons c rest ih => rw [advanceOver_cons, ih, advance_file]

/-- A location stays on its line where no line feed is passed. -/
theorem Location.line_advanceOver (l : Location) {text : List Char} (h : '\n' ∉ text) :
    (l.advanceOver text).line = l.line := by
  induction text generalizing l with
  | nil => rfl
  | cons c rest ih =>
      rw [List.mem_cons, not_or] at h
      rw [advanceOver_cons, ih _ h.2, advance_of_ne l (Ne.symm h.1)]

namespace Text

theorem feedLines_ne_nil (text : List Char) : feedLines text ≠ [] := by
  cases text with
  | nil => exact List.cons_ne_nil _ _
  | cons c rest =>
      rw [feedLines]
      split
      · exact List.cons_ne_nil _ _
      · cases feedLines rest <;> exact List.cons_ne_nil _ _

theorem consFirst_append (c : Char) {first : List (List Char)} (h : first ≠ [])
    (second : List (List Char)) :
    consFirst c (first ++ second) = consFirst c first ++ second := by
  obtain ⟨line, rest, rfl⟩ := List.exists_cons_of_ne_nil h
  rfl

/-- A line feed parts the lines in front of it from those behind it. -/
theorem feedLines_append_feed (front rest : List Char) :
    feedLines (front ++ '\n' :: rest) = feedLines front ++ feedLines rest := by
  induction front with
  | nil => rfl
  | cons c front ih =>
      rw [List.cons_append, feedLines, feedLines, ih]
      split
      · rfl
      · exact consFirst_append c (feedLines_ne_nil front) _

theorem length_feedLines (text : List Char) : (feedLines text).length = text.count '\n' + 1 := by
  induction text with
  | nil => rfl
  | cons c rest ih =>
      rw [feedLines]
      by_cases hfeed : c = '\n'
      · simp [hfeed, ih]
      · obtain ⟨line, lines, hlines⟩ := List.exists_cons_of_ne_nil (feedLines_ne_nil rest)
        rw [hlines] at ih
        simp [hfeed, hlines, consFirst, ← ih]

/-- A text without a line feed is one line. -/
theorem feedLines_of_not_mem {line : List Char} (h : '\n' ∉ line) : feedLines line = [line] := by
  induction line with
  | nil => rfl
  | cons c rest ih =>
      rw [List.mem_cons, not_or] at h
      rw [feedLines, if_neg (Ne.symm h.1), ih h.2]
      rfl

/-- A line that stands between line feeds is found under its number. -/
theorem feedLines_getElem? {front line rest : List Char} (hfront : ∀ c ∈ front.getLast?, c = '\n')
    (hline : '\n' ∉ line) (hrest : ∀ c ∈ rest.head?, c = '\n') :
    (feedLines (front ++ (line ++ rest)))[front.count '\n']? = some line := by
  have hfirst : (feedLines (line ++ rest))[0]? = some line := by
    cases rest with
    | nil => simp [feedLines_of_not_mem hline]
    | cons c rest =>
        obtain rfl := hrest c rfl
        simp [feedLines_append_feed, feedLines_of_not_mem hline]
  rcases List.eq_nil_or_concat' front with rfl | ⟨front, c, rfl⟩
  · exact hfirst
  · obtain rfl := hfront c (by simp)
    have hcount : (front ++ ['\n']).count '\n' = (feedLines front).length := by
      simp [length_feedLines]
    rw [List.append_assoc, List.singleton_append, feedLines_append_feed, hcount,
      List.getElem?_append_right (Nat.le_refl _), Nat.sub_self]
    exact hfirst

end Text

/-- The caret is below the quoted line, moved right as it is. -/
theorem Diagnostic.exists_report {d : Diagnostic} {quoted : String} {l : Location} {index : Nat}
    (hl : d.location = some l) (hquoted : d.sourceLine = some quoted) (hcolumn : l.column = index + 1) :
    ∃ message hint, d.report = message :: ("    " ++ quoted) ::
      String.ofList (List.replicate (4 + index) ' ' ++ ['^']) :: hint := by
  have hpos : 0 < l.column := by omega
  have hpadding : (l.column - 1).toNat = index := by omega
  have hexcerpt : d.excerpt =
      ["    " ++ quoted, String.ofList (List.replicate (4 + index) ' ' ++ ['^'])] := by
    unfold excerpt
    rw [hquoted, hl]
    simp only [if_pos hpos, hpadding]
  rw [report, hexcerpt]
  exact ⟨_, _, rfl⟩

/-- A diagnostic quotes a whole line of a text, and the caret below the line stands under a
character in it. -/
structure Diagnostic.PointsAt (d : Diagnostic) (source : List Char) (l : Location)
    (row : List Char) (c : Char) : Prop where
  location : d.location = some l
  sourceLine : d.sourceLine = some (String.ofList row)
  /-- The line goes from one line feed to the next. -/
  whole : Text.lineAt? (Text.feedLines source) l.line = some row
  column : ∃ index : Nat, l.column = index + 1 ∧ row[index]? = some c ∧
    ("    " ++ String.ofList row).toList[4 + index]? = some c ∧
    ∃ message hint, d.report = message :: ("    " ++ String.ofList row) ::
      String.ofList (List.replicate (4 + index) ' ' ++ ['^']) :: hint

namespace Scanner

variable {s : Scanner} {c : Char} {rest : List Char} {strings : Bool}

/-- A fault at the next character points at it. -/
theorem Coherent.pointsAt (h : s.Coherent) (hahead : s.ahead = c :: rest) (hc : c ≠ '\n')
    (cause : Cause) :
    (Diagnostic.mk (cause.fault s.location) (some (String.ofList s.line))).PointsAt
      s.source.toList s.location s.line c := by
  obtain ⟨front, begun, hbehind, hline, hfront, hbegun⟩ := h.exists_split
  have hall : ∀ c ∈ begun, decide (c ≠ '\n') = true := fun c hmem => by
    rw [decide_eq_true_iff]
    rintro rfl
    exact hbegun hmem
  have hwhole : s.line = begun ++ s.ahead.takeWhile (· ≠ '\n') := by
    rw [Scanner.line, hline, List.takeWhile_append_of_pos hall]
  have hindex : s.location.column = (begun.length : Int) + 1 := by
    have hlength := congrArg List.length hline
    have hle := h.position_le
    have hle' := h.lineStart_le
    rw [h.column]
    simp only [List.length_drop, List.length_append, ahead, Array.length_toList] at hlength
    omega
  have hchar : s.line[begun.length]? = some c := by
    rw [hwhole, hahead, List.takeWhile_cons_of_pos (by simpa using hc)]
    simp
  refine ⟨rfl, rfl, ?_, begun.length, hindex, hchar, ?_, ?_⟩
  · have htext : s.source.toList = front ++ (s.line ++ s.ahead.dropWhile (· ≠ '\n')) := by
      rw [hwhole, List.append_assoc, List.takeWhile_append_dropWhile, ← List.append_assoc,
        ← hbehind, ahead, List.take_append_drop]
    have hnumber : s.location.line = (front.count '\n' : Int) + 1 := by
      rw [h.line, hbehind, List.count_append, List.count_eq_zero_of_not_mem hbegun]
      omega
    have hfeed : '\n' ∉ s.line := fun hmem => by
      simpa using List.mem_takeWhile_imp hmem
    rw [Text.lineAt?, hnumber, if_pos (by omega), htext, Int.add_sub_cancel, Int.toNat_natCast]
    exact Text.feedLines_getElem? hfront hfeed (feed_of_dropWhile s.ahead)
  · have hquoted : ("    " ++ String.ofList s.line).toList = [' ', ' ', ' ', ' '] ++ s.line := by
      simp
    rw [hquoted, Nat.add_comm]
    exact hchar
  · exact Diagnostic.exists_report rfl rfl hindex

/-! ## One attempt -/

/-- An answer behind which there are no others: the end of the text, or a character that starts
no word. -/
def Final : Except Diagnostic Token → Prop
  | .ok t => t.lexeme = .finish
  | .error d => ∃ c, d.cause = .illegalCharacter c

/-- No trivia follow those that are passed. -/
theorem trivia_drop_trivia (text : List Char) :
    trivia false (text.drop (trivia false text).length) = [] := by
  obtain ⟨gap, ahead, rfl, hgap, -, hahead⟩ := startsWithTrivia text
  rw [hgap, List.drop_left, hahead]

theorem skipTrivia_skipTrivia (s : Scanner) : s.skipTrivia.skipTrivia = s.skipTrivia := by
  have hahead : trivia false s.skipTrivia.ahead = [] := by
    rw [s.skipTrivia_eq, ahead_forward]
    exact trivia_drop_trivia s.ahead
  rw [skipTrivia_eq s.skipTrivia, hahead]
  rfl

/-- A scanner stays where it gives a final answer. -/
theorem read_of_final (h : Final (s.read strings).1) : (s.read strings).2 = s := by
  rw [read_eq] at h ⊢
  cases hread : Lexeme.readAt strings s.ahead with
  | ok lexeme =>
      rw [hread] at h
      obtain rfl : lexeme = .finish := h
      rfl
  | error cause =>
      rw [hread] at h
      obtain ⟨c, hc⟩ := h
      obtain rfl : cause = .illegalCharacter c := hc
      rfl

theorem next_of_final (h : Final (s.next strings).1) :
    (s.next strings).2.next strings = s.next strings := by
  have hstay : (s.next strings).2 = s.skipTrivia := read_of_final h
  rw [hstay, next, next, skipTrivia_skipTrivia]

/-- Where an answer is final, it is given from then on. -/
theorem next_after_of_final (h : Final (s.next strings).1) (more : Nat) :
    ((s.after strings more).next strings).1 = (s.next strings).1 := by
  induction more generalizing s with
  | zero => rfl
  | succ more ih =>
      have hagain := next_of_final h
      have hfinal : Final ((s.next strings).2.next strings).1 := by rwa [hagain]
      rw [after, ih hfinal, hagain]

theorem fault_of_next {d : Diagnostic} (h : (s.next strings).1 = .error d) :
    ∃ cause, Lexeme.readAt strings s.skipTrivia.ahead = .error cause ∧
      d = ⟨cause.fault s.skipTrivia.location, some (String.ofList s.skipTrivia.line)⟩ ∧
      (s.next strings).2 = s.skipTrivia.forward (Cursor.recovery cause s.skipTrivia.ahead) := by
  rw [next, read_eq] at h ⊢
  cases hread : Lexeme.readAt strings s.skipTrivia.ahead with
  | ok lexeme =>
      rw [hread] at h
      cases h
  | error cause =>
      rw [hread] at h
      cases h
      exact ⟨cause, rfl, rfl, rfl⟩

theorem Coherent.skipTrivia (h : s.Coherent) : s.skipTrivia.Coherent := by
  rw [skipTrivia_eq]
  exact h.forward _

theorem Coherent.next (h : s.Coherent) : (s.next strings).2.Coherent := by
  rw [h.next_eq]
  exact h.forward _

theorem source_advance (s : Scanner) : s.advance.source = s.source := by
  unfold advance
  split <;> rfl

theorem position_le_advance (s : Scanner) : s.position ≤ s.advance.position := by
  unfold advance
  split
  · exact Nat.le_refl _
  · exact Nat.le_succ _

theorem source_forward (s : Scanner) (count : Nat) : (s.forward count).source = s.source := by
  induction count generalizing s with
  | zero => rfl
  | succ count ih => rw [forward, ih, source_advance]

theorem position_le_forward (s : Scanner) (count : Nat) :
    s.position ≤ (s.forward count).position := by
  induction count generalizing s with
  | zero => exact Nat.le_refl _
  | succ count ih => exact s.position_le_advance.trans (ih s.advance)

theorem location_forward (s : Scanner) (count : Nat) :
    (s.forward count).location = s.location.advanceOver (s.ahead.take count) :=
  congrArg Cursor.location (s.cursor_forward count)

/-- Every fault quotes the line that it is on, and points at the character that starts no word,
or at the quote that opens the string. -/
theorem Coherent.pointsAt_of_next (h : s.Coherent) {d : Diagnostic}
    (hd : (s.next strings).1 = .error d) :
    ∃ l line c, d.PointsAt s.source.toList l line c ∧
      (d.cause = .illegalCharacter c ∨ d.cause = .unterminatedString ∧ c = '"') := by
  obtain ⟨cause, hread, rfl, -⟩ := fault_of_next hd
  have hsource : s.skipTrivia.source = s.source := by
    rw [skipTrivia_eq, source_forward]
  have hblank : trivia false s.skipTrivia.ahead = [] := by
    rw [skipTrivia_eq, ahead_forward]
    exact trivia_drop_trivia s.ahead
  rw [← hsource]
  have hcoherent := h.skipTrivia
  have hunreadable := Lexeme.unreadable_of_readAt hread
  generalize hahead : s.skipTrivia.ahead = ahead at hunreadable hblank
  cases hunreadable with
  | @character c rest _ =>
      have hfeed : c ≠ '\n' := by
        rintro rfl
        cases hblank
      exact ⟨_, _, c, hcoherent.pointsAt hahead hfeed _, .inl rfl⟩
  | string => exact ⟨_, _, '"', hcoherent.pointsAt hahead (by decide) _, .inr ⟨rfl, rfl⟩⟩

/-- Behind a string without an end the scanner is at the end of the line that the string
starts on. -/
theorem ends_line_of_next {d : Diagnostic} (hd : (s.next strings).1 = .error d)
    (hcause : d.cause = .unterminatedString) :
    (∀ c ∈ (s.next strings).2.peek, c = '\n') ∧
      ∃ l, d.location = some l ∧ (s.next strings).2.location.line = l.line := by
  obtain ⟨cause, hread, rfl, hafter⟩ := fault_of_next hd
  obtain rfl : cause = .unterminatedString := hcause
  have hunreadable := Lexeme.unreadable_of_readAt hread
  rw [hafter]
  generalize hahead : s.skipTrivia.ahead = ahead at hunreadable
  cases hunreadable with
  | @string rest _ hno =>
      have hpassed := List.prefix_iff_eq_take.mp (rest.takeWhile_prefix isStringPart)
      have hrest : s.skipTrivia.advance.ahead = rest := by
        rw [ahead_advance, hahead, List.drop_one, List.tail_cons]
      have hends := ahead_passWhile isStringPart s.skipTrivia.advance
      rw [hrest] at hends
      rw [Cursor.recovery, List.drop_one, List.tail_cons, Nat.add_comm]
      refine ⟨fun c hc => ?_, _, rfl, ?_⟩
      · rw [peek_eq_head?, forward, hends] at hc
        obtain ⟨tail, htail⟩ := List.head?_eq_some_iff.mp hc
        have hstops := List.head?_dropWhile_not isStringPart rest
        rw [htail] at hstops
        by_contra hfeed
        obtain rfl : c = '"' := by simpa [isStringPart, hfeed] using hstops
        exact hno (Lexeme.quote_mem_takeWhile_iff.mpr ⟨tail, htail⟩)
      · rw [location_forward, hahead, List.take_succ_cons, ← hpassed]
        refine Location.line_advanceOver _ fun hfeed => ?_
        have hpart := List.mem_takeWhile_imp ((List.mem_cons.mp hfeed).resolve_left (by decide))
        exact absurd hpart (by decide)

/-! ## Any number of attempts -/

theorem after_add (strings : Bool) (s : Scanner) (first second : Nat) :
    s.after strings (first + second) = (s.after strings first).after strings second := by
  induction first generalizing s with
  | zero => rw [after, Nat.zero_add]
  | succ first ih => rw [Nat.succ_add, after, after, ih]

/-- What stays as it is over any number of attempts: the text, the name of the file, and that the
counts belong together. -/
structure Reached (file : String) (source : List Char) (s : Scanner) : Prop where
  source : s.source.toList = source
  file : s.location.file = file
  coherent : s.Coherent

theorem Reached.next {file : String} {source : List Char} (h : s.Reached file source) :
    (s.next strings).2.Reached file source := by
  refine ⟨?_, ?_, h.coherent.next⟩
  · rw [h.coherent.next_eq, source_forward, h.source]
  · rw [h.coherent.next_eq, location_forward, Location.file_advanceOver, h.file]

theorem Reached.after {file : String} {source : List Char} (h : s.Reached file source)
    (count : Nat) : (s.after strings count).Reached file source := by
  induction count generalizing s with
  | zero => exact h
  | succ count ih => exact ih h.next

theorem Coherent.attempts_eq (h : s.Coherent) (count : Nat) :
    s.attempts strings count = s.cursor.attempts strings count := by
  induction count generalizing s with
  | zero => rfl
  | succ count ih =>
      have hcursor : (s.next strings).2.cursor = (s.cursor.next strings).2 := by
        rw [h.next_eq, cursor_forward, Cursor.next_snd]
      rw [Scanner.attempts, Cursor.attempts, ih h.next, hcursor, h.next_eq]

theorem attempts_getElem? (s : Scanner) (count : Nat) :
    (s.attempts strings (count + 1))[count]? = some ((s.after strings count).next strings).1 := by
  induction count generalizing s with
  | zero => rfl
  | succ count ih => exact ih (s.next strings).2

/-- However often a scanner is asked for a token, behind faults and behind the end as well, its
counts are those of one place that never moves back, and it answers what reading tokens from the
start of its text gives. A final answer is given from then on. Behind a string without an end the
scanner is at the end of that line. Every fault quotes the whole line that it is on, with a caret
under the character that starts no word or the quote that opens the string. -/
theorem after_coherent (file : String) (strings : Bool) (source : List Char) (count : Nat) :
    let s := (start file source).after strings count
    let answer := (s.next strings).1
    let after := (s.next strings).2
    s.Reached file source ∧ s.position ≤ after.position ∧ after.position ≤ source.length ∧
      after = (start file source).after strings (count + 1) ∧
      ((Cursor.start file source).attempts strings (count + 1))[count]? = some answer ∧
      (Final answer → ∀ more,
        (((start file source).after strings (count + more)).next strings).1 = answer) ∧
      ∀ d, answer = .error d →
        (d.cause = .unterminatedString → (∀ c ∈ after.peek, c = '\n') ∧
          ∃ l, d.location = some l ∧ after.location.line = l.line) ∧
        ∃ l line c, d.PointsAt source l line c ∧
          (d.cause = .illegalCharacter c ∨ d.cause = .unterminatedString ∧ c = '"') := by
  intro s answer after
  have hstart : (start file source).Reached file source := ⟨rfl, rfl, coherent_start file source⟩
  have hs : s.Reached file source := hstart.after count
  have hafter : after.Reached file source := hs.next
  refine ⟨hs, ?_, ?_, ?_, ?_, fun hfinal more => ?_, fun d hd => ⟨ends_line_of_next hd, ?_⟩⟩
  · show s.position ≤ (s.next strings).2.position
    rw [hs.coherent.next_eq]
    exact s.position_le_forward _
  · have hle := hafter.coherent.position_le
    rwa [← Array.length_toList, hafter.source] at hle
  · exact ((start file source).after_add strings count 1).symm
  · rw [← cursor_start, ← hstart.coherent.attempts_eq]
    exact (start file source).attempts_getElem? count
  · rw [after_add]
    exact next_after_of_final hfinal more
  · rw [← hs.source]
    exact hs.coherent.pointsAt_of_next hd

end Scanner

end ImpToC
