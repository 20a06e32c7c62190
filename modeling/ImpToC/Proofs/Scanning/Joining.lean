import ImpToC.Proofs.Layout.Places
import ImpToC.Proofs.Scanning.Runs
import ImpToC.Proofs.Scanning.Stops

/-!
# Texts joined at a line feed

No word and no comment goes over a line feed. So a text is scanned like its part up to a line feed
and like the part behind it, with the lines of the second part counted on from those of the first.
-/

namespace ImpToC

/-! ## Further down -/

/-- A location some lines further down, in the same column. -/
def Location.below (lines : Nat) (l : Location) : Location := { l with line := l.line + lines }

/-- The same mistake some lines further down. It quotes the same line. -/
def Diagnostic.below (lines : Nat) (d : Diagnostic) : Diagnostic :=
  ⟨⟨d.cause, d.location.map (Location.below lines)⟩, d.sourceLine⟩

namespace Scan

/-- What a scan gives some lines further down. -/
def below (lines : Nat) (s : Scan) : Scan where
  words := s.words.map (Token.relocate (Location.below lines))
  ending :=
    match s.ending with
    | .ok finish => .ok (finish.below lines)
    | .error d => .error (d.below lines)

/-- What a scan gives behind some other words. -/
def prepend (words : List Token) (s : Scan) : Scan := ⟨words ++ s.words, s.ending⟩

end Scan

section Rows

variable (file : String) (front before ahead : List Char)

/-- Back to the last line feed, nothing is to be seen of what is in front of it. -/
theorem takeWhile_reverse_feed :
    (front ++ '\n' :: before).reverse.takeWhile (· ≠ '\n') =
      before.reverse.takeWhile (· ≠ '\n') := by
  rw [List.reverse_append, List.reverse_cons, List.append_assoc, List.singleton_append]
  induction before.reverse with
  | nil => simp
  | cons c begun ih =>
      by_cases hc : c = '\n'
      · simp [hc]
      · simpa [hc] using ih

/-- A place behind a line feed is further down by all lines up to there. -/
theorem Location.behind_feed :
    behind file (front ++ '\n' :: before) = (behind file before).below (1 + front.count '\n') := by
  unfold behind below
  rw [takeWhile_reverse_feed, List.count_append, List.count_cons_self,
    Location.mk.injEq]
  refine ⟨?_, rfl, rfl⟩
  dsimp only
  omega

theorem Cursor.line_between_feed :
    (between file (front ++ '\n' :: before) ahead).line = (between file before ahead).line := by
  unfold line between
  rw [takeWhile_reverse_feed]

end Rows

/-- A text behind a line feed is scanned as if nothing were in front of it, but further down. -/
theorem Scanned.behind_feed {strings : Bool} {file : String} {before text : List Char}
    {scan : Scan} (h : Scanned strings file before text scan) (front : List Char) :
    Scanned strings file (front ++ '\n' :: before) text (scan.below (1 + front.count '\n')) := by
  have happend (before gap : List Char) :
      front ++ '\n' :: before ++ gap = front ++ '\n' :: (before ++ gap) := by simp
  -- What is in front of the line feed is seen in locations only, and in no quoted line.
  induction h with
  | @finish before gap hgap =>
      show Scanned strings file _ gap ⟨[], .ok ((Location.behind file (before ++ gap)).below _)⟩
      rw [← Location.behind_feed, ← happend]
      exact .finish hgap
  | @fault before gap ahead cause hgap hahead hread =>
      show Scanned strings file _ (gap ++ ahead) ⟨[], .error
        ⟨cause.fault ((Location.behind file (before ++ gap)).below _),
          some (String.ofList (Cursor.between file (before ++ gap) ahead).line)⟩⟩
      rw [← Location.behind_feed, ← Cursor.line_between_feed file front, ← happend]
      exact .fault hgap hahead hread
  | @word before gap rest lexeme scan hgap hword hlongest _ ih =>
      show Scanned strings file _ (gap ++ (lexeme.spelling ++ rest))
        ((scan.below _).cons ⟨lexeme, (Location.behind file (before ++ gap)).below _⟩)
      rw [← Location.behind_feed, ← happend]
      rw [← happend, ← happend] at ih
      exact .word hgap hword hlongest ih

/-! ## In front of a line feed -/

/-- What has no separator in it goes on up to a separator at most. -/
theorem isPrefix_of_separator {word text more : List Char} {c : Char} (hword : c ∉ word)
    (h : word <+: text ++ c :: more) : word <+: text := by
  rcases List.prefix_or_prefix_of_prefix h (List.prefix_append text _) with hpart | ⟨rest, rfl⟩
  · exact hpart
  · rw [List.prefix_append_right_inj] at h
    cases rest with
    | nil => simp
    | cons d rest =>
        obtain ⟨rfl, -⟩ := List.cons_prefix_cons.mp h
        simp at hword

theorem Lexeme.Word.no_feed {strings : Bool} {w : Lexeme} (h : w.Word strings) :
    '\n' ∉ w.spelling := by
  have hsymbol : ∀ s ∈ Symbol.marks ++ Symbol.words, '\n' ∉ s.spelling.toList := by decide
  have hpart : ∀ text : List Char, (∀ c ∈ text, isNamePart c = true) → '\n' ∉ text :=
    fun text hall hmem => absurd (hall _ hmem) (by decide)
  cases h with
  | mark hs => exact hsymbol _ (List.mem_append_left _ hs)
  | keyword hs => exact hsymbol _ (List.mem_append_right _ (mem_keywords.mp hs).1)
  | int _ hall =>
      rw [spelling_int]
      exact hpart _ fun c hc => isNamePart_of_isDigit (hall c hc)
  | @float whole fraction _ hall hfraction =>
      have hwhole := hpart whole fun c hc => isNamePart_of_isDigit (hall c hc)
      have hrest := hpart fraction fun c hc => isNamePart_of_isDigit (hfraction c hc)
      simp [hwhole, hrest]
  | @name c rest hstart hrest _ =>
      rw [spelling, String.toList_ofList]
      exact hpart _ (List.forall_mem_cons.mpr ⟨isNamePart_of_isNameStart hstart, hrest⟩)
  | @string text _ htext =>
      have hmem : '\n' ∉ text := fun hmem => absurd (htext _ hmem) (by decide)
      simp [spelling, hmem]

theorem Lexeme.Longest.append_feed {strings : Bool} {w : Lexeme} {text : List Char}
    (h : w.Longest strings text) (more : List Char) :
    w.Longest strings (text ++ '\n' :: more) :=
  fun other hother hstands => h other hother (isPrefix_of_separator hother.no_feed hstands)

/-- Trivia stay what they are if a line feed follows behind the text. -/
theorem Trivia.append_feed {ahead gap : List Char} (h : Trivia ahead gap) (more : List Char) :
    Trivia (ahead ++ '\n' :: more) gap := by
  induction h with
  | nil => exact .nil
  | blank hblank _ ih => exact .blank hblank ih
  | @comment text gap htext hend _ ih =>
      apply Trivia.comment htext _ ih
      rw [← List.append_assoc]
      cases hrest : gap ++ ahead with
      | nil =>
          rintro c ⟨⟩
          rfl
      | cons d rest =>
          rw [hrest] at hend
          exact hend

/-- A text with a line feed behind it gives its tokens, and what follows goes on from there. -/
theorem Tokenized.scanned_append_feed {strings : Bool} {file : String} {before text : List Char}
    {words : List Token} {finish : Location} (h : Tokenized strings file before text words finish)
    {more : List Char} {scan : Scan}
    (hmore : Scanned strings file (before ++ text ++ ['\n']) more scan) :
    Scanned strings file before (text ++ '\n' :: more) (scan.prepend words) := by
  induction h with
  | @finish before gap hgap =>
      -- The line feed ends a comment, and is one more blank otherwise.
      have hgap' : Trivia (['\n'] ++ more) gap := hgap.append_feed more
      rw [List.append_cons]
      rw [List.append_assoc] at hmore
      exact hmore.behind_trivia (hgap'.append (.blank (by decide) .nil))
  | @word before gap rest lexeme words finish hgap hword hlongest _ ih =>
      have hgap' := hgap.append_feed more
      have hlongest' := hlongest.append_feed more
      rw [List.append_assoc] at hgap' hlongest' 
      rw [List.append_assoc, List.append_assoc]
      apply Scanned.word hgap' hword hlongest' (ih _)
      simpa using hmore

/-- Scanning goes line by line. If the first of two texts has tokens, the text that joins them at a
line feed has these tokens, but not the end of the first text, and behind them the tokens of the
second text, with the same columns and further down by all lines of the first. If the second text
stops with a mistake, the joined text stops with the same one, which quotes the same line and is
further down as well. -/
theorem Sentence.ofSource_append_feed {file : String} {strings : Bool} {first second : List Char}
    {s : Sentence} (h : ofSource file strings first = .ok s) :
    let below := Location.below (1 + first.count '\n')
    (∀ s', ofSource file strings second = .ok s' →
      ∃ joined, ofSource file strings (first ++ '\n' :: second) = .ok joined ∧
        joined.tokens = s.words ++ s'.tokens.map (Token.relocate below)) ∧
    ∀ d, ofSource file strings second = .error d →
      ∃ d' l, ofSource file strings (first ++ '\n' :: second) = .error d' ∧
        d'.cause = d.cause ∧ d'.sourceLine = d.sourceLine ∧
        d.location = some l ∧ d'.location = some (below l) := by
  intro below
  have hsecond := (Cursor.scanned strings file [] second).behind_feed first
  have hjoined := ((ofSource_eq_ok_iff.mp h).scanned_append_feed hsecond).scan_eq
  constructor
  · intro s' hs'
    rw [Cursor.scan_of_tokenized (ofSource_eq_ok_iff.mp hs')] at hjoined
    obtain ⟨joined, hok, hwords, hfinish⟩ := exists_ofSource_of_scan hjoined
    refine ⟨joined, hok, ?_⟩
    simp [tokens, hwords, hfinish, Scan.below, Token.relocate, below]
  · intro d hd
    rw [ofSource_eq_error_iff] at hd
    simp only [ofSource_eq_error_iff, hjoined]
    cases hscan : (Cursor.between file [] second).scan strings with
    | mk words ending =>
        rw [hscan] at hd
        obtain rfl : ending = .error d := hd
        obtain ⟨front, ahead, cause, -, hstops⟩ := Cursor.exists_stopsAt hscan
        obtain rfl := hstops.diagnostic
        exact ⟨_, _, rfl, rfl, rfl, rfl, rfl⟩

/-- The quote in the comment has no part in the string without an end on the next line. -/
theorem Sentence.ofSource_append_feed_string :
    ∃ d, ofSource defaultFile true ("x # \"".toList ++ '\n' :: "\"a".toList) = .error d ∧
      d.cause = .unterminatedString ∧ d.sourceLine = some "\"a" ∧
      d.location = some ⟨2, 1, defaultFile⟩ := by
  have hfirst : ofSource defaultFile true "x # \"".toList =
      .ok ⟨[⟨.name "x", ⟨1, 1, defaultFile⟩⟩], ⟨1, 6, defaultFile⟩, by decide⟩ := by decide +kernel
  have hsecond : ofSource defaultFile true "\"a".toList =
      .error ⟨Cause.unterminatedString.fault ⟨1, 1, defaultFile⟩, some "\"a"⟩ := by decide +kernel
  obtain ⟨d, l, hjoined, hcause, hline, hl, hbelow⟩ :=
    (ofSource_append_feed hfirst).2 _ hsecond
  cases hl
  exact ⟨d, hjoined, hcause, hline, hbelow⟩

end ImpToC
