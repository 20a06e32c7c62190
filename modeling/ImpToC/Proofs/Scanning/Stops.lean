import ImpToC.Proofs.Scanning.Places
import ImpToC.Proofs.Scanning.Runs

/-!
# Where scanning stops

Scanning stops at the first place of a text where no word can be read. The text in front of that
place is scanned as if it ended there.
-/

namespace ImpToC

namespace Lexeme

variable {strings : Bool}

/-- A word that is the longest in a text is the longest in a part of it. -/
theorem Longest.of_isPrefix {w : Lexeme} {text part : List Char} (h : w.Longest strings text)
    (hpart : part <+: text) : w.Longest strings part :=
  fun other hother hstands => h other hother (hstands.trans hpart)

end Lexeme

/-- Trivia in front of a text are trivia in front of a part of it. -/
theorem Trivia.of_isPrefix {ahead part gap : List Char} (h : Trivia ahead gap)
    (hpart : part <+: ahead) : Trivia part gap := by
  induction h with
  | nil => exact .nil
  | blank hblank _ ih => exact .blank hblank ih
  | @comment text gap htext hend _ ih =>
      obtain ⟨more, rfl⟩ := hpart
      refine .comment htext (fun c hc => hend c ?_) ih
      rw [← List.append_assoc]
      exact List.mem_head?_append_of_mem_head? hc

/-- A cursor comes up to a place where no word can be read, and the tokens in front of it are
those of a text that ends there. -/
structure Cursor.StopsAt (strings : Bool) (file : String) (before front ahead : List Char)
    (words : List Token) (cause : Cause) (d : Diagnostic) : Prop where
  tokenized : Tokenized strings file before front words (.behind file (before ++ front))
  unreadable : Lexeme.readAt strings ahead = .error cause
  diagnostic : d = ⟨cause.fault (.behind file (before ++ front)),
    some (String.ofList (Cursor.between file (before ++ front) ahead).line)⟩
  noTrivia : trivia false ahead = []

theorem Scanned.exists_stopsAt {strings : Bool} {file : String} {before text : List Char}
    {scan : Scan} {d : Diagnostic} (h : Scanned strings file before text scan)
    (hd : scan.ending = .error d) :
    ∃ front ahead cause, text = front ++ ahead ∧
      Cursor.StopsAt strings file before front ahead scan.words cause d := by
  induction h with
  | finish => cases hd
  | @fault before gap ahead cause hgap hahead hread =>
      cases hd
      exact ⟨gap, ahead, cause, rfl, .finish (hgap.of_isPrefix List.nil_prefix), hread, rfl, hahead⟩
  | @word before gap rest lexeme scan hgap hword hlongest _ ih =>
      obtain ⟨front, ahead, cause, rfl, htokenized, hunreadable, hdiagnostic, hnone⟩ := ih hd
      -- The word is read as well if the text ends in front of what cannot be read.
      have hpart : lexeme.spelling ++ front <+: lexeme.spelling ++ (front ++ ahead) :=
        ⟨ahead, List.append_assoc _ _ _⟩
      have hbefore : before ++ (gap ++ (lexeme.spelling ++ front)) =
          before ++ gap ++ lexeme.spelling ++ front := by
        simp
      refine ⟨gap ++ (lexeme.spelling ++ front), ahead, cause, by simp, ?_, hunreadable, ?_, hnone⟩
      · rw [hbefore]
        exact .word (hgap.of_isPrefix hpart) hword (hlongest.of_isPrefix hpart) htokenized
      · rw [hbefore, hdiagnostic]

theorem Cursor.exists_stopsAt {strings : Bool} {file : String} {before text : List Char}
    {words : List Token} {d : Diagnostic}
    (h : (Cursor.between file before text).scan strings = ⟨words, .error d⟩) :
    ∃ front ahead cause, text = front ++ ahead ∧
      Cursor.StopsAt strings file before front ahead words cause d := by
  have hscanned := Cursor.scanned strings file before text
  rw [h] at hscanned
  exact hscanned.exists_stopsAt rfl

/-- A lexical fault is at the first place of a text where no word can be read, and says why. The
text in front of that place is scanned without a fault: it has the tokens that are read before
the fault, and it ends at the place of the fault. -/
theorem Source.scan_front_of_fault {source : Source} {words : List Token} {d : Diagnostic}
    (h : (Cursor.start source.file source.text).scan source.strings = ⟨words, .error d⟩) :
    (∃ l front ahead, d.location = some l ∧ source.SplitsAt l front ahead) ∧
      ∀ l front ahead, d.location = some l → source.SplitsAt l front ahead →
        (Cursor.start source.file front).scan source.strings = ⟨words, .ok l⟩ ∧
          Lexeme.Unreadable source.strings ahead d.cause := by
  rw [Cursor.start_eq_between] at h
  obtain ⟨front, ahead, cause, htext, htokenized, hread, rfl⟩ := Cursor.exists_stopsAt h
  have hsplit : source.SplitsAt (.behind source.file front) front ahead := ⟨htext, rfl⟩
  refine ⟨⟨_, front, ahead, rfl, hsplit⟩, fun l front' ahead' hl hsplit' => ?_⟩
  cases hl
  obtain ⟨rfl, rfl⟩ := hsplit.unique hsplit'
  exact ⟨Cursor.scan_of_tokenized htokenized, Lexeme.unreadable_of_readAt hread⟩

/-- In `a 1.@ "` the name and the number are read in front of the character that starts no
word. -/
theorem Source.scan_front_of_fault_point :
    let source : Source := ⟨defaultFile, true, "a 1.@ \"".toList⟩
    ∃ words d l,
      (Cursor.start source.file source.text).scan source.strings = ⟨words, .error d⟩ ∧
      words.map Token.lexeme = [.name "a", .float ⟨"1.", rfl⟩] ∧
      d.cause = .illegalCharacter '@' ∧ d.location = some l ∧
      (Cursor.start source.file "a 1.".toList).scan source.strings = ⟨words, .ok l⟩ ∧
      ∀ w : Lexeme, w.Word source.strings → w.spelling.head? ≠ some '@' := by
  intro source
  have hwords : ((Cursor.start source.file source.text).scan source.strings).words.map
      Token.lexeme = [.name "a", .float ⟨"1.", rfl⟩] := by decide +kernel
  have hending : ((Cursor.start source.file source.text).scan source.strings).ending =
      .error ⟨(Cause.illegalCharacter '@').fault ⟨1, 5, defaultFile⟩, some "a 1.@ \""⟩ := by
    decide +kernel
  cases hscan : (Cursor.start source.file source.text).scan source.strings with
  | mk words ending =>
      rw [hscan] at hwords hending
      obtain rfl := hending
      have hsplit : source.SplitsAt ⟨1, 5, defaultFile⟩ "a 1.".toList "@ \"".toList :=
        ⟨by decide, by decide⟩
      obtain ⟨hfront, hunreadable⟩ := (scan_front_of_fault hscan).2 _ _ _ rfl hsplit
      refine ⟨words, _, _, rfl, hwords, rfl, rfl, hfront, ?_⟩
      cases hunreadable with
      | character hnone => exact hnone

end ImpToC
