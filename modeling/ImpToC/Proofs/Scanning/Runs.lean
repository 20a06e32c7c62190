import ImpToC.Proofs.Scanning.Tokenized

/-!
# Runs of a scan

From any place of a text, scanning passes over some trivia. Then the text ends there, or what
follows cannot be read, or a word is read and scanning goes on behind it.
-/

namespace ImpToC

/-- Trivia in front of other trivia. -/
theorem Trivia.append {ahead gap more : List Char} (h : Trivia (more ++ ahead) gap)
    (hmore : Trivia ahead more) : Trivia ahead (gap ++ more) := by
  induction h with
  | nil => exact hmore
  | blank hblank _ ih => exact .blank hblank ih
  | @comment text gap htext hend _ ih =>
      rw [List.cons_append, List.append_assoc]
      apply Trivia.comment htext _ ih
      rwa [List.append_assoc]

/-- No trivia stand at the beginning of a word. -/
theorem Lexeme.Word.trivia_eq_nil {strings : Bool} {w : Lexeme} (h : w.Word strings)
    (rest : List Char) : trivia false (w.spelling ++ rest) = [] := by
  obtain ⟨c, text, hspelling, hblank, hmark⟩ := h.exists_spelling
  simp [hspelling, trivia, hblank, hmark]

/-- The longest word at a place is read there. -/
theorem Lexeme.Word.readAt_eq {strings : Bool} {w : Lexeme} {rest : List Char}
    (h : w.Word strings) (hlongest : w.Longest strings (w.spelling ++ rest)) :
    readAt strings (w.spelling ++ rest) = .ok w := by
  obtain ⟨c, text, hspelling, -⟩ := h.exists_spelling
  exact (readAt_eq_ok_iff (by simp [hspelling])).mpr ⟨h, List.prefix_append _ _, hlongest⟩

/-- What scanning makes of a text that follows another one, step by step. -/
inductive Scanned (strings : Bool) (file : String) : List Char → List Char → Scan → Prop
  | finish {before gap : List Char} :
      Trivia [] gap → Scanned strings file before gap ⟨[], .ok (.behind file (before ++ gap))⟩
  | fault {before gap ahead : List Char} {cause : Cause} :
      Trivia ahead gap → trivia false ahead = [] →
      Lexeme.readAt strings ahead = .error cause →
      Scanned strings file before (gap ++ ahead)
        ⟨[], .error ⟨cause.fault (.behind file (before ++ gap)),
          some (String.ofList (Cursor.between file (before ++ gap) ahead).line)⟩⟩
  | word {before gap rest : List Char} {lexeme : Lexeme} {scan : Scan} :
      Trivia (lexeme.spelling ++ rest) gap → lexeme.Word strings →
      lexeme.Longest strings (lexeme.spelling ++ rest) →
      Scanned strings file (before ++ gap ++ lexeme.spelling) rest scan →
      Scanned strings file before (gap ++ (lexeme.spelling ++ rest))
        (scan.cons ⟨lexeme, .behind file (before ++ gap)⟩)

namespace Scanned

variable {strings : Bool} {file : String} {before text gap : List Char} {scan : Scan}

/-- The steps lead to what a scan gives. -/
theorem scan_eq (h : Scanned strings file before text scan) :
    (Cursor.between file before text).scan strings = scan := by
  induction h with
  | finish hgap => exact Cursor.scan_finish file _ hgap
  | fault hgap hahead hread =>
      exact Cursor.scan_of_next_error (Cursor.next_between_error file _ hgap hahead hread)
  | word hgap hword hlongest _ ih => rw [Cursor.scan_word file _ hgap hword hlongest, ih]

/-- Trivia in front of a text are passed over. -/
theorem behind_trivia (h : Scanned strings file (before ++ gap) text scan) (hgap : Trivia text gap) :
    Scanned strings file before (gap ++ text) scan := by
  cases h with
  | finish hmore =>
      rw [List.append_assoc]
      rw [← List.append_nil text] at hgap
      exact .finish (hgap.append hmore)
  | fault hmore hahead hread =>
      rw [List.append_assoc, ← List.append_assoc gap]
      exact .fault (hgap.append hmore) hahead hread
  | @word _ more rest lexeme scan hmore hword hlongest hrest =>
      rw [List.append_assoc before, ← List.append_assoc gap]
      rw [List.append_assoc before] at hrest
      exact .word (hgap.append hmore) hword hlongest hrest

end Scanned

/-- Every text is scanned step by step. -/
theorem Cursor.scanned (strings : Bool) (file : String) (before text : List Char) :
    Scanned strings file before text ((between file before text).scan strings) := by
  suffices h : ∃ scan, Scanned strings file before text scan by
    obtain ⟨scan, hscan⟩ := h
    rwa [hscan.scan_eq]
  induction hn : text.length using Nat.strong_induction_on generalizing before text with
  | _ n ih =>
    obtain ⟨gap, ahead, rfl, -, hgap, hahead⟩ := startsWithTrivia text
    cases hread : Lexeme.readAt strings ahead with
    | error cause => exact ⟨_, .fault hgap hahead hread⟩
    | ok lexeme =>
        by_cases hnil : ahead = []
        · subst hnil
          rw [List.append_nil]
          exact ⟨_, .finish hgap⟩
        · obtain ⟨hword, ⟨rest, rfl⟩, hlongest⟩ := (Lexeme.readAt_eq_ok_iff hnil).mp hread
          have hshorter : rest.length < n := by
            obtain ⟨c, text, hspelling, -⟩ := hword.exists_spelling
            simp only [← hn, hspelling, List.length_append, List.length_cons]
            omega
          obtain ⟨scan, hscan⟩ := ih _ hshorter (before ++ gap ++ lexeme.spelling) rest rfl
          exact ⟨_, .word hgap hword hlongest hscan⟩

end ImpToC
