import ImpToC.Proofs.Endings.Lines
import ImpToC.Proofs.Excerpts.Sources
import ImpToC.Proofs.Scanning.Joining

/-!
# Sources with other line endings

Scanning a text whose only carriage returns are those in front of line feeds gives the words of the
text without them, at the same places, or stops at the same place. What the later stages make of the
words depends on the words and on the wide lines, and both are the same.
-/

namespace ImpToC

open Text

/-! ## Words -/

namespace Lexeme

variable {strings : Bool}

/-- No blank is a part of a word, unless the word is a string. -/
theorem Word.not_isBlank {w : Lexeme} (h : w.Word strings) (hkind : w.kind ≠ .string) :
    ∀ c ∈ w.spelling, isBlank c = false := by
  have hsymbol (s : Symbol) (hs : s ∈ Symbol.marks ++ Symbol.words) :
      ∀ c ∈ s.spelling.toList, isBlank c = false := by
    have hnone : ∀ s ∈ Symbol.marks ++ Symbol.words, s.spelling.toList.any isBlank = false := by
      decide
    exact fun c hc => Bool.eq_false_iff.mpr (List.any_eq_false.mp (hnone s hs) c hc)
  have hpart {c : Char} (hc : isNamePart c = true) : isBlank c = false :=
    (not_isBlank_of_isNamePart hc).1
  intro c hc
  cases h with
  | mark hs => exact hsymbol _ (List.mem_append_left _ hs) c hc
  | keyword hs => exact hsymbol _ (List.mem_append_right _ (mem_keywords.mp hs).1) c hc
  | int _ hall =>
      rw [spelling_int] at hc
      exact hpart (isNamePart_of_isDigit (hall c hc))
  | float _ hall hfraction =>
      rw [spelling_float, List.mem_append, List.mem_cons] at hc
      rcases hc with hc | rfl | hc
      · exact hpart (isNamePart_of_isDigit (hall c hc))
      · decide
      · exact hpart (isNamePart_of_isDigit (hfraction c hc))
  | name hstart hrest _ =>
      rw [spelling, String.toList_ofList, List.mem_cons] at hc
      rcases hc with rfl | hc
      · exact hpart (isNamePart_of_isNameStart hstart)
      · exact hpart (hrest c hc)
  | string => exact absurd rfl hkind

/-- In a string a carriage return would have another part of the string behind it, or the quote. -/
theorem Word.no_return {w : Lexeme} {rest : List Char} (h : w.Word strings)
    (hreturns : returnsAtFeeds (w.spelling ++ rest) = true) : '\r' ∉ w.spelling := by
  intro hmem
  by_cases hkind : w.kind = .string
  · cases h with
    | @string text _ htext =>
        have hinside : '\r' ∈ text := by simpa [spelling] using hmem
        obtain ⟨front, back, rfl⟩ := List.append_of_mem hinside
        have hback : returnsAtFeeds ('\r' :: (back ++ '"' :: rest)) = true := by
          apply @returnsAtFeeds_of_append ('"' :: front)
          simpa [spelling] using hreturns
        have hnext := (returnsAtFeeds_cons.mp hback).1 rfl
        cases back with
        | nil => cases hnext
        | cons c back =>
            obtain rfl := Option.some.inj hnext
            have hpart := htext '\n' (by simp)
            exact absurd hpart (by decide)
    | _ => cases hkind
  · exact absurd (h.not_isBlank hkind _ hmem) (by decide)

/-- The longest word at a place is the longest there without the carriage returns. -/
theorem Longest.withoutReturns {w : Lexeme} {text : List Char} (h : w.Longest strings text)
    (hreturns : returnsAtFeeds text = true) : w.Longest strings (withoutReturns text) := by
  intro other hother hstands
  exact h other hother (isPrefix_of_withoutReturns hother.no_feed hreturns hstands)

/-- Why no word can be read at a place is told by the first character there. -/
theorem cause_of_readAt {c : Char} {rest rest' : List Char} {cause cause' : Cause}
    (h : readAt strings (c :: rest) = .error cause)
    (h' : readAt strings (c :: rest') = .error cause') : cause = cause' := by
  have hquote (hstrings : strings = true) : Word strings (.string "") := .string hstrings nofun
  cases unreadable_of_readAt h with
  | character hnone =>
      cases unreadable_of_readAt h' with
      | character => rfl
      | string hstrings => exact absurd rfl (hnone _ (hquote hstrings))
  | string hstrings =>
      cases unreadable_of_readAt h' with
      | character hnone => exact absurd rfl (hnone _ (hquote hstrings))
      | string => rfl

/-- Where no word can be read none can without the carriage returns, and for the same cause. -/
theorem readAt_withoutReturns {text : List Char} {cause : Cause}
    (h : readAt strings text = .error cause) (hnone : trivia false text = [])
    (hreturns : returnsAtFeeds text = true) :
    readAt strings (withoutReturns text) = .error cause := by
  cases text with
  | nil => cases h
  | cons c rest =>
      have hblank := not_isBlank_of_trivia hnone c rfl
      have hc : c ≠ '\r' := by
        rintro rfl
        cases hblank
      have hcons := withoutReturns_cons_of_ne hc rest
      rw [hcons]
      cases hread : readAt strings (c :: withoutReturns rest) with
      | error cause' => rw [cause_of_readAt h hread]
      | ok w =>
          -- A word that can be read there stands in the text with the carriage returns as well.
          obtain ⟨hword, hstands, -⟩ := (readAt_eq_ok_iff (List.cons_ne_nil _ _)).mp hread
          rw [← hcons] at hstands
          obtain ⟨more, hmore⟩ := isPrefix_of_withoutReturns hword.no_feed hreturns hstands
          obtain ⟨other, hother, -⟩ := exists_readAt_of_word hword more
          rw [hmore, h] at hother
          cases hother

end Lexeme

/-! ## Trivia -/

theorem Trivia.withoutReturns {ahead gap : List Char} (h : Trivia ahead gap) :
    Trivia (withoutReturns ahead) (withoutReturns gap) := by
  induction h with
  | nil => exact .nil
  | @blank c gap hblank _ ih =>
      by_cases hc : c = '\r'
      · subst hc
        exact ih
      · rw [withoutReturns_cons_of_ne hc]
        exact .blank hblank ih
  | @comment text gap htext hend _ ih =>
      rw [withoutReturns_cons_of_ne (by decide), withoutReturns_append]
      refine .comment (fun c hc => htext c (mem_withoutReturns.mp hc).1) ?_ ih
      rw [← withoutReturns_append]
      cases hrest : gap ++ ahead with
      | nil => exact nofun
      | cons d rest =>
          rw [hrest] at hend
          obtain rfl := hend d rfl
          exact hend

theorem trivia_withoutReturns {ahead : List Char} (h : trivia false ahead = []) :
    trivia false (withoutReturns ahead) = [] := by
  cases ahead with
  | nil => rfl
  | cons c rest =>
      have hblank := not_isBlank_of_trivia h c rfl
      have hc : c ≠ '\r' := by
        rintro rfl
        cases hblank
      rw [withoutReturns_cons_of_ne hc]
      simp only [trivia, hblank, Bool.false_eq_true, if_false] at h ⊢
      split
      next hmark => simp [hmark] at h
      next => rfl

/-! ## Scans -/

/-- The same scan, or one that stops at the same mistake behind the same words, where the row that
is quoted has a carriage return at its end. -/
inductive Scan.UpToReturn : Scan → Scan → Prop
  | same (scan : Scan) : UpToReturn scan scan
  | ending {words : List Token} {fault : Fault} {row : String} :
      UpToReturn ⟨words, .error ⟨fault, some (row ++ "\r")⟩⟩ ⟨words, .error ⟨fault, some row⟩⟩

theorem Scan.UpToReturn.cons {scan scan' : Scan} (h : UpToReturn scan scan') (t : Token) :
    UpToReturn (scan.cons t) (scan'.cons t) := by
  cases h with
  | same => exact .same _
  | ending => exact .ending

/-- A text is scanned as it is without its carriage returns. -/
theorem Scanned.exists_upToReturn {strings : Bool} {file : String} {before text : List Char}
    {scan : Scan} (h : Scanned strings file before text scan)
    (hreturns : returnsAtFeeds (before ++ text) = true) :
    ∃ scan', Scanned strings file (withoutReturns before) (withoutReturns text) scan' ∧
      scan.UpToReturn scan' := by
  induction h with
  | @finish before gap hgap =>
      rw [← Location.behind_withoutReturns file (.of_returnsAtFeeds _ hreturns),
        withoutReturns_append]
      exact ⟨_, .finish hgap.withoutReturns, .same _⟩
  | @fault before gap ahead cause hgap hahead hread =>
      rw [← List.append_assoc] at hreturns
      have hfront : ahead.head? ≠ some '\n' := by
        intro hfeed
        cases not_isBlank_of_trivia hahead _ hfeed
      have hplace := Location.behind_withoutReturns file
        (.of_returnsAtFeeds _ (returnsAtFeeds_front hfront hreturns))
      have hread' := Lexeme.readAt_withoutReturns hread hahead (returnsAtFeeds_of_append hreturns)
      have hscanned := @fault strings file (withoutReturns before) _ _ cause
        hgap.withoutReturns (trivia_withoutReturns hahead) hread'
      rw [← withoutReturns_append, ← withoutReturns_append, hplace] at hscanned
      refine ⟨_, hscanned, ?_⟩
      rcases Cursor.line_cases file hreturns with hrow | hrow
      · rw [hrow]
        exact .same _
      · rw [hrow, String.ofList_append]
        exact .ending
  | @word before gap rest lexeme scan hgap hword hlongest _ ih =>
      rw [← List.append_assoc] at hreturns
      have hrest := returnsAtFeeds_of_append hreturns
      have hspelling := withoutReturns_of_not_mem (hword.no_return hrest)
      have hfront : (lexeme.spelling ++ rest).head? ≠ some '\n' := by
        intro hfeed
        cases not_isBlank_of_trivia (hword.trivia_eq_nil rest) _ hfeed
      have hplace := Location.behind_withoutReturns file
        (.of_returnsAtFeeds _ (returnsAtFeeds_front hfront hreturns))
      have hgap' := hgap.withoutReturns
      have hlongest' := hlongest.withoutReturns hrest
      rw [withoutReturns_append, hspelling] at hgap' hlongest'
      rw [← List.append_assoc] at hreturns
      obtain ⟨scan', hscanned, hsame⟩ := ih hreturns
      rw [withoutReturns_append, withoutReturns_append, hspelling] at hscanned
      refine ⟨_, ?_, hsame.cons _⟩
      rw [withoutReturns_append, withoutReturns_append, hspelling, ← hplace, withoutReturns_append]
      exact .word hgap' hword hlongest' hscanned

/-! ## Compilations -/

namespace Compilation

variable [Host] {source source' : Source}

/-- A stage looks at nothing of a source but its words and its wide lines. -/
theorem advance_congr (hscan : source.scan = source'.scan) (hlines : source.lines = source'.lines)
    (c : Compilation) : c.advance source = c.advance source' := by
  cases c with
  | started => rw [advance, advance, hscan]
  | scanned s => rw [advance, advance, hlines]
  | parsed s p => rw [advance, advance, hlines]
  | typed | generated => rfl

theorem run_congr (hscan : source.scan = source'.scan) (hlines : source.lines = source'.lines)
    (stages : Nat) (c : Compilation) : run source stages c = run source' stages c := by
  induction stages generalizing c with
  | zero => rfl
  | succ stages ih =>
      rw [run, run, advance_congr hscan hlines]
      split
      next next _ => exact ih next
      next => rfl

end Compilation

namespace Source

variable {source source' : Source}

theorem compile_congr [Host] (hscan : source.scan = source'.scan) (hlines : source.lines = source'.lines)
    (last : Stage) : source.compile last = source'.compile last := by
  rw [compile, compile, Compilation.upTo, Compilation.upTo, Compilation.run_congr hscan hlines]

/-- A lexical mistake stops every compilation. -/
theorem compile_of_scan_eq_error [Host] {d : Diagnostic} (h : source.scan = .error d) (last : Stage) :
    source.compile last = .error d := by
  have hadvance : Compilation.started.advance source = .error d :=
    Compilation.advance_eq_error_iff.mpr h
  obtain ⟨stages, hstages⟩ : ∃ stages, last.count = stages + 1 := by
    cases last <;> exact ⟨_, rfl⟩
  rw [compile, Compilation.upTo, hstages, Compilation.run, hadvance]

/-- A source without the carriage returns in its text. -/
def withoutReturns (source : Source) : Source :=
  { source with text := Text.withoutReturns source.text }

/-- A source gives the sentence that it gives without its carriage returns, or it stops at the same
mistake. -/
theorem scan_withoutReturns (h : returnsAtFeeds source.text = true) :
    source.scan = source.withoutReturns.scan ∨
      ∃ (fault : Fault) (row : String), source.withoutReturns.scan = .error ⟨fault, some row⟩ ∧
        source.scan = .error ⟨fault, some (row ++ "\r")⟩ := by
  have hscanned := Cursor.scanned source.strings source.file [] source.text
  obtain ⟨bare, hbare, hsame⟩ := hscanned.exists_upToReturn h
  have hscan' := hbare.scan_eq
  cases hscan : (Cursor.between source.file [] source.text).scan source.strings with
  | mk words ending =>
      rw [hscan] at hsame
      cases hsame with
      | same =>
          left
          exact Sentence.ofSource_congr (hscan.trans hscan'.symm)
      | ending =>
          right
          exact ⟨_, _, Sentence.ofSource_eq_error_iff.mpr (congrArg Scan.ending hscan'),
            Sentence.ofSource_eq_error_iff.mpr (congrArg Scan.ending hscan)⟩

theorem compile_withoutReturns [Host] (h : returnsAtFeeds source.text = true) (last : Stage) :
    source.compile last = source.withoutReturns.compile last ∨
      ∃ (fault : Fault) (row : String), fault.cause.family = .lexical ∧
        source.withoutReturns.compile last = .error ⟨fault, some row⟩ ∧
        source.compile last = .error ⟨fault, some (row ++ "\r")⟩ := by
  rcases scan_withoutReturns h with hscan | ⟨fault, row, hscan', hscan⟩
  · left
    exact compile_congr hscan (lines_withoutReturns (.of_returnsAtFeeds _ h)).symm last
  · right
    exact ⟨fault, row, (finds_of_scan hscan').family_eq, compile_of_scan_eq_error hscan' last,
      compile_of_scan_eq_error hscan last⟩

end Source

namespace Options

/-- A text in which each carriage return stands right in front of a line feed is compiled like the
text in which these lines end in the line feed alone, which is also the text that is read from a
file with it. There is the same to show for the stages that are chosen, with all tokens at the same
places, or the same mistake with the same line quoted. Only the row that a lexical mistake quotes
may have the carriage return at its end. -/
theorem compile_feedEndings [Host] (o : Options) (file : Option String) {text : List Char}
    (h : Text.returnsAtFeeds text = true) :
    Text.uniformEndings text = Text.feedEndings text ∧
      (o.compile file text = o.compile file (Text.feedEndings text) ∨
        ∃ (fault : Fault) (row : String), fault.cause.family = .lexical ∧
          o.compile file (Text.feedEndings text) = .error ⟨fault, some row⟩ ∧
          o.compile file text = .error ⟨fault, some (row ++ "\r")⟩) := by
  have hpaired := Text.Paired.of_returnsAtFeeds text h
  refine ⟨Text.uniformEndings_eq hpaired, ?_⟩
  rw [Text.feedEndings_eq hpaired]
  have hcompile (text : List Char) : o.compile file text =
      ((o.source file text).compile o.last).map
        (Compilation.result (o.source file text).file) := rfl
  have hsource : (o.source file text).withoutReturns =
      o.source file (Text.withoutReturns text) := rfl
  have hcases := (o.source file text).compile_withoutReturns h o.last
  rw [hsource] at hcases
  rw [hcompile, hcompile]
  rcases hcases with heq | ⟨fault, row, hfamily, hbare, htext⟩
  · left
    rw [heq]
    rfl
  · right
    rw [hbare, htext]
    exact ⟨fault, row, hfamily, rfl, rfl⟩

/-- Behind a comment with a quote the checker finds the same mistake and quotes the same line. -/
theorem compile_feedEndings_comment :
    ∃ d, @standard.compile .unlimited none "# \"\r\nprint x;\r\n".toList = .error d ∧
      d.location = some ⟨2, 7, defaultFile⟩ ∧ d.sourceLine = some "print x;" := by
  have hbare : @standard.compile .unlimited none (
      Text.feedEndings "# \"\r\nprint x;\r\n".toList) = .error
      ⟨(Cause.undeclaredVariable "x" []).fault ⟨2, 7, defaultFile⟩, some "print x;"⟩ := by
    apply (@compile_eq_error_iff .unlimited ..).mpr
    decide +kernel
  have hreturns : Text.returnsAtFeeds "# \"\r\nprint x;\r\n".toList = true := by decide
  rcases (@compile_feedEndings .unlimited standard none _ hreturns).2 with
    heq | ⟨fault, row, hfamily, hbare', -⟩
  · exact ⟨_, heq.trans hbare, rfl, rfl⟩
  · cases hbare.symm.trans hbare'
    cases hfamily

end Options

end ImpToC
