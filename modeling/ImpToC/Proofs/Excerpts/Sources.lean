import ImpToC.Compilation.Result
import ImpToC.Proofs.Excerpts.Lines
import ImpToC.Proofs.Excerpts.Places
import ImpToC.Proofs.Staging

/-!
# The lines that diagnostics quote

A lexical mistake quotes the line that its location counts, with the caret under the first character
at its place. All others quote the wide line with the number of their location. That is the same line
if all breaks up to its end are line feeds; another break in front of it makes it another line.
-/

namespace ImpToC

namespace Diagnostic

/-- A diagnostic quotes the line of a location, up to a carriage return at its end, and the caret is
under the first character of what is ahead there. -/
structure ShowsLine (d : Diagnostic) (source : List Char) (l : Location) (quoted : String)
    (ahead : List Char) : Prop where
  row : ∃ row, Text.lineAt? (Text.feedLines source) l.line = some row ∧
    (quoted.toList = row ∨ quoted.toList = Text.withoutReturn row)
  caret : ∃ index : Nat, l.column = index + 1 ∧
    (∀ c ∈ ahead.head?, ("    " ++ quoted).toList[4 + index]? = some c) ∧
    ∃ message hint, d.report = message :: ("    " ++ quoted) ::
      String.ofList (List.replicate (4 + index) ' ' ++ ['^']) :: hint

variable {d : Diagnostic} {quoted : String}

/-- What quotes the row of a place shows the line there. -/
theorem showsLine_of_row {file : String} {before ahead : List Char}
    (hl : d.location = some (.behind file before)) (hquoted : d.sourceLine = some quoted)
    (hrow : quoted.toList = (Cursor.between file before ahead).line ∨
      quoted.toList = Text.withoutReturn (Cursor.between file before ahead).line)
    (hblank : ∀ c ∈ ahead.head?, isBlank c = false) :
    d.ShowsLine (before ++ ahead) (.behind file before) quoted ahead := by
  obtain ⟨rows, begun, hplace⟩ := Cursor.exists_inRow file before ahead
  have hcolumn : (Location.behind file before).column = begun.length + 1 := by
    rw [hplace.location]
  refine ⟨⟨_, Cursor.lineAt?_feedLines file before ahead, hrow⟩, begun.length, hcolumn, ?_,
    exists_report hl hquoted hcolumn⟩
  intro c hc
  -- Neither a line feed nor a carriage return, so the character is in the row and stays there.
  have hfeed : c ≠ '\n' := by
    intro heq
    cases heq ▸ hblank c hc
  have hreturn : c ≠ '\r' := by
    intro heq
    cases heq ▸ hblank c hc
  have hmoved : ("    " ++ quoted).toList = [' ', ' ', ' ', ' '] ++ quoted.toList := by simp
  have hchar : quoted.toList[begun.length]? = some c := by
    cases hrow with
    | inl hrow =>
        rw [hrow]
        exact hplace.getElem?_line hc hfeed
    | inr hrow =>
        rw [hrow, Text.getElem?_withoutReturn hreturn]
        exact hplace.getElem?_line hc hfeed
  rw [hmoved, Nat.add_comm]
  exact hchar

end Diagnostic

/-! ## Stages -/

/-- What the last stage finds wrong quotes no line. -/
theorem Program.sourceLine_of_code {p : Program} {symbols : Table String Ty}
    {types : Table Nat Ty} {d : Diagnostic} (h : p.code symbols types = .error d) :
    d.sourceLine = none := by
  unfold code at h
  split at h
  next => cases h
  next =>
    cases h
    rfl

/-- What a diagnostic quotes of a source, at a place between two parts of it. -/
structure Source.Quotes (source : Source) (d : Diagnostic) (quoted : String) (l : Location)
    (front ahead : List Char) : Prop where
  location : d.location = some l
  splits : source.SplitsAt l front ahead
  shows : d.cause.family = .lexical ∨
      Text.breaksAtFeeds (front ++ ahead.takeWhile (· ≠ '\n')) = true →
    d.ShowsLine source.text l quoted ahead
  wide : d.cause.family ≠ .lexical → Text.lineAt? source.lines l.line = some quoted.toList

namespace Source

variable {source : Source} {quoted : String}

theorem quotes_of_scan {d : Diagnostic} (h : source.scan = .error d)
    (hquoted : d.sourceLine = some quoted) :
    ∃ l front ahead, source.Quotes d quoted l front ahead := by
  have hfamily := (finds_of_scan h).family_eq
  rw [scan, Sentence.ofSource_eq_error_iff] at h
  cases hscan : (Cursor.between source.file [] source.text).scan source.strings with
  | mk words ending =>
      rw [hscan] at h
      cases ending with
      | ok finish => cases h
      | error d' =>
          cases h
          obtain ⟨front, ahead, cause, htext, hstops⟩ := Cursor.exists_stopsAt hscan
          have hrow := congrArg Diagnostic.sourceLine hstops.diagnostic
          rw [hquoted] at hrow
          have hlocation := congrArg Diagnostic.location hstops.diagnostic
          refine ⟨_, front, ahead, hlocation, ⟨htext, rfl⟩, fun _ => ?_, absurd hfamily⟩
          rw [htext]
          apply Diagnostic.showsLine_of_row hlocation hquoted
          · left
            rw [Option.some.inj hrow]
            exact String.toList_ofList
          · exact not_isBlank_of_trivia hstops.noTrivia

/-- A mistake at a token of a source quotes the wide line with the number of its location. -/
theorem quotes_of_tokens {s : Sentence} {fault : Fault} (h : source.scan = .ok s)
    (hfamily : fault.cause.family ≠ .lexical)
    (hmem : ∀ l, fault.location = some l → l ∈ s.tokens.map Token.location)
    (hquoted : (fault.quoting source.lines).sourceLine = some quoted) :
    ∃ l front ahead, source.Quotes (fault.quoting source.lines) quoted l front ahead := by
  obtain ⟨l, hl, hmap⟩ := Option.bind_eq_some_iff.mp hquoted
  obtain ⟨line, hline, rfl⟩ := Option.map_eq_some_iff.mp hmap
  obtain ⟨t, ht, rfl⟩ := List.mem_map.mp (hmem l hl)
  obtain ⟨front, ahead, hsplit, hblank⟩ := exists_splitsAt h t ht
  refine ⟨_, front, ahead, hl, hsplit, fun hbreaks => ?_, fun _ => ?_⟩
  · have hrow := hbreaks.resolve_left hfamily
    have hplace : (fault.quoting source.lines).location = some (.behind source.file front) := by
      rw [← hsplit.location]
      exact hl
    rw [hsplit.text, hsplit.location]
    apply Diagnostic.showsLine_of_row hplace hquoted _ hblank
    right
    rw [String.toList_ofList]
    apply Cursor.eq_withoutReturn_of_lineAt? source.file hrow
    rw [← hsplit.text, ← hsplit.location]
    exact hline
  · rw [String.toList_ofList]
    exact hline

variable [Host]

/-- Whatever stops a compilation, if it quotes a line at all. -/
theorem quotes_of_advance {c : Compilation} {d : Diagnostic} (hmade : c.Made source)
    (h : c.advance source = .error d) (hquoted : d.sourceLine = some quoted) :
    ∃ l front ahead, source.Quotes d quoted l front ahead := by
  have hstage := Compilation.advance_eq_error_iff.mp h
  cases c with
  | started => exact quotes_of_scan hstage hquoted
  | scanned s =>
      obtain ⟨fault, hfault, rfl⟩ := Sentence.parse_eq_error_iff.mp hstage
      obtain ⟨t, ht, hl⟩ := Parser.location_mem_of_parse hfault
      have hfamily := Parser.family_of_parse_eq_error hfault
      apply quotes_of_tokens hmade (by simp [hfamily]) _ hquoted
      intro l hl'
      rw [hl] at hl'
      cases hl'
      exact List.mem_map_of_mem ht
  | parsed s p =>
      obtain ⟨fault, t, hfault, rfl⟩ := Program.typing_eq_error_iff.mp hstage
      have hfamily := (Typing.finds_of_extend hfault).family_eq
      apply quotes_of_tokens hmade.1 (by simp [hfamily, Stage.family]) _ hquoted
      intro l hl
      exact Typing.location_mem_of_extend hmade.2 hfault hl
  | typed s p t =>
      rw [Program.sourceLine_of_code hstage] at hquoted
      cases hquoted
  | generated => exact hstage.elim

end Source

namespace Options

variable [Host]

/-- A text is turned down for what stops it on the way. -/
theorem compile_eq_error_iff {o : Options} {file : Option String} {text : List Char}
    {d : Diagnostic} :
    o.compile file text = .error d ↔
      (Compilation.upTo (o.source file text) o.last).2 = some d := by
  show ((o.source file text).compile o.last).map _ = .error d ↔ _
  rcases (o.source file text).compile_cases o.last with ⟨c, hrun, hcompile⟩ | ⟨c, d', hrun, hcompile⟩
  · rw [hrun, hcompile]
    simp [Except.map]
  · rw [hrun, hcompile]
    simp [Except.map]

/-- A mistake that quotes a line is at a place of its text. If it is lexical, or if all breaks of the
text up to the end of the line are line feeds (each may have a carriage return in front of it), it
quotes the line that its location counts, and the caret stands under the character at its place. A
mistake of another family quotes the line with the number of its location among the wide lines. -/
theorem compile_quotes_line (o : Options) (file : Option String) (text : List Char)
    {d : Diagnostic} {quoted : String} (h : o.compile file text = .error d)
    (hquoted : d.sourceLine = some quoted) :
    ∃ l front ahead, (o.source file text).Quotes d quoted l front ahead := by
  have hcount : Compilation.started.passed + o.last.count ≤ 4 := by cases o.last <;> decide
  have hstart : Compilation.started.Made (o.source file text) := trivial
  have hrun := Compilation.run_outcome hstart hcount
  have hstop := compile_eq_error_iff.mp h
  rw [Compilation.upTo] at hstop
  split at hrun
  next hend =>
    rw [hend] at hstop
    cases hstop
  next hend =>
    rw [hend] at hstop
    cases hstop
    exact Source.quotes_of_advance hrun.1 hrun.2.2 hquoted

omit [Host] in
/-- Behind a comment that ends in a carriage return and a line feed the right line is quoted. -/
theorem compile_quotes_line_return :
    ∃ d, @standard.compile .unlimited none "# a\r\nprint x;".toList = .error d ∧
      d.sourceLine = some "print x;" ∧
      d.ShowsLine "# a\r\nprint x;".toList ⟨2, 7, defaultFile⟩ "print x;" "x;".toList := by
  have hcompile : @standard.compile .unlimited none "# a\r\nprint x;".toList = .error
      ⟨(Cause.undeclaredVariable "x" []).fault ⟨2, 7, defaultFile⟩, some "print x;"⟩ := by
    apply (@compile_eq_error_iff .unlimited ..).mpr
    decide +kernel
  obtain ⟨l, front, ahead, hquotes⟩ :=
    @compile_quotes_line .unlimited standard none _ _ _ hcompile rfl
  obtain rfl := Option.some.inj hquotes.location
  have hsplit : (standard.source none "# a\r\nprint x;".toList).SplitsAt ⟨2, 7, defaultFile⟩
      "# a\r\nprint ".toList "x;".toList := ⟨by decide, by decide⟩
  obtain ⟨rfl, rfl⟩ := hsplit.unique hquotes.splits
  exact ⟨_, hcompile, rfl, hquotes.shows (.inr (by decide))⟩

omit [Host] in
/-- A form feed breaks a wide line, and the line above is quoted behind it. -/
theorem compile_quotes_other_line :
    ∃ d, @standard.compile .unlimited none "\x0c\nprint x;".toList = .error d ∧
      d.location = some ⟨2, 7, defaultFile⟩ ∧ d.sourceLine = some "" ∧
      Text.lineAt? (Text.feedLines "\x0c\nprint x;".toList) 2 = some "print x;".toList ∧
      ¬ d.ShowsLine "\x0c\nprint x;".toList ⟨2, 7, defaultFile⟩ "" "x;".toList := by
  have hline : Text.lineAt? (Text.feedLines "\x0c\nprint x;".toList) 2 =
      some "print x;".toList := by decide
  refine ⟨⟨(Cause.undeclaredVariable "x" []).fault ⟨2, 7, defaultFile⟩, some ""⟩, ?_, rfl, rfl,
    hline, fun hshows => ?_⟩
  · apply (@compile_eq_error_iff .unlimited ..).mpr
    decide +kernel
  · obtain ⟨row, hrow, hquoted⟩ := hshows.row
    obtain rfl := Option.some.inj (hline.symm.trans hrow)
    revert hquoted
    decide

end Options

end ImpToC
