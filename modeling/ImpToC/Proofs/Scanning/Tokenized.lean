import ImpToC.Proofs.Scanning.Words

/-!
# Texts and their tokens

How tokens lie in a source text: trivia, a word, trivia, a word, and so on, with trivia
at the end. Each word is the longest one at its place, and its location counts the lines
and characters in front of it. Reading a text finds its tokens exactly when they lie in
it like this.
-/

namespace ImpToC

/-! ## Locations -/

/-- The place behind the beginning of a text: its line counts the line feeds before it,
and its column the characters behind the last of them. -/
def Location.behind (file : String) (text : List Char) : Location :=
  ⟨1 + text.count '\n', 1 + (text.reverse.takeWhile (· ≠ '\n')).length, file⟩

theorem Location.behind_snoc (file : String) (text : List Char) (c : Char) :
    behind file (text ++ [c]) = (behind file text).advance c := by
  by_cases h : c = '\n'
  · simp [behind, advance, h, List.count_append, Int.add_assoc]
  · simp [behind, advance, h, List.count_append, Int.add_assoc]

theorem Location.behind_append (file : String) (first second : List Char) :
    behind file (first ++ second) = (behind file first).advanceOver second := by
  induction second generalizing first with
  | nil => simp
  | cons c rest ih =>
      rw [advanceOver_cons, ← behind_snoc, ← ih]
      simp

/-! ## Trivia -/

/-- Blanks and comments in front of some text. A comment goes up to the end of its
line. -/
inductive Trivia (ahead : List Char) : List Char → Prop
  | nil : Trivia ahead []
  | blank {c : Char} {gap : List Char} : isBlank c → Trivia ahead gap → Trivia ahead (c :: gap)
  | comment {text gap : List Char} : (∀ c ∈ text, c ≠ '\n') →
      (∀ c ∈ (gap ++ ahead).head?, c = '\n') → Trivia ahead gap →
      Trivia ahead ('#' :: (text ++ gap))

theorem trivia_true_append {text rest : List Char} (htext : ∀ c ∈ text, c ≠ '\n')
    (hrest : ∀ c ∈ rest.head?, c = '\n') :
    trivia true (text ++ rest) = text ++ trivia false rest := by
  induction text with
  | nil =>
      cases rest with
      | nil => rfl
      | cons c rest =>
          obtain rfl := hrest c rfl
          rfl
  | cons c text ih =>
      obtain ⟨hc, htext⟩ := List.forall_mem_cons.mp htext
      simp [trivia, hc, ih htext]

/-- Trivia are passed over where none follow. -/
theorem Trivia.trivia_append {ahead gap : List Char} (h : Trivia ahead gap)
    (hahead : trivia false ahead = []) : trivia false (gap ++ ahead) = gap := by
  induction h with
  | nil => exact hahead
  | blank hblank _ ih => simp [trivia, hblank, ih]
  | comment htext hend _ ih =>
      have hmark : isBlank '#' = false := by decide
      simp [trivia, hmark, trivia_true_append htext hend, ih]

/-- A text starts with the trivia that are passed over there, and none follow. -/
def StartsWithTrivia (text : List Char) : Prop :=
  ∃ gap ahead, text = gap ++ ahead ∧ trivia false text = gap ∧ Trivia ahead gap ∧
    trivia false ahead = []

/-- Inside a comment, the rest of it is passed over, and then as anywhere. -/
def StartsInComment (text : List Char) : Prop :=
  ∃ comment rest, text = comment ++ rest ∧ trivia true text = comment ++ trivia false rest ∧
    (∀ c ∈ comment, c ≠ '\n') ∧ (∀ c ∈ rest.head?, c = '\n') ∧ StartsWithTrivia rest

theorem startsWithTrivia_blank {c : Char} {text : List Char} (hc : isBlank c = true)
    (h : StartsWithTrivia text) : StartsWithTrivia (c :: text) := by
  obtain ⟨gap, ahead, rfl, hgap, htrivia, hahead⟩ := h
  exact ⟨c :: gap, ahead, rfl, by simp [trivia, hc, hgap], .blank hc htrivia, hahead⟩

theorem startsWithTrivia_comment {text : List Char} (h : StartsInComment text) :
    StartsWithTrivia ('#' :: text) := by
  obtain ⟨comment, _, rfl, hread, hcomment, hend, gap, ahead, rfl, hgap, htrivia, hahead⟩ := h
  have hmark : isBlank '#' = false := by decide
  refine ⟨'#' :: (comment ++ gap), ahead, by simp, ?_, .comment hcomment hend htrivia, hahead⟩
  simp [trivia, hmark, hread, hgap]

theorem startsInComment_cons {c : Char} {text : List Char} (hfresh : StartsWithTrivia (c :: text))
    (h : StartsInComment text) : StartsInComment (c :: text) := by
  by_cases hc : c = '\n'
  · subst hc
    exact ⟨[], '\n' :: text, rfl, rfl, by simp, by simp, hfresh⟩
  · obtain ⟨comment, rest, rfl, hread, hcomment, hend, hrest⟩ := h
    exact ⟨c :: comment, rest, rfl, by simp [trivia, hc, hread],
      List.forall_mem_cons.mpr ⟨hc, hcomment⟩, hend, hrest⟩

theorem startsWithTrivia_cons {c : Char} {text : List Char} (hfresh : StartsWithTrivia text)
    (hcomment : StartsInComment text) : StartsWithTrivia (c :: text) := by
  by_cases hblank : isBlank c = true
  · exact startsWithTrivia_blank hblank hfresh
  · by_cases hmark : c = '#'
    · subst hmark
      exact startsWithTrivia_comment hcomment
    · exact ⟨[], c :: text, rfl, by simp [trivia, hblank, hmark], .nil,
        by simp [trivia, hblank, hmark]⟩

/-- What is passed over at the start of any text is trivia, and none follow. -/
theorem startsWithTrivia (text : List Char) : StartsWithTrivia text := by
  suffices h : StartsWithTrivia text ∧ StartsInComment text from h.1
  induction text with
  | nil =>
      have hnil : StartsWithTrivia [] := ⟨[], [], rfl, rfl, .nil, rfl⟩
      exact ⟨hnil, [], [], rfl, rfl, by simp, by simp, hnil⟩
  | cons c text ih =>
      have hfresh : StartsWithTrivia (c :: text) := startsWithTrivia_cons ih.1 ih.2
      exact ⟨hfresh, startsInComment_cons hfresh ih.2⟩

/-! ## Tokens -/

/-- Some tokens and an end lie in a text that follows another one. -/
inductive Tokenized (strings : Bool) (file : String) :
    List Char → List Char → List Token → Location → Prop
  | finish {before gap : List Char} :
      Trivia [] gap → Tokenized strings file before gap [] (.behind file (before ++ gap))
  | word {before gap rest : List Char} {lexeme : Lexeme} {words : List Token} {finish : Location} :
      Trivia (lexeme.spelling ++ rest) gap → lexeme.Word strings →
      lexeme.Longest strings (lexeme.spelling ++ rest) →
      Tokenized strings file (before ++ gap ++ lexeme.spelling) rest words finish →
      Tokenized strings file before (gap ++ (lexeme.spelling ++ rest))
        (⟨lexeme, .behind file (before ++ gap)⟩ :: words) finish

/-- The end of a text lies in no place but the last. -/
theorem Tokenized.lexeme_ne_finish {strings : Bool} {file : String} {before text : List Char}
    {words : List Token} {finish : Location} (h : Tokenized strings file before text words finish) :
    ∀ t ∈ words, t.lexeme ≠ .finish := by
  induction h with
  | finish => simp
  | word _ hword _ _ ih =>
      refine List.forall_mem_cons.mpr ⟨fun hfinish => ?_, ih⟩
      dsimp only at hfinish
      rw [hfinish] at hword
      cases hword

theorem Tokenized.word_lexeme {strings : Bool} {file : String} {before text : List Char}
    {words : List Token} {finish : Location} (h : Tokenized strings file before text words finish) :
    ∀ t ∈ words, t.lexeme.Word strings := by
  induction h with
  | finish => exact nofun
  | word _ hword _ _ ih => exact List.forall_mem_cons.mpr ⟨hword, ih⟩

namespace Cursor

/-- The cursor between two parts of a text. -/
def between (file : String) (before ahead : List Char) : Cursor :=
  ⟨before.reverse, ahead, .behind file before⟩

variable {strings : Bool} {gap rest : List Char} {lexeme : Lexeme} (file : String)
  (before : List Char)

theorem start_eq_between (source : List Char) :
    start file source = between file [] source := rfl

theorem move_between (passed rest : List Char) :
    (between file before (passed ++ rest)).move passed.length =
      between file (before ++ passed) rest := by
  simp [between, move, Location.behind_append]

theorem skipTrivia_between (hgap : Trivia rest gap) (hrest : trivia false rest = []) :
    (between file before (gap ++ rest)).skipTrivia = between file (before ++ gap) rest := by
  rw [skipTrivia, show (between file before (gap ++ rest)).ahead = gap ++ rest from rfl,
    hgap.trivia_append hrest, move_between]

theorem next_between (hgap : Trivia rest gap) (hrest : trivia false rest = [])
    (hread : Lexeme.readAt strings rest = .ok lexeme) :
    (between file before (gap ++ rest)).next strings =
      (.ok ⟨lexeme, .behind file (before ++ gap)⟩,
        (between file (before ++ gap) rest).move lexeme.spelling.length) := by
  unfold next
  rw [skipTrivia_between file before hgap hrest]
  dsimp only [between]
  rw [hread]

theorem next_between_error {cause : Cause} (hgap : Trivia rest gap)
    (hrest : trivia false rest = []) (hread : Lexeme.readAt strings rest = .error cause) :
    (between file before (gap ++ rest)).next strings =
      (.error ⟨cause.fault (.behind file (before ++ gap)),
          some (String.ofList (between file (before ++ gap) rest).line)⟩,
        (between file (before ++ gap) rest).move (recovery cause rest)) := by
  unfold next
  rw [skipTrivia_between file before hgap hrest]
  dsimp only [between]
  rw [hread]

theorem scan_of_next {c d : Cursor} {t : Token} (h : c.next strings = (.ok t, d)) :
    c.scan strings =
      if t.lexeme = .finish then ⟨[], .ok t.location⟩ else (d.scan strings).cons t := by
  rw [scan]
  split
  next hnext => rw [h] at hnext; cases hnext
  next hnext => rw [h] at hnext; cases hnext; simp

theorem scan_of_next_error {c c' : Cursor} {d : Diagnostic}
    (h : c.next strings = (.error d, c')) : c.scan strings = ⟨[], .error d⟩ := by
  rw [scan]
  split
  next hnext => rw [h] at hnext; cases hnext; rfl
  next hnext => rw [h] at hnext; cases hnext

/-- Where only trivia are left, the end of the text is read. -/
theorem scan_finish (hgap : Trivia [] gap) :
    (between file before gap).scan strings = ⟨[], .ok (.behind file (before ++ gap))⟩ := by
  have hread : Lexeme.readAt strings [] = .ok .finish := rfl
  have hnext := next_between file before hgap rfl hread
  rw [List.append_nil] at hnext
  exact scan_of_next hnext

/-- Behind some trivia the longest word is read. -/
theorem scan_word (hgap : Trivia (lexeme.spelling ++ rest) gap) (hword : lexeme.Word strings)
    (hlongest : lexeme.Longest strings (lexeme.spelling ++ rest)) :
    (between file before (gap ++ (lexeme.spelling ++ rest))).scan strings =
      ((between file (before ++ gap ++ lexeme.spelling) rest).scan strings).cons
        ⟨lexeme, .behind file (before ++ gap)⟩ := by
  obtain ⟨c, text, hspelling, hblank, hmark⟩ := hword.exists_spelling
  have hnone : trivia false (lexeme.spelling ++ rest) = [] := by
    simp [hspelling, trivia, hblank, hmark]
  have hread : Lexeme.readAt strings (lexeme.spelling ++ rest) = .ok lexeme :=
    (Lexeme.readAt_eq_ok_iff (by simp [hspelling])).mpr
      ⟨hword, List.prefix_append _ _, hlongest⟩
  have hfinish : lexeme ≠ .finish := by
    rintro rfl
    cases hword
  rw [scan_of_next (next_between file before hgap hnone hread), move_between, if_neg hfinish]

theorem scan_of_tokenized {file : String} {before text : List Char} {words : List Token}
    {finish : Location} (h : Tokenized strings file before text words finish) :
    (between file before text).scan strings = ⟨words, .ok finish⟩ := by
  induction h with
  | finish hgap => exact scan_finish _ _ hgap
  | word hgap hword hlongest _ ih => rw [scan_word _ _ hgap hword hlongest, ih, Scan.cons]

theorem tokenized_of_scan {file : String} {before text : List Char} {words : List Token}
    {finish : Location}
    (h : (between file before text).scan strings = ⟨words, .ok finish⟩) :
    Tokenized strings file before text words finish := by
  induction hn : text.length using Nat.strong_induction_on generalizing before text words with
  | _ n ih =>
    obtain ⟨gap, ahead, rfl, -, hgap, hahead⟩ := startsWithTrivia text
    cases hread : Lexeme.readAt strings ahead with
    | error cause =>
        have hnext := next_between_error file before hgap hahead hread
        cases (scan_of_next_error hnext).symm.trans h
    | ok lexeme =>
        by_cases hnil : ahead = []
        · subst hnil
          rw [List.append_nil, scan_finish _ _ hgap] at h
          cases h
          rw [List.append_nil]
          exact .finish hgap
        · obtain ⟨hword, ⟨rest, rfl⟩, hlongest⟩ := (Lexeme.readAt_eq_ok_iff hnil).mp hread
          rw [scan_word _ _ hgap hword hlongest] at h
          cases hscan : (between file (before ++ gap ++ lexeme.spelling) rest).scan strings with
          | mk tail ending =>
              rw [hscan] at h
              cases h
              obtain ⟨c, text, hspelling, -⟩ := hword.exists_spelling
              have hshorter : rest.length < n := by
                simp only [← hn, hspelling, List.length_append, List.length_cons]
                omega
              exact .word hgap hword hlongest (ih _ hshorter hscan rfl)

end Cursor

theorem Scan.sentence_eq_ok_iff {scan : Scan} {h : ∀ t ∈ scan.words, t.lexeme ≠ .finish}
    {s : Sentence} : scan.sentence h = .ok s ↔ scan = ⟨s.words, .ok s.finish⟩ := by
  obtain ⟨words, ending⟩ := scan
  obtain ⟨words', finish, hfinish⟩ := s
  cases ending <;> simp [Scan.sentence]

theorem Scan.sentence_eq_error_iff {scan : Scan} {h : ∀ t ∈ scan.words, t.lexeme ≠ .finish}
    {d : Diagnostic} : scan.sentence h = .error d ↔ scan.ending = .error d := by
  obtain ⟨words, ending⟩ := scan
  cases ending <;> simp [Scan.sentence]

theorem Sentence.ofSource_eq_error_iff {file : String} {strings : Bool} {source : List Char}
    {d : Diagnostic} :
    ofSource file strings source = .error d ↔
      ((Cursor.between file [] source).scan strings).ending = .error d :=
  Scan.sentence_eq_error_iff

theorem Sentence.ofSource_congr {file : String} {strings : Bool} {source source' : List Char}
    (h : (Cursor.between file [] source).scan strings =
      (Cursor.between file [] source').scan strings) :
    ofSource file strings source = ofSource file strings source' := by
  simp only [ofSource, Cursor.start_eq_between, h]

theorem Sentence.ofSource_eq_ok_iff {file : String} {strings : Bool} {source : List Char}
    {s : Sentence} :
    ofSource file strings source = .ok s ↔
      Tokenized strings file [] source s.words s.finish := by
  rw [ofSource, Scan.sentence_eq_ok_iff, Cursor.start_eq_between]
  exact ⟨Cursor.tokenized_of_scan, Cursor.scan_of_tokenized⟩

theorem Sentence.exists_ofSource_of_scan {file : String} {strings : Bool} {source : List Char}
    {words : List Token} {finish : Location}
    (h : (Cursor.between file [] source).scan strings = ⟨words, .ok finish⟩) :
    ∃ s, ofSource file strings source = .ok s ∧ s.words = words ∧ s.finish = finish := by
  have htokenized := Cursor.tokenized_of_scan h
  let s : Sentence := ⟨words, finish, htokenized.lexeme_ne_finish⟩
  exact ⟨s, ofSource_eq_ok_iff.mpr htokenized, rfl, rfl⟩

/-- A source text makes a sentence exactly when the tokens of the sentence lie in it: each
is the longest word at its place, only trivia stand between them, and all is counted in the
locations. The end of the text is the last token and no other. -/
theorem ofSource_maximal_munch (file : String) (strings : Bool) (source : List Char)
    (s : Sentence) :
    (Sentence.ofSource file strings source = .ok s ↔
      Tokenized strings file [] source s.words s.finish) ∧
    (Tokenized strings file [] source s.words s.finish → ∀ t ∈ s.words, t.lexeme ≠ .finish) := by
  exact ⟨Sentence.ofSource_eq_ok_iff, Tokenized.lexeme_ne_finish⟩

end ImpToC
