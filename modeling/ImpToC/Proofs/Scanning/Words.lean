import Mathlib.Data.List.Basic
import Mathlib.Data.List.TakeWhile
import ImpToC.Token.Lexer

/-!
# Words of a source text

The lexical grammar says which spellings there are, without saying how they are found:
marks, keywords, numbers, names and strings. Reading at a place finds a word exactly
when one of them stands there, and then the longest.
-/

namespace ImpToC

/-- The keywords of the language, with strings or without. -/
def Symbol.keywords (strings : Bool) : List Symbol :=
  if strings then words else words.filter (· ≠ .stringWord)

namespace Lexeme

/-- The words of the lexical grammar. -/
inductive Word (strings : Bool) : Lexeme → Prop
  /-- One punctuation character. -/
  | mark {s : Symbol} : s ∈ Symbol.marks → Word strings (.symbol s)
  | keyword {s : Symbol} : s ∈ Symbol.keywords strings → Word strings (.symbol s)
  /-- A run of digits. -/
  | int {digits : List Char} : digits ≠ [] → (h : ∀ c ∈ digits, isDigit c) →
      Word strings (.int (.ofDigits digits h))
  /-- A run of digits, a point, and digits that may be missing. -/
  | float {whole fraction : List Char} : whole ≠ [] → (hwhole : ∀ c ∈ whole, isDigit c) →
      (hfraction : ∀ c ∈ fraction, isDigit c) →
      Word strings (.float (.ofParts whole fraction hwhole hfraction))
  /-- Letters, digits and underscores that do not start with a digit and are no keyword. -/
  | name {c : Char} {rest : List Char} : isNameStart c → (∀ d ∈ rest, isNamePart d) →
      (∀ s ∈ Symbol.keywords strings, s.spelling.toList ≠ c :: rest) →
      Word strings (.name (String.ofList (c :: rest)))
  /-- Characters of one line between quotes, where there are strings. -/
  | string {text : List Char} : strings → (∀ c ∈ text, isStringPart c) →
      Word strings (.string (String.ofList text))

/-- No word is longer than this one at the start of a text. -/
def Longest (strings : Bool) (lexeme : Lexeme) (text : List Char) : Prop :=
  ∀ other, Word strings other → other.spelling <+: text →
    other.spelling.length ≤ lexeme.spelling.length

/-! ## First characters -/

theorem isDigit_eq_false_of_isNameStart {c : Char} (h : isNameStart c = true) :
    isDigit c = false := by
  simp only [isNameStart, isDigit, Bool.or_eq_true, Bool.and_eq_true, decide_eq_true_eq,
    Bool.and_eq_false_iff, decide_eq_false_iff_not, Char.le_def, UInt32.le_iff_toNat_le] at h ⊢
  rcases h with (⟨h, -⟩ | ⟨h, -⟩) | rfl
  · change 97 ≤ c.val.toNat at h
    exact .inr (show ¬ c.val.toNat ≤ 57 by omega)
  · change 65 ≤ c.val.toNat at h
    exact .inr (show ¬ c.val.toNat ≤ 57 by omega)
  · decide

theorem isNamePart_of_isDigit {c : Char} (h : isDigit c = true) : isNamePart c = true := by
  simp [isNamePart, h]

theorem isNamePart_of_isNameStart {c : Char} (h : isNameStart c = true) :
    isNamePart c = true := by
  simp [isNamePart, h]

theorem ofMark?_of_isNamePart {c : Char} (h : isNamePart c = true) : Symbol.ofMark? c = none := by
  have hmarks : ∀ s ∈ Symbol.marks, s.spelling.toList.all isNamePart = false := by decide
  cases hmark : Symbol.ofMark? c with
  | none => rfl
  | some s =>
      have hc := hmarks s (List.mem_of_find?_eq_some hmark)
      simp [ofMark?_spelling hmark, h] at hc

/-- A mark is read where its character stands. -/
theorem exists_of_mem_marks {s : Symbol} (h : s ∈ Symbol.marks) :
    ∃ c, s.spelling.toList = [c] ∧ Symbol.ofMark? c = some s ∧ isBlank c = false ∧ c ≠ '#' := by
  have hlength : ∀ s ∈ Symbol.marks, s.spelling.toList.length = 1 := by decide
  have hread : ∀ s ∈ Symbol.marks, s.spelling.toList.all fun c =>
      decide (Symbol.ofMark? c = some s ∧ isBlank c = false ∧ c ≠ '#') := by
    decide
  obtain ⟨c, hc⟩ := List.length_eq_one_iff.mp (hlength s h)
  exact ⟨c, hc, of_decide_eq_true (List.all_eq_true.mp (hread s h) c (by simp [hc]))⟩

/-- Neither blanks nor comments start like a name or a number. -/
theorem not_isBlank_of_isNamePart {c : Char} (h : isNamePart c = true) :
    isBlank c = false ∧ c ≠ '#' := by
  constructor
  · cases hblank : isBlank c with
    | false => rfl
    | true =>
        simp only [isBlank, Bool.or_eq_true, decide_eq_true_eq] at hblank
        rcases hblank with ((((rfl | rfl) | rfl) | rfl) | rfl) | rfl <;> cases h
  · rintro rfl
    cases h

/-- A keyword is spelt like a name. -/
theorem exists_of_mem_words {s : Symbol} (h : s ∈ Symbol.words) :
    ∃ c rest, s.spelling.toList = c :: rest ∧ isNameStart c = true ∧
      (∀ d ∈ rest, isNamePart d = true) ∧ Symbol.ofWord? s.spelling = some s := by
  have hall : ∀ s ∈ Symbol.words, s.spelling.toList.head?.any isNameStart = true ∧
      s.spelling.toList.tail.all isNamePart = true ∧ Symbol.ofWord? s.spelling = some s := by
    decide
  obtain ⟨hstart, hrest, hword⟩ := hall s h
  cases hs : s.spelling.toList with
  | nil => simp [hs] at hstart
  | cons c rest =>
      rw [hs] at hstart hrest
      exact ⟨c, rest, rfl, hstart, List.all_eq_true.mp hrest, hword⟩

theorem mem_keywords {s : Symbol} {strings : Bool} :
    s ∈ Symbol.keywords strings ↔ s ∈ Symbol.words ∧ (s = .stringWord → strings = true) := by
  cases strings <;> simp [Symbol.keywords]

/-- A word starts with a character that starts no trivia. -/
theorem Word.exists_spelling {strings : Bool} {lexeme : Lexeme} (h : Word strings lexeme) :
    ∃ c rest, lexeme.spelling = c :: rest ∧ isBlank c = false ∧ c ≠ '#' := by
  cases h with
  | mark hs =>
      obtain ⟨c, hc, -, hfirst⟩ := exists_of_mem_marks hs
      exact ⟨c, [], hc, hfirst⟩
  | keyword hs =>
      obtain ⟨c, rest, hc, hstart, -⟩ := exists_of_mem_words (mem_keywords.mp hs).1
      exact ⟨c, rest, hc, not_isBlank_of_isNamePart (isNamePart_of_isNameStart hstart)⟩
  | int hdigits hall =>
      obtain ⟨c, rest, rfl⟩ := List.exists_cons_of_ne_nil hdigits
      exact ⟨c, rest, by simp [spelling],
        not_isBlank_of_isNamePart (isNamePart_of_isDigit (hall c List.mem_cons_self))⟩
  | @float whole fraction hwhole hall _ =>
      obtain ⟨c, rest, rfl⟩ := List.exists_cons_of_ne_nil hwhole
      exact ⟨c, rest ++ '.' :: fraction, by simp [spelling],
        not_isBlank_of_isNamePart (isNamePart_of_isDigit (hall c List.mem_cons_self))⟩
  | @name c rest hstart _ _ =>
      exact ⟨c, rest, by simp [spelling],
        not_isBlank_of_isNamePart (isNamePart_of_isNameStart hstart)⟩
  | @string text => exact ⟨'"', text ++ ['"'], by simp [spelling], by decide, by decide⟩

theorem Word.exists_of_name {strings : Bool} {text : String} (h : Word strings (.name text)) :
    ∃ c rest, text.toList = c :: rest ∧ isNameStart c = true ∧
      ∀ d ∈ rest, isNamePart d = true := by
  cases h with
  | name hstart hrest _ => exact ⟨_, _, String.toList_ofList, hstart, hrest⟩

theorem Word.isNamePart_of_name {strings : Bool} {text : String} (h : Word strings (.name text)) :
    ∀ c ∈ text.toList, isNamePart c = true := by
  obtain ⟨c, rest, htext, hstart, hrest⟩ := h.exists_of_name
  rw [htext]
  exact List.forall_mem_cons.mpr ⟨isNamePart_of_isNameStart hstart, hrest⟩

theorem Word.isStringPart_of_string {strings : Bool} {text : String}
    (h : Word strings (.string text)) : ∀ c ∈ text.toList, isStringPart c = true := by
  cases h with
  | string _ htext =>
      rw [String.toList_ofList]
      exact htext

/-! ## Numbers and names -/

theorem numberAt_eq_int {whole rest : List Char} (hwhole : ∀ c ∈ whole, isDigit c = true)
    (hrest : ∀ c ∈ rest.head?, isDigit c = false ∧ c ≠ '.') :
    numberAt (whole ++ rest) = .int (.ofDigits whole hwhole) := by
  unfold numberAt
  simp only [List.takeWhile_append_of_pos hwhole, List.dropWhile_append_of_pos hwhole]
  cases rest with
  | nil => simp
  | cons c rest =>
      obtain ⟨hdigit, hpoint⟩ := hrest c rfl
      simp [hdigit, hpoint]

theorem numberAt_eq_float {whole rest : List Char} (hwhole : ∀ c ∈ whole, isDigit c = true) :
    numberAt (whole ++ '.' :: rest) =
      .float (.ofParts whole (rest.takeWhile isDigit) hwhole isDigit_of_mem_takeWhile) := by
  have hpoint : isDigit '.' = false := by decide
  unfold numberAt
  simp only [List.takeWhile_append_of_pos hwhole, List.dropWhile_append_of_pos hwhole]
  simp [hpoint]

theorem wordAt_takeWhile (strings : Bool) (text : List Char) :
    wordAt strings (text.takeWhile isNamePart) = wordAt strings text := by
  unfold wordAt
  rw [List.takeWhile_idem]

theorem wordAt_keyword {strings : Bool} {s : Symbol} (h : s ∈ Symbol.keywords strings) :
    wordAt strings s.spelling.toList = .symbol s := by
  obtain ⟨hs, hstring⟩ := mem_keywords.mp h
  obtain ⟨c, rest, hspelling, hstart, hrest, hword⟩ := exists_of_mem_words hs
  have hall : ∀ d ∈ s.spelling.toList, isNamePart d = true := by
    rw [hspelling]
    exact List.forall_mem_cons.mpr ⟨isNamePart_of_isNameStart hstart, hrest⟩
  have hkeyword : ¬ (s = .stringWord ∧ (!strings) = true) := by
    rintro ⟨rfl, hno⟩
    simp [hstring rfl] at hno
  simp only [wordAt, List.takeWhile_eq_self_iff.mpr hall, String.ofList_toList, hword,
    if_neg hkeyword]

theorem wordAt_name {strings : Bool} {word : List Char}
    (hword : ∀ c ∈ word, isNamePart c = true)
    (hname : ∀ s ∈ Symbol.keywords strings, s.spelling.toList ≠ word) :
    wordAt strings word = .name (String.ofList word) := by
  unfold wordAt
  rw [List.takeWhile_eq_self_iff.mpr hword]
  dsimp only
  split
  next s hs =>
    have hspelling : s.spelling.toList = word := by simp [ofWord?_spelling hs]
    have hmem : s ∉ Symbol.keywords strings := fun hmem => hname s hmem hspelling
    have hstring : s = .stringWord ∧ strings = false := by
      simpa [mem_keywords, List.mem_of_find?_eq_some hs] using hmem
    rw [if_pos (by simp [hstring])]
  next => rfl

/-! ## What is read is a word -/

theorem readAt_numberAt {strings : Bool} {c : Char} {rest : List Char} (hc : isDigit c = true) :
    readAt strings (c :: rest) = .ok (numberAt (c :: rest)) := by
  simp [readAt, ofMark?_of_isNamePart (isNamePart_of_isDigit hc), hc]

theorem readAt_wordAt {strings : Bool} {c : Char} {rest : List Char}
    (hc : isNameStart c = true) :
    readAt strings (c :: rest) = .ok (wordAt strings (c :: rest)) := by
  simp [readAt, ofMark?_of_isNamePart (isNamePart_of_isNameStart hc), hc,
    isDigit_eq_false_of_isNameStart hc]

theorem word_numberAt (strings : Bool) {c : Char} {rest : List Char} (hc : isDigit c = true) :
    Word strings (numberAt (c :: rest)) ∧ (numberAt (c :: rest)).spelling <+: c :: rest := by
  have hwhole : (c :: rest).takeWhile isDigit ≠ [] := by simp [hc]
  have hdigits : ∀ d ∈ (c :: rest).takeWhile isDigit, isDigit d = true :=
    fun d hd => List.mem_takeWhile_imp hd
  have htext := List.takeWhile_append_dropWhile (p := isDigit) (l := c :: rest)
  unfold numberAt
  dsimp only
  split
  next tail htail =>
    refine ⟨.float hwhole hdigits fun d hd => List.mem_takeWhile_imp hd, ?_⟩
    rw [htail] at htext
    have hfraction : '.' :: tail.takeWhile isDigit <+: '.' :: tail :=
      List.cons_prefix_cons.mpr ⟨rfl, List.takeWhile_prefix _⟩
    have hspelling := (List.prefix_append_right_inj ((c :: rest).takeWhile isDigit)).mpr hfraction
    rw [htext] at hspelling
    simpa only [spelling_float] using hspelling
  next =>
    refine ⟨.int hwhole hdigits, ?_⟩
    simpa only [spelling_int] using List.takeWhile_prefix isDigit

theorem word_wordAt (strings : Bool) {c : Char} {rest : List Char} (hc : isNameStart c = true) :
    Word strings (wordAt strings (c :: rest)) := by
  have hword : (c :: rest).takeWhile isNamePart = c :: rest.takeWhile isNamePart := by
    simp [isNamePart_of_isNameStart hc]
  have hall : ∀ d ∈ c :: rest.takeWhile isNamePart, isNamePart d = true := by
    rw [← hword]
    exact fun d hd => List.mem_takeWhile_imp hd
  rw [← wordAt_takeWhile, hword]
  by_cases hkeyword :
      ∃ s ∈ Symbol.keywords strings, s.spelling.toList = c :: rest.takeWhile isNamePart
  · obtain ⟨s, hs, hspelling⟩ := hkeyword
    rw [← hspelling, wordAt_keyword hs]
    exact .keyword hs
  · have hname (s : Symbol) (hs : s ∈ Symbol.keywords strings) :
        s.spelling.toList ≠ c :: rest.takeWhile isNamePart := fun h => hkeyword ⟨s, hs, h⟩
    rw [wordAt_name hall hname]
    exact .name hc (List.forall_mem_cons.mp hall).2 hname

theorem word_stringAt {strings : Bool} {text : List Char} {lexeme : Lexeme}
    (hstrings : strings = true) (h : stringAt text = .ok lexeme) :
    Word strings lexeme ∧ lexeme.spelling <+: '"' :: text := by
  have htext := List.takeWhile_append_dropWhile (p := isStringPart) (l := text)
  unfold stringAt at h
  split at h
  next rest hrest =>
    cases h
    refine ⟨.string hstrings fun d hd => List.mem_takeWhile_imp hd, ?_⟩
    rw [hrest] at htext
    exact ⟨rest, by simpa [spelling] using htext⟩
  next => cases h

/-- What is read at a place is a word that stands there. -/
theorem word_of_readAt {strings : Bool} {text : List Char} {lexeme : Lexeme} (htext : text ≠ [])
    (h : readAt strings text = .ok lexeme) :
    Word strings lexeme ∧ lexeme.spelling <+: text := by
  obtain ⟨c, rest, rfl⟩ := List.exists_cons_of_ne_nil htext
  rw [readAt] at h
  split at h
  next s hs =>
    cases h
    exact ⟨.mark (List.mem_of_find?_eq_some hs), rest, by simp [spelling, ofMark?_spelling hs]⟩
  next =>
    split at h
    next hdigit =>
      cases h
      exact word_numberAt strings hdigit
    next =>
      split at h
      next hstart =>
        cases h
        refine ⟨word_wordAt strings hstart, ?_⟩
        rw [wordAt_spelling]
        exact List.takeWhile_prefix _
      next =>
        split at h
        next hquote =>
          obtain ⟨rfl, hstrings⟩ := hquote
          exact word_stringAt hstrings h
        next => cases h

/-! ## The longest word is read -/

/-- No number or name goes on with the first character of a text. -/
def Parted (text : List Char) : Prop := ∀ c ∈ text.head?, isNamePart c = false ∧ c ≠ '.'

theorem Parted.takeWhile_isNamePart {text : List Char} (h : Parted text) :
    text.takeWhile isNamePart = [] := by
  cases text with
  | nil => rfl
  | cons c rest => exact List.takeWhile_cons_of_neg (by simp [(h c rfl).1])

theorem Parted.takeWhile_isDigit {text : List Char} (h : Parted text) :
    text.takeWhile isDigit = [] := by
  cases text with
  | nil => rfl
  | cons c rest =>
      refine List.takeWhile_cons_of_neg fun hdigit => ?_
      exact Bool.noConfusion ((h c rfl).1.symm.trans (isNamePart_of_isDigit hdigit))

/-- A run of name characters goes on behind a word, or the word is read. -/
theorem wordAt_append (strings : Bool) {word : List Char} (rest : List Char)
    (hword : ∀ c ∈ word, isNamePart c = true) :
    wordAt strings (word ++ rest) = wordAt strings word ∨
      word.length < (wordAt strings (word ++ rest)).spelling.length ∧ ¬Parted rest := by
  by_cases hrest : rest.takeWhile isNamePart = []
  · left
    rw [← wordAt_takeWhile, List.takeWhile_append_of_pos hword, hrest, List.append_nil]
  · right
    have hpos := List.length_pos_iff.mpr hrest
    refine ⟨?_, fun hparted => hrest hparted.takeWhile_isNamePart⟩
    rw [wordAt_spelling, List.takeWhile_append_of_pos hword, List.length_append]
    omega

theorem takeWhile_prefix_numberAt (text : List Char) :
    text.takeWhile isDigit <+: (numberAt text).spelling := by
  unfold numberAt
  dsimp only
  split <;> simp [spelling]

/-- A number goes on behind a run of digits, or the run is read. -/
theorem numberAt_append_int {digits : List Char} (rest : List Char)
    (hall : ∀ c ∈ digits, isDigit c = true) :
    numberAt (digits ++ rest) = .int (.ofDigits digits hall) ∨
      digits.length < (numberAt (digits ++ rest)).spelling.length ∧ ¬Parted rest := by
  cases rest with
  | nil => exact .inl (numberAt_eq_int hall (by simp))
  | cons c rest =>
      by_cases hdigit : isDigit c = true
      · right
        have hle := (takeWhile_prefix_numberAt (digits ++ c :: rest)).length_le
        simp only [List.takeWhile_append_of_pos hall, List.takeWhile_cons_of_pos hdigit,
          List.length_append, List.length_cons] at hle
        refine ⟨by omega, fun hparted => ?_⟩
        exact Bool.noConfusion ((hparted c rfl).1.symm.trans (isNamePart_of_isDigit hdigit))
      · by_cases hpoint : c = '.'
        · right
          refine ⟨?_, fun hparted => (hparted c rfl).2 hpoint⟩
          rw [hpoint, numberAt_eq_float hall]
          simp [spelling]
        · exact .inl (numberAt_eq_int hall (by simp [hdigit, hpoint]))

/-- More digits stand behind a number with a point, or the number is read. -/
theorem numberAt_append_float {whole fraction : List Char} (rest : List Char)
    (hwhole : ∀ c ∈ whole, isDigit c = true) (hfraction : ∀ c ∈ fraction, isDigit c = true) :
    numberAt (whole ++ '.' :: (fraction ++ rest)) =
        .float (.ofParts whole fraction hwhole hfraction) ∨
      (whole ++ '.' :: fraction).length <
        (numberAt (whole ++ '.' :: (fraction ++ rest))).spelling.length ∧ ¬Parted rest := by
  simp only [numberAt_eq_float hwhole, List.takeWhile_append_of_pos hfraction]
  by_cases hrest : rest.takeWhile isDigit = []
  · exact .inl (by simp only [hrest, List.append_nil])
  · right
    have hpos := List.length_pos_iff.mpr hrest
    refine ⟨?_, fun hparted => hrest hparted.takeWhile_isDigit⟩
    simp only [spelling_float, List.length_append, List.length_cons]
    omega

theorem stringAt_append {text : List Char} (rest : List Char)
    (htext : ∀ c ∈ text, isStringPart c = true) :
    stringAt (text ++ '"' :: rest) = .ok (.string (String.ofList text)) := by
  have hquote : isStringPart '"' = false := by decide
  unfold stringAt
  rw [List.takeWhile_append_of_pos htext, List.dropWhile_append_of_pos htext]
  simp [hquote]

/-- Where a word stands, that word is read or else, if it can go on, a longer one. -/
theorem exists_readAt_of_word {strings : Bool} {other : Lexeme} (h : Word strings other)
    (rest : List Char) :
    ∃ lexeme, readAt strings (other.spelling ++ rest) = .ok lexeme ∧
      (lexeme = other ∨
        other.spelling.length < lexeme.spelling.length ∧ ¬Parted rest) := by
  cases h with
  | @mark s hs =>
      obtain ⟨c, hc, hmark, -⟩ := exists_of_mem_marks hs
      exact ⟨.symbol s, by simp [spelling, hc, readAt, hmark], .inl rfl⟩
  | @keyword s hs =>
      obtain ⟨c, word, hspelling, hstart, hword, -⟩ := exists_of_mem_words (mem_keywords.mp hs).1
      have hall : ∀ d ∈ s.spelling.toList, isNamePart d = true := by
        rw [hspelling]
        exact List.forall_mem_cons.mpr ⟨isNamePart_of_isNameStart hstart, hword⟩
      have hread := wordAt_append strings rest hall
      rw [wordAt_keyword hs] at hread
      refine ⟨_, ?_, hread⟩
      rw [spelling, hspelling]
      exact readAt_wordAt hstart
  | @name c word hstart hword hname =>
      have hall : ∀ d ∈ c :: word, isNamePart d = true :=
        List.forall_mem_cons.mpr ⟨isNamePart_of_isNameStart hstart, hword⟩
      have hread := wordAt_append strings rest hall
      rw [wordAt_name hall hname] at hread
      refine ⟨_, ?_, by simpa [spelling] using hread⟩
      rw [spelling, String.toList_ofList]
      exact readAt_wordAt hstart
  | @int digits hdigits hall =>
      obtain ⟨c, digits, rfl⟩ := List.exists_cons_of_ne_nil hdigits
      refine ⟨_, ?_, by simpa [spelling] using numberAt_append_int rest hall⟩
      rw [spelling_int]
      exact readAt_numberAt (hall c List.mem_cons_self)
  | @float whole fraction hwhole hall hfraction =>
      obtain ⟨c, whole, rfl⟩ := List.exists_cons_of_ne_nil hwhole
      refine ⟨_, ?_, by simpa [spelling] using numberAt_append_float rest hall hfraction⟩
      rw [spelling_float, List.append_assoc]
      exact readAt_numberAt (hall c List.mem_cons_self)
  | @string text hstrings htext =>
      have hmark : Symbol.ofMark? '"' = none := by decide
      have hquote : isDigit '"' = false ∧ isNameStart '"' = false := by decide
      refine ⟨_, ?_, .inl rfl⟩
      simp [spelling, readAt, hmark, hquote, hstrings, stringAt_append rest htext]

/-- A word is read at a place exactly when it stands there and no longer one does. -/
theorem readAt_eq_ok_iff {strings : Bool} {text : List Char} {lexeme : Lexeme} (htext : text ≠ []) :
    readAt strings text = .ok lexeme ↔
      Word strings lexeme ∧ lexeme.spelling <+: text ∧ Longest strings lexeme text := by
  constructor
  · intro h
    obtain ⟨hword, hprefix⟩ := word_of_readAt htext h
    refine ⟨hword, hprefix, ?_⟩
    rintro other hother ⟨rest, rfl⟩
    obtain ⟨found, hfound, hlength⟩ := exists_readAt_of_word hother rest
    obtain rfl : found = lexeme := Except.ok.inj (hfound.symm.trans h)
    rcases hlength with rfl | ⟨hlength, -⟩
    · exact Nat.le_refl _
    · exact Nat.le_of_lt hlength
  · rintro ⟨hword, ⟨rest, rfl⟩, hlongest⟩
    obtain ⟨found, hfound, rfl | ⟨hlength, -⟩⟩ := exists_readAt_of_word hword rest
    · exact hfound
    · obtain ⟨hfoundWord, hprefix⟩ := word_of_readAt htext hfound
      exact absurd (hlongest found hfoundWord hprefix) (Nat.not_le_of_lt hlength)

/-! ## Words in front of other characters -/

/-- A mark is read whatever follows it. -/
theorem longest_mark {strings : Bool} {s : Symbol} (h : s ∈ Symbol.marks) (rest : List Char) :
    Longest strings (.symbol s) ((symbol s).spelling ++ rest) := by
  obtain ⟨c, hc, hmark, -⟩ := exists_of_mem_marks h
  have hread : readAt strings ((symbol s).spelling ++ rest) = .ok (.symbol s) := by
    simp [spelling, hc, readAt, hmark]
  exact ((readAt_eq_ok_iff (by simp [spelling, hc])).mp hread).2.2

/-- A word is read in front of a text that it cannot go on with. -/
theorem Word.longest_of_parted {strings : Bool} {lexeme : Lexeme} (h : Word strings lexeme)
    {rest : List Char} (hrest : Parted rest) :
    Longest strings lexeme (lexeme.spelling ++ rest) := by
  have hread : readAt strings (lexeme.spelling ++ rest) = .ok lexeme := by
    obtain ⟨found, hfound, rfl | ⟨-, hnot⟩⟩ := exists_readAt_of_word h rest
    · exact hfound
    · exact absurd hrest hnot
  obtain ⟨c, text, hspelling, -⟩ := h.exists_spelling
  exact ((readAt_eq_ok_iff (by simp [hspelling])).mp hread).2.2

/-! ## Where no word can be read -/

section Unreadable

variable {strings : Bool} {c : Char}

/-- Why no word can be read at the start of a text: no word starts with its first character, or
a quote stands there and no other one up to the end of the line. -/
inductive Unreadable (strings : Bool) : List Char → Cause → Prop
  | character {c : Char} {rest : List Char} :
      (∀ w, Word strings w → w.spelling.head? ≠ some c) →
      Unreadable strings (c :: rest) (.illegalCharacter c)
  | string {rest : List Char} :
      strings = true → '"' ∉ rest.takeWhile (· ≠ '\n') →
      Unreadable strings ('"' :: rest) .unterminatedString

/-- The characters that words start with. -/
theorem Word.starts {w : Lexeme} (h : Word strings w) (hc : w.spelling.head? = some c) :
    (∃ s, Symbol.ofMark? c = some s) ∨ isDigit c = true ∨ isNameStart c = true ∨
      c = '"' ∧ strings = true := by
  cases h with
  | mark hs =>
      obtain ⟨d, hd, hmark, -⟩ := exists_of_mem_marks hs
      rw [spelling, hd] at hc
      cases hc
      exact .inl ⟨_, hmark⟩
  | keyword hs =>
      obtain ⟨d, rest, hd, hstart, -⟩ := exists_of_mem_words (mem_keywords.mp hs).1
      rw [spelling, hd] at hc
      cases hc
      exact .inr (.inr (.inl hstart))
  | @int digits hne hall =>
      rw [spelling_int] at hc
      exact .inr (.inl (hall c (List.mem_of_head? hc)))
  | @float whole fraction hne hall hfraction =>
      rw [spelling_float, List.head?_append_of_ne_nil _ hne] at hc
      exact .inr (.inl (hall c (List.mem_of_head? hc)))
  | @name first rest hstart hrest hname =>
      rw [spelling, String.toList_ofList] at hc
      cases hc
      exact .inr (.inr (.inl hstart))
  | @string text hstrings htext =>
      cases hc
      exact .inr (.inr (.inr ⟨rfl, hstrings⟩))

/-- A quote stands on a line exactly if the characters that a string can have end at one. -/
theorem quote_mem_takeWhile_iff {text : List Char} :
    '"' ∈ text.takeWhile (· ≠ '\n') ↔ ∃ rest, text.dropWhile isStringPart = '"' :: rest := by
  induction text with
  | nil => simp
  | cons c rest ih =>
      by_cases hfeed : c = '\n'
      · subst hfeed
        simp [isStringPart]
      · rw [List.takeWhile_cons_of_pos (by simpa using hfeed), List.mem_cons]
        by_cases hquote : c = '"'
        · subst hquote
          simp [isStringPart]
        · have hpart : isStringPart c = true := by simp [isStringPart, hquote, hfeed]
          rw [List.dropWhile_cons_of_pos hpart, ih]
          simp [Ne.symm hquote]

theorem unreadable_of_readAt {text : List Char} {cause : Cause}
    (h : readAt strings text = .error cause) : Unreadable strings text cause := by
  cases text with
  | nil => cases h
  | cons c rest =>
      rw [readAt] at h
      split at h
      next => cases h
      next hmark =>
        split at h
        next => cases h
        next hdigit =>
          split at h
          next => cases h
          next hstart =>
            split at h
            next hquote =>
              obtain ⟨rfl, hstrings⟩ := hquote
              rw [stringAt] at h
              split at h
              next => cases h
              next hnone =>
                cases h
                refine .string hstrings fun hquote => ?_
                obtain ⟨tail, htail⟩ := quote_mem_takeWhile_iff.mp hquote
                exact hnone tail htail
            next hquote =>
              cases h
              refine .character fun w hw hc => ?_
              rcases hw.starts hc with ⟨s, hs⟩ | hc | hc | hc
              · cases hmark.symm.trans hs
              · exact hdigit hc
              · exact hstart hc
              · exact hquote hc

end Unreadable

end Lexeme

end ImpToC
