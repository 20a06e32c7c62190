import ImpToC.Proofs.Excerpts.Lines
import ImpToC.Proofs.Scanning.Runs

/-!
# The language with strings and without

Scanning a text with strings and without them goes on in step up to the first string, whether it has
an end or not. There the language without strings finds a character that starts no word. All other
words are the same but for the type of strings, which is a name where there are none.
-/

namespace ImpToC

/-! ## One word -/

/-- What a word is if there are no strings: the keyword for their type is a name. -/
def Lexeme.plain : Lexeme → Lexeme
  | .symbol .stringWord => .name "string"
  | w => w

/-- A token with the word that it is if there are no strings. -/
def Token.plain (t : Token) : Token := ⟨t.lexeme.plain, t.location⟩

/-- What is read if there are no strings, by what is read if there are: a string or the beginning of
one starts with a character that starts no word. -/
def Lexeme.readPlain : Except Cause Lexeme → Except Cause Lexeme
  | .ok (.string _) | .error .unterminatedString => .error (.illegalCharacter '"')
  | .ok w => .ok w.plain
  | .error cause => .error cause

namespace Lexeme

theorem plain_spelling (w : Lexeme) : w.plain.spelling = w.spelling := by
  unfold plain
  split
  next => rfl
  next => rfl

theorem plain_eq_finish_iff {w : Lexeme} : w.plain = .finish ↔ w = .finish := by
  unfold plain
  split
  next => simp
  next => rfl

theorem readPlain_of_string {w : Lexeme} (h : w.kind = .string) :
    readPlain (.ok w) = .error (.illegalCharacter '"') := by
  cases w with
  | string text => rfl
  | _ => cases h

theorem plain_symbol {s : Symbol} (h : s ≠ .stringWord) : (symbol s).plain = .symbol s := by
  unfold plain
  split
  next heq => exact absurd (symbol.inj heq) h
  next => rfl

theorem readPlain_of_ne {w : Lexeme} (h : w.kind ≠ .string) : readPlain (.ok w) = .ok w.plain := by
  cases w with
  | string text => exact absurd rfl h
  | _ => rfl

theorem readPlain_symbol {s : Symbol} (h : s ≠ .stringWord) :
    readPlain (.ok (.symbol s)) = .ok (.symbol s) :=
  congrArg Except.ok (plain_symbol h)

theorem readPlain_numberAt (text : List Char) :
    readPlain (.ok (numberAt text)) = .ok (numberAt text) := by
  unfold numberAt
  dsimp only
  split
  · rfl
  · rfl

theorem readPlain_wordAt (text : List Char) :
    readPlain (.ok (wordAt true text)) = .ok (wordAt false text) := by
  unfold wordAt
  dsimp only
  split
  next s hword =>
    by_cases hs : s = .stringWord
    · subst hs
      rw [← ofWord?_spelling hword]
      rfl
    · rw [if_neg (fun h => hs h.1), if_neg (fun h => hs h.1)]
      exact readPlain_symbol hs
  next => rfl

theorem readPlain_stringAt (text : List Char) :
    readPlain (stringAt text) = .error (.illegalCharacter '"') := by
  unfold stringAt
  split
  · rfl
  · rfl

/-- At every place the language without strings reads what the other one reads there, but for
strings. -/
theorem readAt_false (text : List Char) : readAt false text = readPlain (readAt true text) := by
  cases text with
  | nil => rfl
  | cons c rest =>
      rw [readAt, readAt]
      split
      next s hs =>
        have hword : s ≠ .stringWord := by
          intro heq
          exact absurd (heq ▸ List.mem_of_find?_eq_some hs) (by decide)
        rw [readPlain_symbol hword]
      next =>
        split
        next => exact (readPlain_numberAt _).symm
        next =>
          split
          next => exact (readPlain_wordAt _).symm
          next =>
            by_cases hquote : c = '"'
            · subst hquote
              rw [if_neg (by decide), if_pos ⟨rfl, rfl⟩, readPlain_stringAt]
            · rw [if_neg (fun h => hquote h.1), if_neg (fun h => hquote h.1)]
              rfl

end Lexeme

/-! ## Two scans in step -/

/-- How the scans of a text with strings and without them end if there was no string: in the same way,
or at a quote. -/
inductive Scan.EndsAlike : Except Diagnostic Location → Except Diagnostic Location → Prop
  | same {ending : Except Diagnostic Location} :
      (∀ d, ending = .error d → d.cause ≠ .unterminatedString) → EndsAlike ending ending
  | quote {l : Location} {row : Option String} :
      EndsAlike (.error ⟨Cause.unterminatedString.fault l, row⟩)
        (.error ⟨(Cause.illegalCharacter '"').fault l, row⟩)

/-- The scans of a source with strings and without them: they give the same words up to a string, where
the second one stops at the quote. -/
inductive Scan.Alike (source : List Char) : Scan → Scan → Prop
  | last {ending ending' : Except Diagnostic Location} :
      EndsAlike ending ending' → Alike source ⟨[], ending⟩ ⟨[], ending'⟩
  | string {t : Token} {scan : Scan} {row : List Char} :
      t.kind = .string → Text.lineAt? (Text.feedLines source) t.location.line = some row →
      Alike source (scan.cons t)
        ⟨[], .error ⟨(Cause.illegalCharacter '"').fault t.location, some (String.ofList row)⟩⟩
  | word {t : Token} {scan scan' : Scan} :
      t.kind ≠ .string → Alike source scan scan' →
      Alike source (scan.cons t) (scan'.cons t.plain)

/-- The scans of a text go on in step. -/
theorem Scanned.alike {file : String} {before text : List Char} {scan : Scan}
    (h : Scanned true file before text scan) :
    Scan.Alike (before ++ text) scan ((Cursor.between file before text).scan false) := by
  induction h with
  | finish hgap =>
      rw [Cursor.scan_finish file _ hgap]
      apply Scan.Alike.last (.same _)
      intro d hd
      cases hd
  | @fault before gap ahead cause hgap hahead hread =>
      have hplain := Lexeme.readAt_false ahead
      rw [hread] at hplain
      cases Lexeme.unreadable_of_readAt hread with
      | character =>
          rw [Cursor.scan_of_next_error (Cursor.next_between_error file _ hgap hahead hplain)]
          apply Scan.Alike.last (.same _)
          intro d hd hcause
          cases hd
          cases hcause
      | string =>
          rw [Cursor.scan_of_next_error (Cursor.next_between_error file _ hgap hahead hplain)]
          exact .last .quote
  | @word before gap rest lexeme scan hgap hword hlongest _ ih =>
      have hahead := hword.trivia_eq_nil rest
      have hplain := Lexeme.readAt_false (lexeme.spelling ++ rest)
      rw [hword.readAt_eq hlongest] at hplain
      by_cases hstring : lexeme.kind = .string
      · rw [Lexeme.readPlain_of_string hstring] at hplain
        rw [Cursor.scan_of_next_error (Cursor.next_between_error file _ hgap hahead hplain)]
        have hrow := Cursor.lineAt?_feedLines file (before ++ gap) (lexeme.spelling ++ rest)
        rw [List.append_assoc] at hrow
        exact @Scan.Alike.string _ ⟨lexeme, _⟩ _ _ hstring hrow
      · rw [Lexeme.readPlain_of_ne hstring] at hplain
        have hnext := Cursor.next_between file before hgap hahead hplain
        rw [Lexeme.plain_spelling, Cursor.move_between] at hnext
        have hfinish : lexeme.plain ≠ .finish := by
          intro heq
          rw [Lexeme.plain_eq_finish_iff.mp heq] at hword
          cases hword
        rw [Cursor.scan_of_next hnext, if_neg hfinish]
        apply @Scan.Alike.word _ ⟨lexeme, _⟩ _ _ hstring
        simpa using ih

/-! ## What the first scan tells of the second one -/

namespace Scan.Alike

variable {source : List Char} {scan scan' : Scan}

/-- Scans without a string give the same words. -/
theorem of_no_string (h : Alike source scan scan') (hno : ∀ t ∈ scan.words, t.kind ≠ .string) :
    ∃ ending, scan' = ⟨scan.words.map Token.plain, ending⟩ ∧ EndsAlike scan.ending ending := by
  induction h with
  | last hends => exact ⟨_, rfl, hends⟩
  | string ht => exact absurd ht (hno _ List.mem_cons_self)
  | word _ _ ih =>
      obtain ⟨ending, rfl, hends⟩ := ih (List.forall_mem_cons.mp hno).2
      exact ⟨ending, rfl, hends⟩

/-- The second scan stops where the first one gives a string. -/
theorem of_string (h : Alike source scan scan') {earlier later : List Token} {t : Token}
    (hwords : scan.words = earlier ++ t :: later) (hno : ∀ u ∈ earlier, u.kind ≠ .string)
    (ht : t.kind = .string) :
    ∃ row, Text.lineAt? (Text.feedLines source) t.location.line = some row ∧
      scan' = ⟨earlier.map Token.plain,
        .error ⟨(Cause.illegalCharacter '"').fault t.location, some (String.ofList row)⟩⟩ := by
  induction h generalizing earlier with
  | last => simp at hwords
  | @string u scan row hu hrow =>
      cases earlier with
      | nil =>
          obtain ⟨rfl, -⟩ := List.cons.inj hwords
          exact ⟨row, hrow, rfl⟩
      | cons v earlier =>
          obtain ⟨rfl, -⟩ := List.cons.inj hwords
          exact absurd hu (hno _ List.mem_cons_self)
  | @word u scan scan' hu _ ih =>
      cases earlier with
      | nil =>
          obtain ⟨rfl, -⟩ := List.cons.inj hwords
          exact absurd ht hu
      | cons v earlier =>
          obtain ⟨rfl, hrest⟩ := List.cons.inj hwords
          obtain ⟨row, hrow, rfl⟩ := ih hrest (List.forall_mem_cons.mp hno).2
          exact ⟨row, hrow, rfl⟩

/-- The first scan goes through if the second one does. -/
theorem of_ok (h : Alike source scan scan') {finish : Location} (hfinish : scan'.ending = .ok finish) :
    scan.ending = .ok finish ∧ ∀ t ∈ scan.words, t.kind ≠ .string := by
  induction h with
  | last hends =>
      cases hends with
      | same => exact ⟨hfinish, List.forall_mem_nil _⟩
      | quote => cases hfinish
  | string => cases hfinish
  | word hu _ ih =>
      obtain ⟨hending, hno⟩ := ih hfinish
      exact ⟨hending, List.forall_mem_cons.mpr ⟨hu, hno⟩⟩

end Scan.Alike

/-- The language without strings scans a text as the other one does up to the first string. If there is
none, both find the same words at the same places, but for the type of strings, and end in the same
place or stop at the same character. Where the first string starts, or what would be one if it had an
end, the language without strings stops, behind the same words and for the quote that stands there;
what comes later in the text has no part in this. So a text that goes through without strings goes
through with them. -/
theorem Cursor.scan_variants (file : String) (text : List Char) :
    let scan := (start file text).scan true
    let plain := (start file text).scan false
    ((∀ t ∈ scan.words, t.kind ≠ .string) →
      (∀ finish, scan.ending = .ok finish → plain = ⟨scan.words.map Token.plain, .ok finish⟩) ∧
      ∀ d, scan.ending = .error d →
        (d.cause = .unterminatedString → ∃ l, d.location = some l ∧
          plain = ⟨scan.words.map Token.plain,
            .error ⟨(Cause.illegalCharacter '"').fault l, d.sourceLine⟩⟩) ∧
        (∀ c, d.cause = .illegalCharacter c →
          plain = ⟨scan.words.map Token.plain, .error d⟩)) ∧
    (∀ earlier t later, scan.words = earlier ++ t :: later →
      (∀ u ∈ earlier, u.kind ≠ .string) → t.kind = .string →
      ∃ row, Text.lineAt? (Text.feedLines text) t.location.line = some row ∧
        plain = ⟨earlier.map Token.plain,
          .error ⟨(Cause.illegalCharacter '"').fault t.location, some (String.ofList row)⟩⟩) ∧
    ∀ finish, plain.ending = .ok finish → scan.ending = .ok finish := by
  intro scan plain
  have halike : Scan.Alike text scan plain := (scanned true file [] text).alike
  refine ⟨fun hno => ?_, fun earlier t later hwords hno ht => halike.of_string hwords hno ht,
    fun finish hfinish => (halike.of_ok hfinish).1⟩
  obtain ⟨ending, hplain, hends⟩ := halike.of_no_string hno
  rw [hplain]
  refine ⟨fun finish hfinish => ?_, fun d hd => ⟨fun hcause => ?_, fun c hcause => ?_⟩⟩
  · rw [hfinish] at hends
    cases hends
    rfl
  · rw [hd] at hends
    cases hends with
    | same hsame => exact absurd hcause (hsame d rfl)
    | quote => exact ⟨_, rfl, rfl⟩
  · rw [hd] at hends
    cases hends with
    | same => rfl
    | quote => cases hcause

/-- The quote in the comment stops neither language, and the one on the next line stops the second
before either comes to the character at the end. -/
theorem Cursor.scan_variants_comment :
    (start defaultFile "string # \"\n\"a\" @".toList).scan false =
      ⟨[⟨.name "string", ⟨1, 1, defaultFile⟩⟩],
        .error ⟨(Cause.illegalCharacter '"').fault ⟨2, 1, defaultFile⟩, some "\"a\" @"⟩⟩ := by
  have hwords : ((start defaultFile "string # \"\n\"a\" @".toList).scan true).words =
      [⟨.symbol .stringWord, ⟨1, 1, defaultFile⟩⟩] ++
        ⟨.string "a", ⟨2, 1, defaultFile⟩⟩ :: [] := by decide +kernel
  have hearlier : ∀ u ∈ [Token.mk (.symbol .stringWord) ⟨1, 1, defaultFile⟩],
      u.kind ≠ .string := by decide
  have hline : Text.lineAt? (Text.feedLines "string # \"\n\"a\" @".toList) 2 =
      some "\"a\" @".toList := by decide
  obtain ⟨row, hrow, hplain⟩ :=
    (scan_variants defaultFile _).2.1 _ _ _ hwords hearlier rfl
  obtain rfl := Option.some.inj (hline.symm.trans hrow)
  exact hplain

end ImpToC
