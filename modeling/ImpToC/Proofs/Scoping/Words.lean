import ImpToC.C.Text
import ImpToC.Token.Spelling

/-!
# Words of C text

A text of C outside of its literals is a row of names and marks. A run of digits counts
as a name that starts with a digit, so a number is some names and marks.
-/

namespace ImpToC.C

/-- A word of C text. -/
inductive Word
  /-- A longest run of letters, digits and underscores. -/
  | name (text : String)
  /-- A string or a character in quotes. -/
  | literal
  /-- Any other character that is not blank. -/
  | mark (c : Char)
  deriving DecidableEq, Repr

/-- Where a reader of C text stands. -/
inductive Reader
  /-- Outside of literals, behind the letters of a name. -/
  | outside (letters : List Char)
  /-- In a literal. -/
  | inside (quote : Char)
  /-- In a literal, behind a backslash. -/
  | escaped (quote : Char)
  deriving DecidableEq

namespace Reader

/-- The name whose letters have been read. -/
def pending (letters : List Char) : List Word :=
  if letters = [] then [] else [.name (String.ofList letters)]

/-- The words that one more character completes, and the place behind it. -/
def next : Reader → Char → List Word × Reader
  | .outside letters, c =>
    if isNamePart c then ([], .outside (letters ++ [c]))
    else if c = '"' ∨ c = '\'' then (pending letters, .inside c)
    else if isBlank c then (pending letters, .outside [])
    else (pending letters ++ [.mark c], .outside [])
  | .inside quote, c =>
    if c = '\\' then ([], .escaped quote)
    else if c = quote then ([.literal], .outside [])
    else ([], .inside quote)
  | .escaped quote, _ => ([], .inside quote)

/-- The words of a text from a place in it. -/
def words : Reader → List Char → List Word
  | .outside letters, [] => pending letters
  | .inside _, [] | .escaped _, [] => []
  | r, c :: rest => (r.next c).1 ++ (r.next c).2.words rest

/-- The place behind a text. -/
def behind (r : Reader) (text : List Char) : Reader := text.foldl (fun r c => (r.next c).2) r

end Reader

/-- The words of a text. -/
def words (text : List Char) : List Word := (Reader.outside []).words text

/-! ## Pieces of a text -/

namespace Reader

@[simp] theorem words_cons (r : Reader) (c : Char) (rest : List Char) :
    r.words (c :: rest) = (r.next c).1 ++ (r.next c).2.words rest := by
  cases r <;> rfl

/-- Where a reader is behind a piece of text with nothing open, the next piece is read by
itself. -/
theorem words_append {r : Reader} {text : List Char} (h : r.behind text = .outside [])
    (rest : List Char) : r.words (text ++ rest) = r.words text ++ (outside []).words rest := by
  induction text generalizing r with
  | nil =>
      rw [show r = .outside [] from h]
      rfl
  | cons c text ih => rw [List.cons_append, words_cons, words_cons, ih h, List.append_assoc]

end Reader

theorem words_append {text : List Char} (h : (Reader.outside []).behind text = .outside [])
    (rest : List Char) : words (text ++ rest) = words text ++ words rest :=
  Reader.words_append h rest

/-- A text that goes on with no letter. -/
def StopsName (text : List Char) : Prop := ∀ c ∈ text.head?, isNamePart c = false

theorem stopsName_append (text : String) (rest : List Char)
    (h : text.toList.head?.any (fun c => !isNamePart c) = true) :
    StopsName (text.toList ++ rest) := by
  cases htext : text.toList with
  | nil => simp [htext] at h
  | cons c tail => simpa [StopsName, htext] using h

theorem Reader.words_of_stopsName {letters text : List Char} (h : StopsName text) :
    (outside letters).words text = pending letters ++ ImpToC.C.words text := by
  cases text with
  | nil => simp [words, ImpToC.C.words, pending]
  | cons c rest =>
      have hc : isNamePart c = false := h c rfl
      simp only [ImpToC.C.words, words_cons, next, hc, Bool.false_eq_true, if_false]
      split
      · simp [pending]
      · split <;> simp [pending]

theorem words_name {name : String} {rest : List Char}
    (hname : ∀ c ∈ name.toList, isNamePart c = true) (hne : name ≠ "") (hrest : StopsName rest) :
    words (name.toList ++ rest) = .name name :: words rest := by
  have hread (letters text : List Char) (htext : ∀ c ∈ text, isNamePart c = true) :
      (Reader.outside letters).words (text ++ rest) =
        (Reader.outside (letters ++ text)).words rest := by
    induction text generalizing letters with
    | nil => simp
    | cons c text ih =>
        obtain ⟨hc, htext⟩ := List.forall_mem_cons.mp htext
        simp [Reader.next, hc, ih _ htext]
  rw [words, hread [] _ hname, List.nil_append, Reader.words_of_stopsName hrest, Reader.pending,
    if_neg (by simpa using hne), String.ofList_toList]
  rfl

theorem words_blanks (n : Nat) (rest : List Char) :
    words (List.replicate n ' ' ++ rest) = words rest := by
  induction n with
  | zero => rfl
  | succ n ih =>
      rw [List.replicate_succ, List.cons_append, ← ih]
      rfl

/-- A string literal is one word, whatever text is in it. -/
theorem words_stringLiteral (text rest : List Char) :
    words (stringLiteral text ++ rest) = .literal :: words rest := by
  have hescape (c : Char) (tail : List Char) :
      (Reader.inside '"').words (escape c ++ tail) = (Reader.inside '"').words tail := by
    unfold escape
    split
    · rfl
    · split
      · rfl
      · split
        · rfl
        · split
          · rfl
          · simp [Reader.next, *]
  have hinside : (Reader.inside '"').words (text.flatMap escape ++ '"' :: rest) =
      .literal :: words rest := by
    induction text with
    | nil => rfl
    | cons c text ih => rw [List.flatMap_cons, List.append_assoc, hescape, ih]
  rw [← hinside, stringLiteral, List.append_assoc, List.cons_append]
  rfl

/-- Text without quotes is read by itself where a name stops. -/
theorem words_append_of_stopsName {text rest : List Char} (htext : '"' ∉ text ∧ '\'' ∉ text)
    (hrest : StopsName rest) : words (text ++ rest) = words text ++ words rest := by
  have hread (letters : List Char) : (Reader.outside letters).words (text ++ rest) =
      (Reader.outside letters).words text ++ words rest := by
    induction text generalizing letters with
    | nil => exact Reader.words_of_stopsName hrest
    | cons c text ih =>
        simp only [List.mem_cons, not_or] at htext
        have ih := ih ⟨htext.1.2, htext.2.2⟩
        have hquote : ¬ (c = '"' ∨ c = '\'') := by
          rintro (rfl | rfl)
          · exact htext.1.1 rfl
          · exact htext.2.1 rfl
        simp only [List.cons_append, Reader.words_cons, Reader.next, if_neg hquote]
        split
        · exact ih _
        · split <;> simp [ih]
  exact hread []

/-! ## Characters of words -/

/-- The characters of a word, but for those of a literal. -/
def Word.chars : Word → List Char
  | .name text => text.toList
  | .literal => []
  | .mark c => [c]

namespace Reader

/-- The letters of the name that a reader is in. -/
def letters : Reader → List Char
  | .outside letters => letters
  | .inside _ | .escaped _ => []

theorem chars_pending {p : Char → Prop} {letters : List Char} (h : ∀ c ∈ letters, p c) :
    ∀ w ∈ pending letters, ∀ c ∈ w.chars, p c := by
  unfold pending
  split
  · exact nofun
  · simpa [Word.chars] using h

theorem chars_next {p : Char → Prop} {r : Reader} {c : Char} (hr : ∀ d ∈ r.letters, p d)
    (hc : p c) :
    (∀ w ∈ (r.next c).1, ∀ d ∈ w.chars, p d) ∧ ∀ d ∈ (r.next c).2.letters, p d := by
  cases r with
  | outside letters =>
      have hpending := chars_pending hr
      unfold next
      dsimp only
      split
      · exact ⟨nofun, List.forall_mem_append.mpr ⟨hr, List.forall_mem_singleton.mpr hc⟩⟩
      · split
        · exact ⟨hpending, nofun⟩
        · split
          · exact ⟨hpending, nofun⟩
          · refine ⟨List.forall_mem_append.mpr ⟨hpending, List.forall_mem_singleton.mpr ?_⟩, nofun⟩
            exact List.forall_mem_singleton.mpr hc
  | inside quote =>
      unfold next
      dsimp only
      split
      · exact ⟨nofun, nofun⟩
      · split
        · exact ⟨List.forall_mem_singleton.mpr nofun, nofun⟩
        · exact ⟨nofun, nofun⟩
  | escaped quote => exact ⟨nofun, nofun⟩

theorem chars_words {p : Char → Prop} {r : Reader} {text : List Char}
    (hr : ∀ c ∈ r.letters, p c) (htext : ∀ c ∈ text, p c) :
    ∀ w ∈ r.words text, ∀ c ∈ w.chars, p c := by
  induction text generalizing r with
  | nil =>
      cases r with
      | outside letters => exact chars_pending hr
      | inside | escaped => exact nofun
  | cons c rest ih =>
      obtain ⟨hc, hrest⟩ := List.forall_mem_cons.mp htext
      obtain ⟨hwords, hletters⟩ := chars_next hr hc
      rw [words_cons]
      exact List.forall_mem_append.mpr ⟨hwords, ih hletters hrest⟩

end Reader

/-- Words are made of characters of their text. -/
theorem chars_words {p : Char → Prop} {text : List Char} (htext : ∀ c ∈ text, p c) :
    ∀ w ∈ words text, ∀ c ∈ w.chars, p c :=
  Reader.chars_words nofun htext

end ImpToC.C
